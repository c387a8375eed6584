import Mathlib.Algebra.GroupWithZero.Nat
import Mathlib.Data.List.Basic
import Mathlib.Tactic.Common

/-!
# The stop ladder

`runtime/stop.rs`: three signals in the order a person would use them, with a wait between each pair,
and a report of what became of each target. Where a signal goes is the `Signals` of a machine, which
answer from a state that may move between any two questions.

A target that was climbed for alone has gone, or a signal did not reach it, or it was sent every
signal of the ladder (`Watched.climb`).
-/

set_option autoImplicit false

namespace Nodal.Runtime

/-- How long a target is given to stop after one signal, in milliseconds. -/
def GRACE : ℕ := 5000

/-- How often the wait looks whether a target has gone, in milliseconds. -/
def POLL : ℕ := 50

/-- The identifiers no signal is ever sent to. -/
def RESERVED : List ℕ := [0, 1]

inductive Signal
  | interrupt
  | terminate
  | kill
  deriving DecidableEq, Repr

/-- The three signals in the order they are sent. -/
def LADDER : List Signal := [.interrupt, .terminate, .kill]

/-- What a signal is sent to. -/
inductive Target
  | process (pid : ℕ)
  | group (pgid : ℕ)
  deriving DecidableEq, Repr

/-- Where a signal goes. -/
structure Signals (σ : Type) where
  /-- Send a signal: `false` when there is no such target, or it is not this account's to signal. -/
  send : Target → Signal → σ → Bool × σ
  /-- Whether the target is still there. -/
  alive : Target → σ → Bool × σ
  wait : ℕ → σ → σ
  now : σ → ℕ

/-- What one stop did. -/
structure Stopped where
  asked : List Target
  killed : List Target
  left : List Target
  spared : List Target
  deriving DecidableEq, Repr

/-- Whether nothing is still running. -/
def Stopped.isClear (stopped : Stopped) : Bool := stopped.left = []

/-- The process and the groups an operation never signals, besides the reserved identifiers. -/
structure Spared where
  processes : List ℕ
  groups : List ℕ

/-- Whether a target is one no signal is ever sent to. -/
def isSpared (spared : Spared) : Target → Bool
  | .process pid => pid ∈ RESERVED ∨ pid ∈ spared.processes
  | .group pgid => pgid ∈ RESERVED ∨ pgid ∈ spared.groups

variable {σ : Type} (signals : Signals σ)

/-- The targets that are still there. -/
def living : List Target → σ → List Target × σ
  | [], s => ([], s)
  | target :: rest, s =>
    let (there, s) := signals.alive target s
    let (others, s) := living rest s
    (if there then target :: others else others, s)

/-- Wait up to a deadline for the signalled targets to go, for so many polls at most, and answer with
the ones that did not. -/
def settle (sent : List Target) (deadline : ℕ) : ℕ → σ → List Target × σ
  | 0, s => living signals sent s
  | polls + 1, s =>
    let (alive, s) := living signals sent s
    if alive = [] ∨ deadline ≤ signals.now s then (alive, s)
    else settle sent deadline polls (signals.wait POLL s)

/-- Send a signal to everything standing, and remember what each target that took it got last. -/
def sendAll (signal : Signal) :
    List Target → List (Target × Signal) → σ → List Target × List (Target × Signal) × σ
  | [], reached, s => ([], reached, s)
  | target :: rest, reached, s =>
    let (took, s) := signals.send target signal s
    if took then
      let (sent, reached, s) :=
        sendAll signal rest (reached.filter (·.1 ≠ target) ++ [(target, signal)]) s
      (target :: sent, reached, s)
    else sendAll signal rest reached s

/-- One rung: the signal, and what is still there after the wait. -/
def rung (standing : List Target) (signal : Signal) (period : ℕ) (reached : List (Target × Signal))
    (s : σ) : List Target × List (Target × Signal) × σ :=
  let (sent, reached, s) := sendAll signals signal standing reached s
  let (standing, s) := settle signals sent (signals.now s + period) (period / POLL + 1) s
  (standing, reached, s)

/-- The rungs one after the other, while anything stands. -/
def climb (grace : ℕ) : List Signal → List Target → List (Target × Signal) → σ →
    List Target × List (Target × Signal) × σ
  | [], standing, reached, s => (standing, reached, s)
  | signal :: rest, standing, reached, s =>
    if standing = [] then (standing, reached, s)
    else
      let period := if signal = .kill then POLL else grace
      let (standing, reached, s) := rung signals standing signal period reached s
      climb grace rest standing reached s

/-- Each target once, apart from the ones that are never signalled. -/
def sorted (spared : Spared) (targets : List Target) : List Target × List Target :=
  targets.foldl (fun (standing, left) target ↦
    if target ∈ standing ∨ target ∈ left then (standing, left)
    else if isSpared spared target then (standing, left ++ [target])
    else (standing ++ [target], left)) ([], [])

/-- Turn the last signal each target received into the report's lists. -/
def account (spared : List Target) (reached : List (Target × Signal)) (standing : List Target) :
    Stopped :=
  let gone := reached.filter (·.1 ∉ standing)
  { asked := (gone.filter (·.2 ≠ .kill)).map Prod.fst
    killed := (gone.filter (·.2 = .kill)).map Prod.fst
    left := standing
    spared }

/-- Stop every target, and report what became of each. -/
def processes (spared : Spared) (targets : List Target) (grace : ℕ) (s : σ) : Stopped × σ :=
  let (standing, left) := sorted spared targets
  let (standing, reached, s) := climb signals grace LADDER standing [] s
  (account left reached standing, s)

/-! ### What every question keeps -/

section Keeps

variable {signals} {Inv : σ → Prop}
  (hsend : ∀ target signal s, Inv s → Inv (signals.send target signal s).2)
  (halive : ∀ target s, Inv s → Inv (signals.alive target s).2)
  (hwait : ∀ period s, Inv s → Inv (signals.wait period s))

include halive in
theorem living_keeps {targets : List Target} {s : σ} (hs : Inv s) :
    Inv (living signals targets s).2 := by
  induction targets generalizing s with
  | nil => exact hs
  | cons target rest ih => exact ih (halive target s hs)

include halive hwait in
theorem settle_keeps {sent : List Target} {deadline polls : ℕ} {s : σ} (hs : Inv s) :
    Inv (settle signals sent deadline polls s).2 := by
  induction polls generalizing s with
  | zero => exact living_keeps halive hs
  | succ polls ih =>
    have hliving : Inv (living signals sent s).2 := living_keeps halive hs
    unfold settle
    dsimp only
    split
    · exact hliving
    · exact ih (hwait POLL _ hliving)

include hsend in
theorem sendAll_keeps {signal : Signal} {targets : List Target} {reached : List (Target × Signal)}
    {s : σ} (hs : Inv s) : Inv (sendAll signals signal targets reached s).2.2 := by
  induction targets generalizing reached s with
  | nil => exact hs
  | cons target rest ih =>
    unfold sendAll
    dsimp only
    split
    · exact ih (hsend target signal s hs)
    · exact ih (hsend target signal s hs)

include hsend halive hwait in
theorem rung_keeps {standing : List Target} {signal : Signal} {period : ℕ}
    {reached : List (Target × Signal)} {s : σ} (hs : Inv s) :
    Inv (rung signals standing signal period reached s).2.2 := by
  unfold rung
  exact settle_keeps halive hwait (sendAll_keeps hsend hs)

include hsend halive hwait in
/-- What each question keeps, a whole stop keeps. -/
theorem processes_keeps {spared : Spared} {targets : List Target} {grace : ℕ} {s : σ} (hs : Inv s) :
    Inv (processes signals spared targets grace s).2 := by
  have hclimb (rungs : List Signal) (standing : List Target) (reached : List (Target × Signal))
      (s : σ) (hs : Inv s) : Inv (climb signals grace rungs standing reached s).2.2 := by
    induction rungs generalizing standing reached s with
    | nil => exact hs
    | cons signal rest ih =>
      unfold climb
      split
      · exact hs
      · exact ih _ _ _ (rung_keeps hsend halive hwait hs)
  exact hclimb LADDER (sorted spared targets).1 [] s hs

end Keeps

/-! ### One target -/

/-- What is known of one target along a ladder: that it has gone, that a signal could not reach it,
and that a signal did. Nothing that happens takes any of them back. -/
structure Watched (target : Target) (Gone Refused : σ → Prop) (Got : Signal → σ → Prop) : Prop where
  send_kept : ∀ signal s, (Gone s → Gone (signals.send target signal s).2) ∧
    (Refused s → Refused (signals.send target signal s).2) ∧
    ∀ got, Got got s → Got got (signals.send target signal s).2
  alive_kept : ∀ s, (Gone s → Gone (signals.alive target s).2) ∧
    (Refused s → Refused (signals.alive target s).2) ∧
    ∀ got, Got got s → Got got (signals.alive target s).2
  wait_kept : ∀ period s, (Gone s → Gone (signals.wait period s)) ∧
    (Refused s → Refused (signals.wait period s)) ∧
    ∀ got, Got got s → Got got (signals.wait period s)
  taken : ∀ signal s, (signals.send target signal s).1 = true →
    Got signal (signals.send target signal s).2
  refused : ∀ signal s, (signals.send target signal s).1 = false →
    Gone (signals.send target signal s).2 ∨ Refused (signals.send target signal s).2
  dead : ∀ s, (signals.alive target s).1 = false → Gone (signals.alive target s).2

namespace Watched

variable {signals} {target : Target} {Gone Refused : σ → Prop} {Got : Signal → σ → Prop} {s : σ}

/-- One target asked about is there, or it has gone. -/
theorem living (h : Watched signals target Gone Refused Got) (s : σ) :
    (living signals [target] s).2 = (signals.alive target s).2 ∧
      ((living signals [target] s).1 = [target] ∨
        (living signals [target] s).1 = [] ∧ Gone (living signals [target] s).2) := by
  refine ⟨rfl, ?_⟩
  cases halive : (signals.alive target s).1 with
  | true => exact Or.inl (by simp [Runtime.living, halive])
  | false => exact Or.inr ⟨by simp [Runtime.living, halive], h.dead s halive⟩

/-- Waiting for one target ends with it there or gone. -/
theorem settle (h : Watched signals target Gone Refused Got) (deadline polls : ℕ) (s : σ) :
    ((settle signals [target] deadline polls s).1 = [target] ∨
      (settle signals [target] deadline polls s).1 = [] ∧
        Gone (settle signals [target] deadline polls s).2) ∧
    (Gone s → Gone (settle signals [target] deadline polls s).2) ∧
    (Refused s → Refused (settle signals [target] deadline polls s).2) ∧
    ∀ got, Got got s → Got got (settle signals [target] deadline polls s).2 := by
  induction polls generalizing s with
  | zero => exact ⟨(h.living s).2, h.alive_kept s⟩
  | succ polls ih =>
    obtain ⟨hgone, hrefused, hgot⟩ := h.alive_kept s
    unfold Runtime.settle
    dsimp only
    split
    · exact ⟨(h.living s).2, h.alive_kept s⟩
    · obtain ⟨hwgone, hwrefused, hwgot⟩ := h.wait_kept POLL (signals.alive target s).2
      obtain ⟨hend, hegone, herefused, hegot⟩ := ih (signals.wait POLL (signals.alive target s).2)
      exact ⟨hend, fun hs ↦ hegone (hwgone (hgone hs)), fun hs ↦ herefused (hwrefused (hrefused hs)),
        fun got hs ↦ hegot got (hwgot got (hgot got hs))⟩

/-- One rung for one target: it has gone, or a signal could not reach it, or it took this one and
still stands. What was so stays so. -/
theorem rung (h : Watched signals target Gone Refused Got) (signal : Signal) (period : ℕ)
    (reached : List (Target × Signal)) (s : σ) :
    ((Runtime.rung signals [target] signal period reached s).1 = [target] ∧
        Got signal (Runtime.rung signals [target] signal period reached s).2.2 ∨
      (Runtime.rung signals [target] signal period reached s).1 = [] ∧
        (Gone (Runtime.rung signals [target] signal period reached s).2.2 ∨
          Refused (Runtime.rung signals [target] signal period reached s).2.2)) ∧
    ∀ got, Got got s → Got got (Runtime.rung signals [target] signal period reached s).2.2 := by
  obtain ⟨_, _, hgot⟩ := h.send_kept signal s
  cases htook : (signals.send target signal s).1 with
  | true =>
    have hsent : sendAll signals signal [target] reached s = ([target],
        reached.filter (·.1 ≠ target) ++ [(target, signal)], (signals.send target signal s).2) := by
      simp [sendAll, htook]
    simp only [Runtime.rung, hsent]
    obtain ⟨hend, _, _, hegot⟩ := h.settle
      (signals.now (signals.send target signal s).2 + period) (period / POLL + 1)
      (signals.send target signal s).2
    refine ⟨?_, fun got hs ↦ hegot got (hgot got hs)⟩
    rcases hend with hthere | ⟨hnone, hgone⟩
    · exact Or.inl ⟨hthere, hegot signal (h.taken signal s htook)⟩
    · exact Or.inr ⟨hnone, Or.inl hgone⟩
  | false =>
    have hsent : sendAll signals signal [target] reached s =
        ([], reached, (signals.send target signal s).2) := by
      simp [sendAll, htook]
    have hsettled (deadline polls : ℕ) (s : σ) :
        Runtime.settle signals [] deadline polls s = ([], s) := by
      cases polls <;> simp [Runtime.settle, Runtime.living]
    simp only [Runtime.rung, hsent, hsettled]
    exact ⟨Or.inr ⟨trivial, h.refused signal s htook⟩, hgot⟩

/-- A ladder climbed for one target ends with it gone, or out of reach, or sent every signal. -/
theorem climb (h : Watched signals target Gone Refused Got) (grace : ℕ) (rungs : List Signal)
    (reached : List (Target × Signal)) (s : σ) :
    (Gone (climb signals grace rungs [target] reached s).2.2 ∨
      Refused (climb signals grace rungs [target] reached s).2.2 ∨
      ∀ signal ∈ rungs, Got signal (climb signals grace rungs [target] reached s).2.2) ∧
    ∀ got, Got got s → Got got (climb signals grace rungs [target] reached s).2.2 := by
  induction rungs generalizing reached s with
  | nil => exact ⟨Or.inr (Or.inr (by simp)), fun _ hs ↦ hs⟩
  | cons signal rest ih =>
    obtain ⟨hrung, hgot⟩ := h.rung signal (if signal = .kill then POLL else grace) reached s
    unfold Runtime.climb
    rw [if_neg (List.cons_ne_nil target [])]
    dsimp only
    generalize Runtime.rung signals [target] signal (if signal = .kill then POLL else grace) reached s
      = left at hrung hgot ⊢
    obtain ⟨standing, reached', s'⟩ := left
    rcases hrung with ⟨hstands, htook⟩ | ⟨hnone, hleft⟩
    · obtain rfl : standing = [target] := hstands
      obtain ⟨hend, hkept⟩ := ih reached' s'
      refine ⟨hend.imp_right fun hend ↦ hend.imp_right fun hall ↦ ?_,
        fun got hs ↦ hkept got (hgot got hs)⟩
      exact List.forall_mem_cons.mpr ⟨hkept signal htook, hall⟩
    · obtain rfl : standing = [] := hnone
      have hstop : Runtime.climb signals grace rest [] reached' s' = ([], reached', s') := by
        cases rest <;> simp [Runtime.climb]
      rw [hstop]
      exact ⟨hleft.imp_right Or.inl, hgot⟩

/-- A stop of one target that may be signalled ends with it gone, or out of reach, or sent the whole
ladder. -/
theorem processes (h : Watched signals target Gone Refused Got) {spared : Spared}
    (hspared : isSpared spared target = false) (grace : ℕ) (s : σ) :
    Gone (processes signals spared [target] grace s).2 ∨
      Refused (processes signals spared [target] grace s).2 ∨
      ∀ signal ∈ LADDER, Got signal (processes signals spared [target] grace s).2 := by
  have hsorted : sorted spared [target] = ([target], []) := by simp [sorted, hspared]
  simp only [Runtime.processes, hsorted]
  exact (h.climb grace LADDER [] s).1

end Watched

end Nodal.Runtime
