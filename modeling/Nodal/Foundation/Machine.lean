import Nodal.Foundation.Program

/-!
# Machines that interleave programs

A `Machine` runs the programs of any number of processes over one shared world. Three things can
happen, and a `Label` names which: a process enters with a job, a process performs the effect its
program is at, or a process leaves. A process that leaves before its program has ended has died
there, so every history of labels is a history of crashes as well.

What an effect answers may depend on more than the world. Each `act` label carries a choice of what
the outside answers to whatever effect is next; a run is a list of labels, and every property proved
of all label lists holds whatever the outside answers.

`exec` is the whole run and `Along` states a condition on each of its steps. `exec_induction` lifts
what every step keeps to the run.
-/

set_option autoImplicit false

namespace Nodal.Foundation

/-- What processes `ι` with jobs `J` do to a world `σ` by performing effects `E`. -/
structure Machine (ι J σ E : Type) (R C : E → Type) (α : Type) where
  /-- The program a process runs for a job. -/
  program : ι → J → Program E R α
  /-- What the arrival of a process does to the world, when it may arrive. -/
  enter : ι → J → σ → Option σ
  /-- What the end of a process does to the world. -/
  leave : ι → σ → σ
  /-- What one effect answers and does, given what the outside chose. -/
  perform : ι → (effect : E) → C effect → σ → R effect × σ

/-- One step of a run. -/
inductive Label (ι J E : Type) (C : E → Type) : Type
  | enter (process : ι) (job : J)
  | act (process : ι) (choice : (effect : E) → C effect)
  | leave (process : ι)

/-- The process a step is made by. -/
def Label.actor {ι J E : Type} {C : E → Type} : Label ι J E C → ι
  | enter process _ => process
  | act process _ => process
  | leave process => process

/-- The world, and what each live process has left to do. -/
structure Config (ι σ E : Type) (R : E → Type) (α : Type) where
  world : σ
  running : ι → Option (Program E R α)

namespace Machine

variable {ι J σ E α : Type} {R C : E → Type} [DecidableEq ι]

/-- One step, or `none` where the label does not fit the configuration. -/
def next (M : Machine ι J σ E R C α) (c : Config ι σ E R α) :
    Label ι J E C → Option (Config ι σ E R α)
  | .enter i job =>
    match c.running i, M.enter i job c.world with
    | none, some world => some ⟨world, Function.update c.running i (some (M.program i job))⟩
    | _, _ => none
  | .act i choice =>
    match c.running i with
    | some (.perform effect rest) =>
      let result := M.perform i effect (choice effect) c.world
      some ⟨result.2, Function.update c.running i (some (rest result.1))⟩
    | _ => none
  | .leave i =>
    match c.running i with
    | some _ => some ⟨M.leave i c.world, Function.update c.running i none⟩
    | none => none

/-- A run: the labels one after the other. -/
def exec (M : Machine ι J σ E R C α) (c : Config ι σ E R α) :
    List (Label ι J E C) → Option (Config ι σ E R α)
  | [] => some c
  | label :: labels => (M.next c label).bind fun c' ↦ M.exec c' labels

/-- A condition that holds of every step a run makes. -/
def Along (M : Machine ι J σ E R C α) (P : Config ι σ E R α → Label ι J E C → Prop) :
    Config ι σ E R α → List (Label ι J E C) → Prop
  | _, [] => True
  | c, label :: labels => P c label ∧ ∀ c', M.next c label = some c' → M.Along P c' labels

instance decidableAlong (M : Machine ι J σ E R C α) (P : Config ι σ E R α → Label ι J E C → Prop)
    [∀ c label, Decidable (P c label)] : ∀ c labels, Decidable (M.Along P c labels)
  | _, [] => .isTrue trivial
  | c, label :: labels =>
    match h : M.next c label with
    | none => decidable_of_iff (P c label) ⟨fun hP ↦ ⟨hP, fun c' hc' ↦ by simp [h] at hc'⟩, And.left⟩
    | some c₁ =>
      have := decidableAlong M P c₁ labels
      decidable_of_iff (P c label ∧ M.Along P c₁ labels)
        ⟨fun hP ↦ ⟨hP.1, fun c' hc' ↦ Option.some.inj (h.symm.trans hc') ▸ hP.2⟩,
          fun hP ↦ ⟨hP.1, hP.2 c₁ h⟩⟩

variable {M : Machine ι J σ E R C α} {P Q : Config ι σ E R α → Label ι J E C → Prop}
  {c c' : Config ι σ E R α} {label : Label ι J E C} {labels : List (Label ι J E C)}

/-! ### Everything a step can do -/

theorem next_enter_eq_some {i : ι} {job : J} : M.next c (.enter i job) = some c' ↔
    c.running i = none ∧ ∃ world, M.enter i job c.world = some world ∧
      c' = ⟨world, Function.update c.running i (some (M.program i job))⟩ := by
  simp only [next]
  cases c.running i <;> cases M.enter i job c.world <;> simp [eq_comm]

theorem next_act_eq_some {i : ι} {choice : (effect : E) → C effect} :
    M.next c (.act i choice) = some c' ↔
      ∃ effect rest, c.running i = some (.perform effect rest) ∧
        c' = ⟨(M.perform i effect (choice effect) c.world).2, Function.update c.running i
          (some (rest (M.perform i effect (choice effect) c.world).1))⟩ := by
  simp only [next]
  rcases c.running i with _ | (value | ⟨effect, rest⟩)
  · simp
  · simp
  · constructor
    · intro h
      exact ⟨effect, rest, rfl, (Option.some.inj h).symm⟩
    · rintro ⟨_, _, heq, rfl⟩
      cases heq
      rfl

theorem next_leave_eq_some {i : ι} : M.next c (.leave i) = some c' ↔
    ∃ p, c.running i = some p ∧ c' = ⟨M.leave i c.world, Function.update c.running i none⟩ := by
  simp only [next]
  cases c.running i <;> simp [eq_comm]

theorem exec_cons_eq_some :
    M.exec c (label :: labels) = some c' ↔
      ∃ c₁, M.next c label = some c₁ ∧ M.exec c₁ labels = some c' := by
  simp only [exec, Option.bind_eq_some_iff]

theorem exec_append_eq_some {first second : List (Label ι J E C)} :
    M.exec c (first ++ second) = some c' ↔
      ∃ c₁, M.exec c first = some c₁ ∧ M.exec c₁ second = some c' := by
  induction first generalizing c with
  | nil => simp [exec]
  | cons label first ih =>
    simp only [List.cons_append, exec_cons_eq_some, ih]
    constructor
    · rintro ⟨c₁, hnext, c₂, hfirst, hsecond⟩
      exact ⟨c₂, ⟨c₁, hnext, hfirst⟩, hsecond⟩
    · rintro ⟨c₂, ⟨c₁, hnext, hfirst⟩, hsecond⟩
      exact ⟨c₁, hnext, c₂, hfirst, hsecond⟩

theorem Along.mono (himp : ∀ c label, P c label → Q c label) (h : M.Along P c labels) :
    M.Along Q c labels := by
  induction labels generalizing c with
  | nil => trivial
  | cons label labels ih => exact ⟨himp c label h.1, fun c' hnext ↦ ih (h.2 c' hnext)⟩

/-- A condition on labels alone joins a condition on the steps. -/
theorem Along.and {L : Label ι J E C → Prop} (h : M.Along P c labels)
    (hlabels : ∀ label ∈ labels, L label) :
    M.Along (fun c label ↦ P c label ∧ L label) c labels := by
  induction labels generalizing c with
  | nil => trivial
  | cons label labels ih =>
    obtain ⟨hlabel, hrest⟩ := List.forall_mem_cons.mp hlabels
    exact ⟨⟨h.1, hlabel⟩, fun c' hnext ↦ ih (h.2 c' hnext) hrest⟩

/-- Two conditions on the steps of a run. -/
theorem Along.and_along (h : M.Along P c labels) (h' : M.Along Q c labels) :
    M.Along (fun c label ↦ P c label ∧ Q c label) c labels := by
  induction labels generalizing c with
  | nil => trivial
  | cons label labels ih =>
    exact ⟨⟨h.1, h'.1⟩, fun c' hnext ↦ ih (h.2 c' hnext) (h'.2 c' hnext)⟩

/-- What every step keeps joins a condition on the steps. -/
theorem Along.and_invariant {Inv : Config ι σ E R α → Prop}
    (hstep : ∀ c label c', P c label → M.next c label = some c' → Inv c → Inv c')
    (h : M.Along P c labels) (hc : Inv c) : M.Along (fun c label ↦ P c label ∧ Inv c) c labels := by
  induction labels generalizing c with
  | nil => trivial
  | cons label labels ih =>
    exact ⟨⟨h.1, hc⟩, fun c' hnext ↦ ih (h.2 c' hnext) (hstep c label c' h.1 hnext hc)⟩

/-- A condition on labels alone. -/
theorem along_of_labels {L : Label ι J E C → Prop} (hlabels : ∀ label ∈ labels, L label) :
    M.Along (fun _ label ↦ L label) c labels := by
  induction labels generalizing c with
  | nil => trivial
  | cons label labels ih =>
    obtain ⟨hlabel, hrest⟩ := List.forall_mem_cons.mp hlabels
    exact ⟨hlabel, fun c' _ ↦ ih hrest⟩

theorem along_append {first second : List (Label ι J E C)} :
    M.Along P c (first ++ second) ↔
      M.Along P c first ∧ ∀ c₁, M.exec c first = some c₁ → M.Along P c₁ second := by
  induction first generalizing c with
  | nil => simp [Along, exec]
  | cons label first ih =>
    simp only [List.cons_append, Along, ih, exec_cons_eq_some]
    constructor
    · rintro ⟨hlabel, hrest⟩
      exact ⟨⟨hlabel, fun c' hnext ↦ (hrest c' hnext).1⟩,
        fun c₁ ⟨c', hnext, hfirst⟩ ↦ (hrest c' hnext).2 c₁ hfirst⟩
    · rintro ⟨⟨hlabel, hrest⟩, hsecond⟩
      exact ⟨hlabel, fun c' hnext ↦ ⟨hrest c' hnext, fun c₁ hfirst ↦ hsecond c₁ ⟨c', hnext, hfirst⟩⟩⟩

/-- What every step of a run keeps, the run keeps. Assumes: each step satisfies `P`. -/
theorem exec_induction {Inv : Config ι σ E R α → Prop}
    (hstep : ∀ c label c', P c label → M.next c label = some c' → Inv c → Inv c')
    (halong : M.Along P c labels) (hexec : M.exec c labels = some c') (hc : Inv c) : Inv c' := by
  induction labels generalizing c with
  | nil => exact Option.some.inj hexec ▸ hc
  | cons label labels ih =>
    obtain ⟨c₁, hnext, hrest⟩ := exec_cons_eq_some.mp hexec
    exact ih (halong.2 c₁ hnext) hrest (hstep c label c₁ halong.1 hnext hc)

end Machine

end Nodal.Foundation
