import Mathlib.Data.List.Induction
import Mathlib.Data.List.Nodup
import Nodal.Runtime.Stop

/-!
# What a stop leaves running

The machine under a stop (`Host`) moves on its own: a target ends at any moment, ignores what it is
sent, and passes to another account or back. `kill` answers from what is so at the moment it is
called, and the machine keeps every call with its answer (`Host.signals`).

A target leaves the ladder when it was seen gone and when a signal was refused it, and the report
does not tell the two apart. So what the report says of the targets it does not list as left is so
exactly when each target that refused a signal has ended by then (`clear_iff`).
-/

set_option autoImplicit false

namespace Nodal.Runtime.Cleared

/-! ### The machine under a stop -/

/-- What `kill` answers: it was delivered, there is no such target, or it is not this account's. -/
inductive Answer
  | took
  | absent
  | refused
  deriving DecidableEq, Repr

/-- One call of `kill`: a signal sent with its answer, or the question whether a target is there. -/
inductive Call
  | sent (target : Target) (signal : Signal) (answer : Answer)
  | seen (target : Target) (there : Bool)
  deriving DecidableEq, Repr

/-- The signal a call sends to a target. -/
def Call.sentTo (target : Target) : Call → Option Signal
  | .sent other signal _ => if other = target then some signal else none
  | .seen _ _ => none

/-- The call showed that the target had gone. -/
inductive Call.ShowsGone (target : Target) : Call → Prop
  | absent (signal : Signal) : Call.ShowsGone target (.sent target signal .absent)
  | away : Call.ShowsGone target (.seen target false)

theorem Call.showsGone_sent {target other : Target} {signal : Signal} {answer : Answer} :
    (Call.sent target signal answer).ShowsGone other ↔ target = other ∧ answer = .absent := by
  constructor
  · intro h
    cases h
    exact ⟨rfl, rfl⟩
  · rintro ⟨rfl, rfl⟩
    exact .absent signal

theorem Call.showsGone_seen {target other : Target} {there : Bool} :
    (Call.seen target there).ShowsGone other ↔ target = other ∧ there = false := by
  constructor
  · intro h
    cases h
    exact ⟨rfl, rfl⟩
  · rintro ⟨rfl, rfl⟩
    exact .away

/-- The signals sent to a target, in the order they were sent. -/
def signalsTo (target : Target) (calls : List Call) : List Signal :=
  calls.filterMap (Call.sentTo target)

/-- No signal goes to a target that an earlier call showed gone. -/
def AfterGone (earlier later : Call) : Prop :=
  ∀ target, earlier.ShowsGone target → later.sentTo target = none

/-- A machine with processes: which targets run, which are this account's to signal, and what each
call and whatever happens until the next one make of it. A target that has ended does not start, and
the clock does not go back. -/
structure Host where
  State : Type
  runs : Target → State → Bool
  ours : Target → State → Bool
  sent : Target → Signal → State → State
  seen : Target → State → State
  waited : ℕ → State → State
  now : State → ℕ
  sent_ended : ∀ other target signal s, runs target s = false →
    runs target (sent other signal s) = false
  seen_ended : ∀ other target s, runs target s = false → runs target (seen other s) = false
  waited_ended : ∀ period target s, runs target s = false → runs target (waited period s) = false
  seen_now : ∀ other s, now s ≤ now (seen other s)
  waited_now : ∀ period s, now s + period ≤ now (waited period s)

namespace Host

variable (host : Host)

/-- What `kill` answers for a target. -/
def answer (target : Target) (s : host.State) : Answer :=
  if host.runs target s then if host.ours target s then .took else .refused else .absent

/-- `Signals for Live`, on a machine that keeps the calls made of it. The question whether a target
is there is answered yes where the signal is refused. -/
def signals : Signals (host.State × List Call) where
  send target signal s := (host.answer target s.1 = .took,
    (host.sent target signal s.1, s.2 ++ [.sent target signal (host.answer target s.1)]))
  alive target s :=
    (host.runs target s.1, (host.seen target s.1, s.2 ++ [.seen target (host.runs target s.1)]))
  wait period s := (host.waited period s.1, s.2)
  now s := host.now s.1

end Host

/-! ### The wait ends -/

/-- The loop of `settle`, for as long as it takes. -/
inductive Settles {σ : Type} (signals : Signals σ) (sent : List Target) (deadline : ℕ) :
    σ → List Target × σ → Prop
  | done (s : σ) (h : (living signals sent s).1 = [] ∨
      deadline ≤ signals.now (living signals sent s).2) :
      Settles signals sent deadline s (living signals sent s)
  | again (s : σ) (result : List Target × σ) (h : ¬((living signals sent s).1 = [] ∨
      deadline ≤ signals.now (living signals sent s).2))
      (next : Settles signals sent deadline (signals.wait POLL (living signals sent s).2) result) :
      Settles signals sent deadline s result

variable {host : Host}

/-- The clock does not go back while the targets are asked for. -/
theorem now_living (targets : List Target) (s : host.State × List Call) :
    host.now s.1 ≤ host.now (living host.signals targets s).2.1 := by
  induction targets generalizing s with
  | nil => exact Nat.le_refl _
  | cons target rest ih =>
    have hseen : host.now s.1 ≤ host.now (host.signals.alive target s).2.1 :=
      host.seen_now target s.1
    exact Nat.le_trans hseen (ih (host.signals.alive target s).2)

/-- The polls `settle` is given are enough. Assumes: they reach the deadline. -/
theorem settles (sent : List Target) (deadline polls : ℕ) (s : host.State × List Call)
    (hpolls : deadline ≤ host.now s.1 + polls * POLL) :
    Settles host.signals sent deadline s (settle host.signals sent deadline polls s) := by
  induction polls generalizing s with
  | zero =>
    refine .done s (Or.inr ?_)
    have hnow := now_living sent s
    rw [Nat.zero_mul, Nat.add_zero] at hpolls
    exact Nat.le_trans hpolls hnow
  | succ polls ih =>
    unfold settle
    dsimp only
    split
    · exact .done s ‹_›
    · refine .again s _ ‹_› (ih _ ?_)
      have hliving := now_living sent s
      have hwait : host.now (living host.signals sent s).2.1 + POLL ≤
          host.now (host.signals.wait POLL (living host.signals sent s).2).1 :=
        host.waited_now POLL _
      rw [Nat.succ_mul] at hpolls
      omega

/-- Every wait of a stop ends. -/
theorem settles_period (sent : List Target) (period : ℕ) (s : host.State × List Call) :
    Settles host.signals sent (host.now s.1 + period) s
      (settle host.signals sent (host.now s.1 + period) (period / POLL + 1) s) := by
  refine settles sent _ _ s ?_
  have hdiv := Nat.div_add_mod period POLL
  have hmod : period % POLL < POLL := Nat.mod_lt period (by decide)
  rw [Nat.succ_mul, Nat.mul_comm (period / POLL)]
  omega

/-! ### What is added to the calls -/

/-- The calls from one state of the machine to a later one. -/
structure Adds (new : List Call) (s s' : host.State × List Call) : Prop where
  calls : s'.2 = s.2 ++ new
  ended : ∀ target, host.runs target s.1 = false → host.runs target s'.1 = false
  gone : ∀ call ∈ new, ∀ target, call.ShowsGone target → host.runs target s'.1 = false

namespace Adds

variable {s s' s'' : host.State × List Call} {new newer : List Call}

theorem refl (s : host.State × List Call) : Adds [] s s :=
  ⟨(List.append_nil _).symm, fun _ h ↦ h, by simp⟩

theorem trans (h : Adds new s s') (h' : Adds newer s' s'') : Adds (new ++ newer) s s'' where
  calls := by rw [h'.calls, h.calls, List.append_assoc]
  ended target hs := h'.ended target (h.ended target hs)
  gone call hcall target hgone := by
    rcases List.mem_append.mp hcall with hnew | hnewer
    · exact h'.ended target (h.gone call hnew target hgone)
    · exact h'.gone call hnewer target hgone

/-- A wait calls nothing. -/
theorem wait (period : ℕ) (s : host.State × List Call) : Adds [] s (host.signals.wait period s) :=
  ⟨(List.append_nil _).symm, fun target h ↦ host.waited_ended period target s.1 h, by simp⟩

/-- A target that is asked for. -/
theorem alive (target : Target) (s : host.State × List Call) :
    Adds [.seen target (host.runs target s.1)] s (host.signals.alive target s).2 where
  calls := rfl
  ended other h := host.seen_ended target other s.1 h
  gone call hcall other hgone := by
    obtain rfl := List.mem_singleton.mp hcall
    obtain ⟨rfl, hruns⟩ := Call.showsGone_seen.mp hgone
    exact host.seen_ended target target s.1 hruns

/-- A target that is sent a signal. -/
theorem send (target : Target) (signal : Signal) (s : host.State × List Call) :
    Adds [.sent target signal (host.answer target s.1)] s
      (host.signals.send target signal s).2 where
  calls := rfl
  ended other h := host.sent_ended target other signal s.1 h
  gone call hcall other hgone := by
    obtain rfl := List.mem_singleton.mp hcall
    obtain ⟨rfl, hanswer⟩ := Call.showsGone_sent.mp hgone
    have hruns : host.runs target s.1 = false := by
      unfold Host.answer at hanswer
      split at hanswer
      · split at hanswer <;> cases hanswer
      · exact eq_false_of_ne_true ‹_›
    exact host.sent_ended target target signal s.1 hruns

end Adds

/-! ### The targets that are asked for -/

/-- A wait for the targets that were sent a signal. The ones that are still standing were running
when they were last asked for; the others have ended. -/
structure Looked (sent standing : List Target) (new : List Call) (s s' : host.State × List Call) :
    Prop extends Adds new s s' where
  sublist : standing.Sublist sent
  seen : ∀ call ∈ new, ∃ target there, call = .seen target there
  out : ∀ target ∈ sent, target ∉ standing → host.runs target s'.1 = false
  running : ∀ target ∈ standing, host.runs target s.1 = true
  fresh : ∀ target ∈ standing, ∀ call ∈ new, ¬call.ShowsGone target

/-- Assumes: each target is there once. Asking for each of them once is a look at them. -/
theorem living_looked {sent : List Target} (hsent : sent.Nodup) (s : host.State × List Call) :
    ∃ new, Looked sent (living host.signals sent s).1 new s (living host.signals sent s).2 ∧
      ∀ call ∈ new, ∃ target ∈ sent, ∃ there, call = .seen target there := by
  induction sent generalizing s with
  | nil =>
    refine ⟨[], ⟨Adds.refl s, List.Sublist.refl _, ?_, ?_, ?_, ?_⟩, ?_⟩ <;> simp [living]
  | cons target rest ih =>
    obtain ⟨hnot, hrest⟩ := List.nodup_cons.mp hsent
    obtain ⟨new, hlooked, hnew⟩ := ih hrest (host.signals.alive target s).2
    have hfirst := Adds.alive target s
    have hadds := hfirst.trans hlooked.toAdds
    have hothers : ∀ other ∈ (living host.signals rest (host.signals.alive target s).2).1,
        other ≠ target ∧ host.runs other s.1 = true := by
      intro other hother
      refine ⟨fun h ↦ hnot (h ▸ hlooked.sublist.subset hother), ?_⟩
      by_contra hended
      have hstopped := hfirst.ended other (eq_false_of_ne_true hended)
      rw [hlooked.running other hother] at hstopped
      cases hstopped
    have hasked : ∀ call ∈ .seen target (host.runs target s.1) :: new,
        ∃ other ∈ target :: rest, ∃ there, call = .seen other there := by
      intro call hcall
      rcases List.mem_cons.mp hcall with rfl | hcall
      · exact ⟨target, List.mem_cons_self, _, rfl⟩
      · obtain ⟨other, hother, there, hseen⟩ := hnew call hcall
        exact ⟨other, List.mem_cons_of_mem _ hother, there, hseen⟩
    have hseen : ∀ call ∈ .seen target (host.runs target s.1) :: new,
        ∃ other there, call = .seen other there := by
      intro call hcall
      obtain ⟨other, _, there, h⟩ := hasked call hcall
      exact ⟨other, there, h⟩
    have hfresh : ∀ other ∈ (living host.signals rest (host.signals.alive target s).2).1,
        ∀ call ∈ .seen target (host.runs target s.1) :: new, ¬call.ShowsGone other := by
      intro other hother call hcall hgone
      rcases List.mem_cons.mp hcall with rfl | hcall
      · exact (hothers other hother).1 (Call.showsGone_seen.mp hgone).1.symm
      · exact hlooked.fresh other hother call hcall hgone
    refine ⟨.seen target (host.runs target s.1) :: new, ?_, hasked⟩
    cases hruns : host.runs target s.1 with
    | true =>
      have hliving : (living host.signals (target :: rest) s).1 =
          target :: (living host.signals rest (host.signals.alive target s).2).1 := by
        simp [living, Host.signals, hruns]
      rw [hliving]
      rw [hruns] at hadds hseen hfresh
      refine ⟨hadds, hlooked.sublist.cons_cons target, hseen, ?_, ?_, ?_⟩
      · intro other hother hout
        rcases List.mem_cons.mp hother with rfl | hother
        · exact absurd List.mem_cons_self hout
        · exact hlooked.out other hother fun h ↦ hout (List.mem_cons_of_mem _ h)
      · intro other hother
        rcases List.mem_cons.mp hother with rfl | hother
        · exact hruns
        · exact (hothers other hother).2
      · intro other hother call hcall hgone
        rcases List.mem_cons.mp hother with rfl | hother
        · rcases List.mem_cons.mp hcall with rfl | hcall
          · exact Bool.noConfusion (Call.showsGone_seen.mp hgone).2
          · obtain ⟨asked, hin, there, rfl⟩ := hnew call hcall
            obtain ⟨rfl, _⟩ := Call.showsGone_seen.mp hgone
            exact hnot hin
        · exact hfresh other hother call hcall hgone
    | false =>
      have hliving : (living host.signals (target :: rest) s).1 =
          (living host.signals rest (host.signals.alive target s).2).1 := by
        simp [living, Host.signals, hruns]
      rw [hliving]
      rw [hruns] at hadds hseen hfresh
      refine ⟨hadds, hlooked.sublist.cons target, hseen, ?_, fun other h ↦ (hothers other h).2,
        hfresh⟩
      intro other hother hout
      rcases List.mem_cons.mp hother with rfl | hother
      · exact hadds.ended other hruns
      · exact hlooked.out other hother hout

/-- One look after another: what stands at the last one stood at the first. -/
theorem Looked.after {sent standing standing' : List Target} {new newer : List Call}
    {s s₁ s₂ s' : host.State × List Call} (h : Looked sent standing new s s₁)
    (hwait : Adds [] s₁ s₂) (h' : Looked sent standing' newer s₂ s') :
    Looked sent standing' (new ++ newer) s s' := by
  have hadds : Adds new s s₂ := by simpa using h.toAdds.trans hwait
  have hrunning : ∀ target ∈ standing', ∀ start : host.State × List Call,
      (host.runs target start.1 = false → host.runs target s₂.1 = false) →
        host.runs target start.1 = true := by
    intro target htarget start hended
    by_contra hstopped
    have hgone := hended (eq_false_of_ne_true hstopped)
    rw [h'.running target htarget] at hgone
    cases hgone
  refine ⟨hadds.trans h'.toAdds, h'.sublist, ?_, h'.out, ?_, ?_⟩
  · intro call hcall
    rcases List.mem_append.mp hcall with hcall | hcall
    · exact h.seen call hcall
    · exact h'.seen call hcall
  · intro target htarget
    exact hrunning target htarget s (hadds.ended target)
  · intro target htarget call hcall hgone
    rcases List.mem_append.mp hcall with hcall | hcall
    · have hended := hadds.gone call hcall target hgone
      rw [h'.running target htarget] at hended
      cases hended
    · exact h'.fresh target htarget call hcall hgone

/-- Assumes: each target is there once. The wait of a rung is a look at what was sent its signal. -/
theorem settle_looked {sent : List Target} (hsent : sent.Nodup) (deadline polls : ℕ)
    (s : host.State × List Call) :
    ∃ new, Looked sent (settle host.signals sent deadline polls s).1 new s
      (settle host.signals sent deadline polls s).2 := by
  induction polls generalizing s with
  | zero =>
    obtain ⟨new, hlooked, _⟩ := living_looked hsent s
    exact ⟨new, hlooked⟩
  | succ polls ih =>
    obtain ⟨new, hlooked, _⟩ := living_looked hsent s
    unfold settle
    dsimp only
    split
    · exact ⟨new, hlooked⟩
    · obtain ⟨newer, hrest⟩ := ih (host.signals.wait POLL (living host.signals sent s).2)
      exact ⟨new ++ newer, hlooked.after (Adds.wait POLL _) hrest⟩

/-! ### The targets that are signalled -/

/-- The calls of one signal to each of the targets. -/
structure Round (signal : Signal) (standing : List Target) (new : List Call) : Prop where
  signals : ∀ target, signalsTo target new = if target ∈ standing then [signal] else []
  pairwise : new.Pairwise AfterGone
  sent : ∀ call ∈ new, ∃ target ∈ standing, ∃ answer, call = .sent target signal answer

/-- Assumes: the target is not among the ones signalled after it. -/
theorem Round.cons {signal : Signal} {target : Target} {rest : List Target} {new : List Call}
    (hnot : target ∉ rest) (h : Round signal rest new) (answer : Answer) :
    Round signal (target :: rest) (.sent target signal answer :: new) where
  signals other := by
    rw [signalsTo, List.filterMap_cons, ← signalsTo]
    by_cases hother : target = other
    · subst hother
      simp [Call.sentTo, h.signals, hnot]
    · simp [Call.sentTo, h.signals, hother, Ne.symm hother]
  pairwise := by
    refine List.pairwise_cons.mpr ⟨fun later hlater other hgone ↦ ?_, h.pairwise⟩
    obtain ⟨rfl, _⟩ := Call.showsGone_sent.mp hgone
    obtain ⟨asked, hasked, answer, rfl⟩ := h.sent later hlater
    have hne : asked ≠ target := fun heq ↦ hnot (heq ▸ hasked)
    exact if_neg hne
  sent call hcall := by
    rcases List.mem_cons.mp hcall with rfl | hcall
    · exact ⟨target, List.mem_cons_self, answer, rfl⟩
    · obtain ⟨other, hother, answer, heq⟩ := h.sent call hcall
      exact ⟨other, List.mem_cons_of_mem _ hother, answer, heq⟩

/-- One signal to each target that stands. A target is among the ones that took it, or it has gone,
or the signal was refused it. -/
structure Signalled (signal : Signal) (standing sent : List Target) (new : List Call)
    (s s' : host.State × List Call) : Prop extends Adds new s s' where
  sublist : sent.Sublist standing
  round : Round signal standing new
  out : ∀ target ∈ standing, target ∉ sent → host.runs target s'.1 = false ∨
    .sent target signal .refused ∈ new
  refused : ∀ target other, .sent target other .refused ∈ new → target ∉ sent
  fresh : ∀ target ∈ sent, ∀ call ∈ new, ¬call.ShowsGone target

/-- Assumes: each target is there once. -/
theorem sendAll_signalled (signal : Signal) {standing : List Target} (hstanding : standing.Nodup)
    (reached : List (Target × Signal)) (s : host.State × List Call) :
    ∃ new, Signalled signal standing (sendAll host.signals signal standing reached s).1 new s
      (sendAll host.signals signal standing reached s).2.2 := by
  induction standing generalizing reached s with
  | nil =>
    refine ⟨[], Adds.refl s, List.Sublist.refl _, ⟨?_, ?_, ?_⟩, ?_, ?_, ?_⟩ <;>
      simp [sendAll, signalsTo]
  | cons target rest ih =>
    obtain ⟨hnot, hrest⟩ := List.nodup_cons.mp hstanding
    have hfirst := Adds.send target signal s
    by_cases htook : host.answer target s.1 = .took
    · have hsend : sendAll host.signals signal (target :: rest) reached s =
          (target :: (sendAll host.signals signal rest
            (reached.filter (·.1 ≠ target) ++ [(target, signal)])
              (host.signals.send target signal s).2).1,
            (sendAll host.signals signal rest
              (reached.filter (·.1 ≠ target) ++ [(target, signal)])
                (host.signals.send target signal s).2).2) := by
        simp [sendAll, Host.signals, htook]
      obtain ⟨new, hsent⟩ := ih hrest
        (reached.filter (·.1 ≠ target) ++ [(target, signal)]) (host.signals.send target signal s).2
      rw [hsend]
      refine ⟨.sent target signal (host.answer target s.1) :: new, hfirst.trans hsent.toAdds,
        hsent.sublist.cons_cons target, hsent.round.cons hnot _, ?_, ?_, ?_⟩
      · intro other hother hout
        rcases List.mem_cons.mp hother with rfl | hother
        · exact absurd List.mem_cons_self hout
        · refine (hsent.out other hother fun h ↦ hout (List.mem_cons_of_mem _ h)).imp_right ?_
          exact List.mem_cons_of_mem _
      · intro other sent hrefused hin
        rcases List.mem_cons.mp hrefused with hhead | hlater
        · rw [htook] at hhead
          cases hhead
        · rcases List.mem_cons.mp hin with rfl | hin
          · obtain ⟨asked, hasked, answer, h⟩ := hsent.round.sent _ hlater
            cases h
            exact hnot hasked
          · exact hsent.refused other sent hlater hin
      · intro other hother call hcall hgone
        rcases List.mem_cons.mp hcall with rfl | hlater
        · obtain ⟨_, habsent⟩ := Call.showsGone_sent.mp hgone
          rw [htook] at habsent
          cases habsent
        · rcases List.mem_cons.mp hother with rfl | hother
          · obtain ⟨asked, hasked, answer, rfl⟩ := hsent.round.sent call hlater
            obtain ⟨rfl, _⟩ := Call.showsGone_sent.mp hgone
            exact hnot hasked
          · exact hsent.fresh other hother call hlater hgone
    · have hsend : sendAll host.signals signal (target :: rest) reached s =
          sendAll host.signals signal rest reached (host.signals.send target signal s).2 := by
        simp [sendAll, Host.signals, htook]
      obtain ⟨new, hsent⟩ := ih hrest reached (host.signals.send target signal s).2
      rw [hsend]
      refine ⟨.sent target signal (host.answer target s.1) :: new, hfirst.trans hsent.toAdds,
        hsent.sublist.cons target, hsent.round.cons hnot _, ?_, ?_, ?_⟩
      · intro other hother hout
        rcases List.mem_cons.mp hother with rfl | hother
        · cases hanswer : host.answer other s.1 with
          | took => exact absurd hanswer htook
          | absent =>
            have hgone := (hfirst.trans hsent.toAdds).gone _ List.mem_cons_self other
              (Call.showsGone_sent.mpr ⟨rfl, hanswer⟩)
            exact Or.inl hgone
          | refused => exact Or.inr List.mem_cons_self
        · exact (hsent.out other hother hout).imp_right (List.mem_cons_of_mem _)
      · intro other sent hrefused hin
        rcases List.mem_cons.mp hrefused with hhead | hrefused
        · obtain rfl : other = target := (Call.sent.inj hhead).1
          exact hnot (hsent.sublist.subset hin)
        · exact hsent.refused other sent hrefused hin
      · intro other hother call hcall hgone
        rcases List.mem_cons.mp hcall with rfl | hcall
        · obtain ⟨rfl, _⟩ := Call.showsGone_sent.mp hgone
          exact hnot (hsent.sublist.subset hother)
        · exact hsent.fresh other hother call hcall hgone

/-- Assumes: the targets that took a signal are there once. So are the ones after a rung, and they
are those and the ones it was sent to. -/
theorem sendAll_reached {σ : Type} (signals : Signals σ) (signal : Signal) (standing : List Target)
    {reached : List (Target × Signal)} (hreached : (reached.map Prod.fst).Nodup) (s : σ) :
    ((sendAll signals signal standing reached s).2.1.map Prod.fst).Nodup ∧
      ∀ target ∈ (sendAll signals signal standing reached s).2.1.map Prod.fst,
        target ∈ reached.map Prod.fst ∨ target ∈ standing := by
  induction standing generalizing reached s with
  | nil => exact ⟨hreached, fun _ h ↦ Or.inl h⟩
  | cons target rest ih =>
    unfold sendAll
    dsimp only
    split
    · have hkept : ((reached.filter (·.1 ≠ target)).map Prod.fst).Nodup :=
        hreached.sublist (List.filter_sublist.map Prod.fst)
      have hnodup :
          ((reached.filter (·.1 ≠ target) ++ [(target, signal)]).map Prod.fst).Nodup := by
        rw [List.map_append, List.nodup_append]
        refine ⟨hkept, by simp, ?_⟩
        rintro other hother _ hlast rfl
        obtain ⟨row, hrow, rfl⟩ := List.mem_map.mp hother
        have hne := (List.mem_filter.mp hrow).2
        simp_all
      obtain ⟨hnew, hfrom⟩ := ih hnodup (signals.send target signal s).2
      refine ⟨hnew, fun other hother ↦ ?_⟩
      rcases hfrom other hother with h | h
      · rw [List.map_append] at h
        rcases List.mem_append.mp h with h | h
        · exact Or.inl ((List.filter_sublist.map Prod.fst).subset h)
        · obtain rfl : other = target := by simpa using h
          exact Or.inr List.mem_cons_self
      · exact Or.inr (List.mem_cons_of_mem _ h)
    · obtain ⟨hnew, hfrom⟩ := ih hreached (signals.send target signal s).2
      exact ⟨hnew, fun other hother ↦ (hfrom other hother).imp_right (List.mem_cons_of_mem _)⟩

/-! ### The ladder -/

/-- Where a stop of `all` is after some rungs: each target that stands was sent exactly their
signals and was not seen gone, and each one that does not has ended or refused a signal. -/
structure Climbed (all : List Target) (rungs : List Signal) (standing : List Target)
    (reached : List (Target × Signal)) (s : host.State × List Call) : Prop where
  nodup : standing.Nodup
  subset : ∀ target ∈ standing, target ∈ all
  reached_nodup : (reached.map Prod.fst).Nodup
  reached_subset : ∀ target ∈ reached.map Prod.fst, target ∈ all
  standing_signals : ∀ target ∈ standing, signalsTo target s.2 = rungs
  signals : ∀ target, signalsTo target s.2 <+: rungs
  others : ∀ target, target ∉ all → signalsTo target s.2 = []
  pairwise : s.2.Pairwise AfterGone
  gone : ∀ call ∈ s.2, ∀ target, call.ShowsGone target → host.runs target s.1 = false
  fresh : ∀ target ∈ standing, ∀ call ∈ s.2, ¬call.ShowsGone target
  out : ∀ target ∈ all, target ∉ standing →
    host.runs target s.1 = false ∨ ∃ signal, .sent target signal .refused ∈ s.2
  refused : ∀ target signal, .sent target signal .refused ∈ s.2 → target ∉ standing

variable {all standing : List Target} {rungs : List Signal} {reached : List (Target × Signal)}
  {s : host.State × List Call}

theorem signalsTo_append (target : Target) (calls new : List Call) :
    signalsTo target (calls ++ new) = signalsTo target calls ++ signalsTo target new :=
  List.filterMap_append

theorem Looked.signalsTo_eq {sent standing : List Target} {new : List Call}
    {s s' : host.State × List Call} (h : Looked sent standing new s s') (target : Target) :
    signalsTo target new = [] := by
  refine List.filterMap_eq_nil_iff.mpr fun call hcall ↦ ?_
  obtain ⟨other, there, rfl⟩ := h.seen call hcall
  rfl

/-- Assumes: a stop after some rungs. One more rung adds its signal to them. -/
theorem Climbed.rung (h : Climbed all rungs standing reached s) (signal : Signal) (period : ℕ) :
    Climbed all (rungs ++ [signal]) (rung host.signals standing signal period reached s).1
      (rung host.signals standing signal period reached s).2.1
      (rung host.signals standing signal period reached s).2.2 := by
  obtain ⟨new, hsent⟩ := sendAll_signalled signal h.nodup reached s
  obtain ⟨hnodup, hfrom⟩ := sendAll_reached host.signals signal standing h.reached_nodup s
  have hrung : Runtime.rung host.signals standing signal period reached s =
      ((settle host.signals (sendAll host.signals signal standing reached s).1
        (host.now (sendAll host.signals signal standing reached s).2.2.1 + period)
        (period / POLL + 1) (sendAll host.signals signal standing reached s).2.2).1,
      (sendAll host.signals signal standing reached s).2.1,
      (settle host.signals (sendAll host.signals signal standing reached s).1
        (host.now (sendAll host.signals signal standing reached s).2.2.1 + period)
        (period / POLL + 1) (sendAll host.signals signal standing reached s).2.2).2) := rfl
  rw [hrung]
  generalize sendAll host.signals signal standing reached s = round at hsent hnodup hfrom ⊢
  obtain ⟨sent, reached', s₁⟩ := round
  dsimp only at hsent hnodup hfrom ⊢
  obtain ⟨newer, hlooked⟩ := settle_looked (hsent.sublist.nodup h.nodup)
    (host.now s₁.1 + period) (period / POLL + 1) s₁
  generalize settle host.signals sent (host.now s₁.1 + period) (period / POLL + 1) s₁ = end_
    at hlooked ⊢
  obtain ⟨left, s₂⟩ := end_
  dsimp only at hlooked ⊢
  have hadds := hsent.toAdds.trans hlooked.toAdds
  have hstood : ∀ target ∈ left, target ∈ standing := fun target htarget ↦
    hsent.sublist.subset (hlooked.sublist.subset htarget)
  have hsignals : ∀ target, signalsTo target s₂.2 =
      signalsTo target s.2 ++ if target ∈ standing then [signal] else [] := by
    intro target
    rw [hadds.calls, signalsTo_append, signalsTo_append, hsent.round.signals,
      hlooked.signalsTo_eq, List.append_nil]
  refine ⟨hlooked.sublist.nodup (hsent.sublist.nodup h.nodup),
    fun target htarget ↦ h.subset target (hstood target htarget), hnodup, ?_, ?_, ?_, ?_, ?_, ?_,
    ?_, ?_, ?_⟩
  · intro target htarget
    rcases hfrom target htarget with h' | h'
    · exact h.reached_subset target h'
    · exact h.subset target h'
  · intro target htarget
    rw [hsignals, if_pos (hstood target htarget),
      h.standing_signals target (hstood target htarget)]
  · intro target
    by_cases hstands : target ∈ standing
    · have hsame : signalsTo target s₂.2 = rungs ++ [signal] := by
        rw [hsignals, if_pos hstands, h.standing_signals target hstands]
      exact ⟨[], by rw [hsame, List.append_nil]⟩
    · rw [hsignals, if_neg hstands, List.append_nil]
      exact (h.signals target).trans (List.prefix_append rungs [signal])
  · intro target hout
    rw [hsignals, h.others target hout, if_neg fun hstands ↦ hout (h.subset target hstands)]
    rfl
  · -- a call after one that showed a target gone goes to a target that stood, or asks for one
    rw [hadds.calls]
    refine List.pairwise_append.mpr ⟨h.pairwise, List.pairwise_append.mpr
      ⟨hsent.round.pairwise, ?_, ?_⟩, ?_⟩
    · refine List.pairwise_of_forall_mem_list fun earlier _ later hlater target _ ↦ ?_
      obtain ⟨other, there, rfl⟩ := hlooked.seen later hlater
      rfl
    · intro earlier _ later hlater target _
      obtain ⟨other, there, rfl⟩ := hlooked.seen later hlater
      rfl
    · intro earlier hearlier later hlater target hgone
      rcases List.mem_append.mp hlater with hlater | hlater
      · obtain ⟨other, hother, answer, rfl⟩ := hsent.round.sent later hlater
        have hne : other ≠ target := fun heq ↦ h.fresh target (heq ▸ hother) earlier hearlier hgone
        exact if_neg hne
      · obtain ⟨other, there, rfl⟩ := hlooked.seen later hlater
        rfl
  · intro call hcall target hgone
    rw [hadds.calls] at hcall
    rcases List.mem_append.mp hcall with hcall | hcall
    · exact hadds.ended target (h.gone call hcall target hgone)
    · exact hadds.gone call hcall target hgone
  · intro target htarget call hcall
    rw [hadds.calls] at hcall
    rcases List.mem_append.mp hcall with hcall | hcall
    · exact h.fresh target (hstood target htarget) call hcall
    · rcases List.mem_append.mp hcall with hcall | hcall
      · exact hsent.fresh target (hlooked.sublist.subset htarget) call hcall
      · exact hlooked.fresh target htarget call hcall
  · intro target htarget hout
    rw [hadds.calls]
    by_cases hstands : target ∈ standing
    · by_cases hsent' : target ∈ sent
      · exact Or.inl (hlooked.out target hsent' hout)
      · refine (hsent.out target hstands hsent').imp (hlooked.ended target) fun hrefused ↦ ?_
        exact ⟨signal, List.mem_append_right _ (List.mem_append_left _ hrefused)⟩
    · refine (h.out target htarget hstands).imp (hadds.ended target) ?_
      rintro ⟨earlier, hrefused⟩
      exact ⟨earlier, List.mem_append_left _ hrefused⟩
  · intro target other hrefused hin
    rw [hadds.calls] at hrefused
    rcases List.mem_append.mp hrefused with hrefused | hrefused
    · exact h.refused target other hrefused (hstood target hin)
    · rcases List.mem_append.mp hrefused with hrefused | hrefused
      · exact hsent.refused target other hrefused (hlooked.sublist.subset hin)
      · obtain ⟨asked, there, hseen⟩ := hlooked.seen _ hrefused
        cases hseen

/-- Assumes: a stop after some rungs. The rest of the ladder leaves it after some of them more. -/
theorem Climbed.climb (h : Climbed all rungs standing reached s) (grace : ℕ)
    (rest : List Signal) :
    ∃ climbed, climbed <+: rungs ++ rest ∧
      Climbed all climbed (climb host.signals grace rest standing reached s).1
        (climb host.signals grace rest standing reached s).2.1
        (climb host.signals grace rest standing reached s).2.2 := by
  induction rest generalizing rungs standing reached s with
  | nil => exact ⟨rungs, List.prefix_append _ _, h⟩
  | cons signal rest ih =>
    unfold Runtime.climb
    split
    · exact ⟨rungs, List.prefix_append _ _, h⟩
    · have hrung := h.rung signal (if signal = .kill then POLL else grace)
      obtain ⟨climbed, hclimbed, hend⟩ := ih hrung
      rw [List.append_assoc] at hclimbed
      exact ⟨climbed, hclimbed, hend⟩

/-! ### The report -/

/-- `sorted` puts each target in one of its lists, once, by whether it is signalled. -/
structure Sorts (spared : Spared) (targets : List Target) (lists : List Target × List Target) :
    Prop where
  nodup : (lists.1 ++ lists.2).Nodup
  mem_iff : ∀ target, target ∈ targets ↔ target ∈ lists.1 ∨ target ∈ lists.2
  standing : ∀ target ∈ lists.1, isSpared spared target = false
  spared : ∀ target ∈ lists.2, isSpared spared target = true

theorem sorted_sorts (spared : Spared) (targets : List Target) :
    Sorts spared targets (sorted spared targets) := by
  induction targets using List.reverseRecOn with
  | nil => constructor <;> simp [sorted]
  | append_singleton targets target ih =>
    have hsorted : sorted spared (targets ++ [target]) =
        if target ∈ (sorted spared targets).1 ∨ target ∈ (sorted spared targets).2 then
          sorted spared targets
        else if isSpared spared target then
          ((sorted spared targets).1, (sorted spared targets).2 ++ [target])
        else ((sorted spared targets).1 ++ [target], (sorted spared targets).2) := by
      simp only [sorted, List.foldl_append, List.foldl_cons, List.foldl_nil]
      rfl
    rw [hsorted]
    generalize sorted spared targets = lists at ih ⊢
    obtain ⟨standing, left⟩ := lists
    obtain ⟨hnodup, hmem, hstanding, hspared⟩ := ih
    dsimp only at hnodup hmem hstanding hspared ⊢
    split_ifs with hin hown
    · refine ⟨hnodup, fun other ↦ ?_, hstanding, hspared⟩
      rw [List.mem_append, List.mem_singleton, hmem]
      constructor
      · rintro (hother | rfl)
        · exact hother
        · exact hin
      · exact Or.inl
    · refine ⟨?_, fun other ↦ ?_, hstanding, fun other hother ↦ ?_⟩
      · rw [← List.append_assoc]
        exact List.nodup_append.mpr ⟨hnodup, List.nodup_singleton _, fun other hother _ hlast h ↦
          hin (List.mem_append.mp (by rwa [← List.mem_singleton.mp hlast, ← h]))⟩
      · simp [hmem, or_assoc]
      · rcases List.mem_append.mp hother with hother | hother
        · exact hspared other hother
        · exact List.mem_singleton.mp hother ▸ hown
    · refine ⟨?_, fun other ↦ ?_, fun other hother ↦ ?_, hspared⟩
      · have hperm : (standing ++ [target] ++ left).Perm (standing ++ left ++ [target]) := by
          rw [List.append_assoc, List.append_assoc]
          exact (List.perm_append_comm).append_left standing
        refine hperm.nodup_iff.mpr (List.nodup_append.mpr ⟨hnodup, List.nodup_singleton _,
          fun other hother _ hlast h ↦
            hin (List.mem_append.mp (by rwa [← List.mem_singleton.mp hlast, ← h]))⟩)
      · simp only [List.mem_append, List.mem_singleton, hmem]
        tauto
      · rcases List.mem_append.mp hother with hother | hother
        · exact hstanding other hother
        · exact List.mem_singleton.mp hother ▸ eq_false_of_ne_true hown

/-- Assumes: a stop after some rungs, of targets that are not spared. Each target is in at most one
list of the report. -/
theorem account_nodup {spared : List Target} (h : Climbed all rungs standing reached s)
    (hspared : (all ++ spared).Nodup) :
    ((account spared reached standing).asked ++ (account spared reached standing).killed ++
      (account spared reached standing).left ++ (account spared reached standing).spared).Nodup := by
  obtain ⟨_, hown, hapart⟩ := List.nodup_append.mp hspared
  have hreached : ∀ row ∈ reached, row.1 ∈ reached.map Prod.fst := fun row hrow ↦
    List.mem_map_of_mem hrow
  have hperm : ((reached.filter (·.1 ∉ standing)).filter (·.2 ≠ .kill) ++
      (reached.filter (·.1 ∉ standing)).filter (·.2 = .kill)).Perm
        (reached.filter (·.1 ∉ standing)) := by
    simpa using (List.filter_append_perm (fun row : Target × Signal ↦ decide (row.2 ≠ .kill))
      (reached.filter (·.1 ∉ standing)))
  have hgone : (((reached.filter (·.1 ∉ standing)).filter (·.2 ≠ .kill)).map Prod.fst ++
      ((reached.filter (·.1 ∉ standing)).filter (·.2 = .kill)).map Prod.fst).Nodup := by
    rw [← List.map_append]
    exact (hperm.map Prod.fst).nodup_iff.mpr
      (h.reached_nodup.sublist (List.filter_sublist.map Prod.fst))
  have hfrom : ∀ target ∈ ((reached.filter (·.1 ∉ standing)).filter (·.2 ≠ .kill)).map Prod.fst ++
      ((reached.filter (·.1 ∉ standing)).filter (·.2 = .kill)).map Prod.fst,
        target ∈ all ∧ target ∉ standing := by
    intro target htarget
    rw [← List.map_append] at htarget
    obtain ⟨row, hrow, rfl⟩ := List.mem_map.mp ((hperm.map Prod.fst).subset htarget)
    obtain ⟨hrow, hout⟩ := List.mem_filter.mp hrow
    exact ⟨h.reached_subset _ (hreached row hrow), by simpa using hout⟩
  refine List.nodup_append.mpr ⟨List.nodup_append.mpr ⟨hgone, h.nodup, ?_⟩, hown, ?_⟩
  · rintro target htarget _ hstands rfl
    exact (hfrom target htarget).2 hstands
  · intro target htarget other hother
    refine hapart target ?_ other hother
    rcases List.mem_append.mp htarget with htarget | htarget
    · exact (hfrom target htarget).1
    · exact h.subset target htarget

/-- A stop is clear of what it does not list as left or spared: no target gets more than the ladder,
in its order, or anything after it was seen gone, or anything at all where it is spared; each target
is in at most one list; and the ones in neither of those two lists have ended. -/
structure Clear (host : Host) (spared : Spared) (targets : List Target)
    (result : Stopped × host.State × List Call) : Prop where
  ladder : ∀ target, signalsTo target result.2.2 <+: LADDER
  after_gone : result.2.2.Pairwise AfterGone
  unsignalled : ∀ target, isSpared spared target = true → signalsTo target result.2.2 = []
  once : (result.1.asked ++ result.1.killed ++ result.1.left ++ result.1.spared).Nodup
  ended : ∀ target ∈ targets, target ∉ result.1.left → target ∉ result.1.spared →
    host.runs target result.2.1 = false

/-- A stop is clear exactly when each target that refused it a signal has ended when it answers; and
every wait of it ends. -/
theorem clear_iff (host : Host) (spared : Spared) (targets : List Target) (grace : ℕ)
    (s : host.State) :
    (Clear host spared targets (processes host.signals spared targets grace (s, [])) ↔
      ∀ target signal, .sent target signal .refused ∈
          (processes host.signals spared targets grace (s, [])).2.2 →
        host.runs target (processes host.signals spared targets grace (s, [])).2.1 = false) ∧
    ∀ (sent : List Target) (period : ℕ) (s : host.State × List Call),
      Settles host.signals sent (host.now s.1 + period) s
        (settle host.signals sent (host.now s.1 + period) (period / POLL + 1) s) := by
  refine ⟨?_, fun sent period s ↦ settles_period sent period s⟩
  have hsorts := sorted_sorts spared targets
  have hstart : @Climbed host (sorted spared targets).1 [] (sorted spared targets).1 []
      (s, []) := by
    refine ⟨(List.nodup_append.mp hsorts.nodup).1, fun _ h ↦ h, ?_, ?_, ?_, ?_, ?_, ?_, ?_, ?_, ?_,
      ?_⟩ <;> simp_all [signalsTo]
  obtain ⟨climbed, hclimbed, hend⟩ := hstart.climb grace LADDER
  rw [List.nil_append] at hclimbed
  have hprocesses : processes host.signals spared targets grace (s, []) =
      (account (sorted spared targets).2
        (climb host.signals grace LADDER (sorted spared targets).1 [] (s, [])).2.1
        (climb host.signals grace LADDER (sorted spared targets).1 [] (s, [])).1,
      (climb host.signals grace LADDER (sorted spared targets).1 [] (s, [])).2.2) := rfl
  rw [hprocesses]
  generalize climb host.signals grace LADDER (sorted spared targets).1 [] (s, []) = last
    at hend ⊢
  obtain ⟨standing, reached, s', calls⟩ := last
  dsimp only at hend ⊢
  have hapart := (List.nodup_append.mp hsorts.nodup).2.2
  have hunsignalled : ∀ target, isSpared spared target = true → signalsTo target calls = [] := by
    intro target hspared
    refine hend.others target fun hin ↦ ?_
    rw [hsorts.standing target hin] at hspared
    cases hspared
  constructor
  · intro hclear target signal hrefused
    have hin : target ∈ (sorted spared targets).1 := by
      by_contra hout
      have hnone := List.filterMap_eq_nil_iff.mp (hend.others target hout) _ hrefused
      simp [Call.sentTo] at hnone
    refine hclear.ended target ((hsorts.mem_iff target).mpr (Or.inl hin))
      (hend.refused target signal hrefused) fun hspared ↦ ?_
    exact hapart target hin target hspared rfl
  · intro hended
    refine ⟨fun target ↦ (hend.signals target).trans hclimbed, hend.pairwise, hunsignalled,
      account_nodup hend hsorts.nodup, fun target htarget hleft hspared ↦ ?_⟩
    have hin : target ∈ (sorted spared targets).1 :=
      ((hsorts.mem_iff target).mp htarget).resolve_right hspared
    rcases hend.out target hin hleft with hgone | ⟨signal, hrefused⟩
    · exact hgone
    · exact hended target signal hrefused

/-- A machine that stands still but for its clock, with targets that are all another account's. -/
def foreign : Host where
  State := ℕ
  runs _ _ := true
  ours _ _ := false
  sent _ _ clock := clock
  seen _ clock := clock
  waited period clock := clock + period
  now clock := clock
  sent_ended _ _ _ _ h := h
  seen_ended _ _ _ h := h
  waited_ended _ _ _ h := h
  seen_now _ clock := Nat.le_refl clock
  waited_now period clock := Nat.le_refl (clock + period)

/-- A stop of one target of another account sends one signal that is refused, reports nothing asked,
killed, left or spared, and the target is still running. -/
theorem foreign_not_clear :
    (processes foreign.signals ⟨[], []⟩ [.process 7] GRACE ((0 : ℕ), [])).1 = ⟨[], [], [], []⟩ ∧
      (processes foreign.signals ⟨[], []⟩ [.process 7] GRACE ((0 : ℕ), [])).1.isClear = true ∧
      ¬Clear foreign ⟨[], []⟩ [.process 7]
        (processes foreign.signals ⟨[], []⟩ [.process 7] GRACE ((0 : ℕ), [])) := by
  refine ⟨rfl, rfl, fun hclear ↦ ?_⟩
  have hended := hclear.ended (.process 7) List.mem_cons_self List.not_mem_nil List.not_mem_nil
  cases hended

end Nodal.Runtime.Cleared
