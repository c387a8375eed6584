import Mathlib.Data.List.Induction
import Nodal.Foundation.Contract

/-!
# Histories of one process at a time

A history is a history of sessions when no two processes are alive together (`Alone`): a process
enters, performs some of its effects, and leaves, at its end or anywhere before it. What holds
between two sessions can then be carried from one to the next, and inside a session nothing happens
between two effects of the process.

A `SessionContract` is a contract of this kind that may speak of the world the process found when it
entered. `session_exec` carries it along a whole history, and `session_reaches` looks into the last
session of one.
-/

set_option autoImplicit false

namespace Nodal.Foundation

variable {ι J σ E α : Type} {R C : E → Type}

/-- Nobody but the one who makes the step is alive. -/
def Alone (c : Config ι σ E R α) (label : Label ι J E C) : Prop :=
  ∀ i, i ≠ label.actor → c.running i = none

/-- Nobody is alive. -/
def Idle (c : Config ι σ E R α) : Prop := ∀ i, c.running i = none

/-- A contract of a process that is alone. The first world of `inv` and of `pre` is the one the
process found when it entered. -/
structure SessionContract (ι σ E : Type) (C : E → Type) where
  inv : σ → σ → Prop
  pre : σ → ι → E → σ → Prop
  assume : (effect : E) → C effect → Prop

/-- The contract of a process that entered the world `start`. -/
def SessionContract.since (S : SessionContract ι σ E C) (start : σ) : Contract ι σ E C where
  inv := S.inv start
  rely _ s t := s = t
  rely_refl _ _ := rfl
  rely_trans _ _ _ _ hst htu := Eq.trans hst htu
  assume _ effect choice _ := S.assume effect choice
  pre := S.pre start

section Rules

variable {M : Machine ι J σ E R C α} {S : SessionContract ι σ E C} {β : Type} {i : ι}
  {Q : β → σ → Prop} {s start : σ}

theorem safe_done_since {value : β} (h : S.inv start s → Q value s) :
    Safe M (S.since start) i Q (.done value) s := by
  rintro t rfl hinv
  exact h hinv

theorem safe_perform_since {effect : E} {next : R effect → Program E R β}
    (h : S.inv start s → S.pre start i effect s ∧ ∀ choice, S.assume effect choice →
      Safe M (S.since start) i Q (next (M.perform i effect choice s).1)
        (M.perform i effect choice s).2) :
    Safe M (S.since start) i Q (.perform effect next) s := by
  rintro t rfl hinv
  exact h hinv

end Rules

variable [DecidableEq ι] (M : Machine ι J σ E R C α) (S : SessionContract ι σ E C)
  (I : σ → Prop) (Q : σ → ι → α → σ → Prop)
  (P : Config ι σ E R α → Label ι J E C → Prop)

/-- The session contract fits the machine on the steps that satisfy `P`, with `I` between two
sessions. -/
structure SessionSound : Prop where
  alone : ∀ {c label}, P c label → Alone c label
  assume : ∀ {c i choice}, P c (.act i choice) → ∀ effect, S.assume effect (choice effect)
  act : ∀ {start s i effect choice}, S.inv start s → S.pre start i effect s →
    S.assume effect choice → S.inv start (M.perform i effect choice s).2
  enter : ∀ {c i job world}, P c (.enter i job) → I c.world → M.enter i job c.world = some world →
    S.inv world world ∧ Safe M (S.since world) i (Q world i) (M.program i job) world
  leave : ∀ {start s i}, S.inv start s → I (M.leave i s)

/-- Process `i` is alive alone, entered the world `start`, and is safe. -/
def Inside (start : σ) (i : ι) (c : Config ι σ E R α) : Prop :=
  (∀ j, j ≠ i → c.running j = none) ∧ S.inv start c.world ∧
    ∃ p, c.running i = some p ∧ Safe M (S.since start) i (Q start i) p c.world

variable {M S I Q P} {c c₁ c' : Config ι σ E R α} {start : σ} {i : ι} {job : J}
  {label : Label ι J E C} {labels before after : List (Label ι J E C)}

private theorem running_update_of_ne {running : ι → Option (Program E R α)}
    {q : Option (Program E R α)} (h : ∀ j, j ≠ i → running j = none) :
    ∀ j, j ≠ i → Function.update running i q j = none := by
  intro j hj
  rw [Function.update_of_ne hj]
  exact h j hj

/-- One effect of the process that is inside keeps it inside. -/
theorem SessionSound.inside_act (hsound : SessionSound M S I Q P)
    {choice : (effect : E) → C effect} (hP : P c (.act i choice))
    (hnext : M.next c (.act i choice) = some c') (hc : Inside M S Q start i c) :
    Inside M S Q start i c' := by
  obtain ⟨halone, hinv, p, hp, hsafe⟩ := hc
  obtain ⟨effect, rest, hrunning, rfl⟩ := Machine.next_act_eq_some.mp hnext
  obtain rfl : p = .perform effect rest := Option.some.inj (hp.symm.trans hrunning)
  obtain ⟨hpre, hafter⟩ := hsafe c.world rfl hinv
  have hchoice := hsound.assume hP effect
  exact ⟨running_update_of_ne halone, hsound.act hinv hpre hchoice, _,
    Function.update_self .., hafter _ hchoice⟩

/-- Entering puts a process inside. -/
theorem SessionSound.inside_enter (hsound : SessionSound M S I Q P)
    (hP : P c (.enter i job)) (hnext : M.next c (.enter i job) = some c') (hI : I c.world) :
    ∃ world, M.enter i job c.world = some world ∧ Inside M S Q world i c' := by
  obtain ⟨_, world, hworld, rfl⟩ := Machine.next_enter_eq_some.mp hnext
  obtain ⟨hinv, hsafe⟩ := hsound.enter hP hI hworld
  exact ⟨world, hworld, running_update_of_ne (hsound.alone hP), hinv, _,
    Function.update_self .., hsafe⟩

/-- Leaving ends the session. -/
theorem SessionSound.idle_leave (hsound : SessionSound M S I Q P)
    (hnext : M.next c (.leave i) = some c') (hc : Inside M S Q start i c) :
    Idle c' ∧ I c'.world := by
  obtain ⟨p, _, rfl⟩ := Machine.next_leave_eq_some.mp hnext
  refine ⟨fun j ↦ ?_, hsound.leave hc.2.1⟩
  by_cases hji : j = i
  · subst hji
    exact Function.update_self ..
  · exact running_update_of_ne hc.1 j hji

/-- Between two sessions `I` holds, and inside one the process that is alive is safe. -/
def Orderly (M : Machine ι J σ E R C α) (S : SessionContract ι σ E C) (I : σ → Prop)
    (Q : σ → ι → α → σ → Prop) (c : Config ι σ E R α) : Prop :=
  (Idle c ∧ I c.world) ∨ ∃ start i, Inside M S Q start i c

/-- Only the process that is inside makes a step. -/
private theorem Inside.actor_eq (hc : Inside M S Q start i c) (halone : Alone c label) :
    label.actor = i := by
  obtain ⟨p, hp, _⟩ := hc.2.2
  by_contra hne
  have hnone := halone i fun heq ↦ hne heq.symm
  rw [hp] at hnone
  cases hnone

/-- Nobody enters under the name of the process that is inside. -/
private theorem Inside.not_enter (hc : Inside M S Q start i c) :
    M.next c (.enter i job) ≠ some c' := by
  intro hnext
  obtain ⟨p, hp, _⟩ := hc.2.2
  rw [(Machine.next_enter_eq_some.mp hnext).1] at hp
  cases hp

/-- One step of a history of sessions. -/
theorem SessionSound.orderly_next (hsound : SessionSound M S I Q P) (hP : P c label)
    (hnext : M.next c label = some c') (hc : Orderly M S I Q c) : Orderly M S I Q c' := by
  have halone := hsound.alone hP
  rcases hc with ⟨hidle, hI⟩ | ⟨start, i, hinside⟩
  · cases label with
    | enter i job =>
      obtain ⟨world, _, hinside⟩ := hsound.inside_enter hP hnext hI
      exact .inr ⟨world, i, hinside⟩
    | act i choice =>
      obtain ⟨_, _, hrunning, _⟩ := Machine.next_act_eq_some.mp hnext
      rw [hidle] at hrunning
      cases hrunning
    | leave i =>
      obtain ⟨_, hrunning, _⟩ := Machine.next_leave_eq_some.mp hnext
      rw [hidle] at hrunning
      cases hrunning
  · have hactor := hinside.actor_eq halone
    cases label with
    | enter j job =>
      obtain rfl : j = i := hactor
      exact absurd hnext hinside.not_enter
    | act j choice =>
      obtain rfl : j = i := hactor
      exact .inr ⟨start, j, hsound.inside_act hP hnext hinside⟩
    | leave j =>
      obtain rfl : j = i := hactor
      exact .inl (hsound.idle_leave hnext hinside)

/-- A history of sessions is orderly. Assumes: it began so, and its steps satisfy `P`. -/
theorem SessionSound.orderly_exec (hsound : SessionSound M S I Q P)
    (halong : M.Along P c labels) (hexec : M.exec c labels = some c') (hc : Orderly M S I Q c) :
    Orderly M S I Q c' :=
  Machine.exec_induction (fun _ _ _ hP hnext ↦ hsound.orderly_next hP hnext) halong hexec hc

/-- The last session of a history: what it found, and what holds in it. Assumes: the history began
orderly, its steps satisfy `P`, and after `i` entered it alone has acted. -/
theorem SessionSound.reaches (hsound : SessionSound M S I Q P) (hc : Orderly M S I Q c)
    (halong : M.Along P c (before ++ .enter i job :: after))
    (hacts : ∀ label ∈ after, ∃ choice, label = .act i choice)
    (hbefore : M.exec c before = some c₁)
    (hexec : M.exec c (before ++ .enter i job :: after) = some c') :
    I c₁.world ∧ ∃ world, M.enter i job c₁.world = some world ∧ Inside M S Q world i c' := by
  obtain ⟨hfirst, hrest⟩ := Machine.along_append.mp halong
  obtain ⟨hP, hafter⟩ := hrest c₁ hbefore
  obtain ⟨c₂, hc₂, hlast⟩ := Machine.exec_append_eq_some.mp hexec
  obtain rfl : c₂ = c₁ := Option.some.inj (hc₂.symm.trans hbefore)
  obtain ⟨c₃, hnext, hacted⟩ := Machine.exec_cons_eq_some.mp hlast
  have hidle : I c₂.world := by
    rcases hsound.orderly_exec hfirst hbefore hc with ⟨_, hI⟩ | ⟨start, j, hinside⟩
    · exact hI
    · obtain rfl : i = j := hinside.actor_eq (hsound.alone hP)
      exact absurd hnext hinside.not_enter
  obtain ⟨world, hworld, hinside⟩ := hsound.inside_enter hP hnext hidle
  refine ⟨hidle, world, hworld, ?_⟩
  refine Machine.exec_induction (fun c label c' hlabel hstep hin ↦ ?_)
    ((hafter c₃ hnext).and hacts) hacted hinside
  obtain ⟨hPlabel, choice, rfl⟩ := hlabel
  exact hsound.inside_act hPlabel hstep hin

/-! ### The session a process is in -/

theorem exec_concat_eq_some : M.exec c (labels ++ [label]) = some c' ↔
    ∃ c₁, M.exec c labels = some c₁ ∧ M.next c₁ label = some c' := by
  simp [Machine.exec_append_eq_some, Machine.exec]

/-- A step changes what its own process has left to do, and nothing of the others. -/
theorem running_of_ne_actor (hnext : M.next c label = some c') (hi : i ≠ label.actor) :
    c'.running i = c.running i := by
  cases label with
  | enter j job =>
    obtain ⟨_, _, _, rfl⟩ := Machine.next_enter_eq_some.mp hnext
    exact Function.update_of_ne hi _ _
  | act j choice =>
    obtain ⟨_, _, _, rfl⟩ := Machine.next_act_eq_some.mp hnext
    exact Function.update_of_ne hi _ _
  | leave j =>
    obtain ⟨_, _, rfl⟩ := Machine.next_leave_eq_some.mp hnext
    exact Function.update_of_ne hi _ _

/-- In a history of one process at a time, a process that is alive entered and has only acted
since. -/
theorem session_of_running (halong : M.Along Alone c labels) (hidle : Idle c)
    (hexec : M.exec c labels = some c') (hrunning : c'.running i ≠ none) :
    ∃ before job after, labels = before ++ .enter i job :: after ∧
      ∀ label ∈ after, ∃ choice, label = .act i choice := by
  induction labels using List.reverseRecOn generalizing c' with
  | nil => exact absurd (Option.some.inj hexec ▸ hidle i) hrunning
  | append_singleton labels label ih =>
    obtain ⟨hfirst, hlast⟩ := Machine.along_append.mp halong
    obtain ⟨c₁, hc₁, hnext⟩ := exec_concat_eq_some.mp hexec
    have hactor : i = label.actor := by
      by_contra hne
      rw [running_of_ne_actor hnext hne] at hrunning
      exact hrunning ((hlast c₁ hc₁).1 i hne)
    cases label with
    | enter j job =>
      obtain rfl : i = j := hactor
      exact ⟨labels, job, [], rfl, by simp⟩
    | act j choice =>
      obtain rfl : i = j := hactor
      obtain ⟨_, _, hbefore, _⟩ := Machine.next_act_eq_some.mp hnext
      obtain ⟨before, job, after, rfl, hacts⟩ := ih hfirst hc₁ (by simp [hbefore])
      refine ⟨before, job, after ++ [.act i choice], by simp, fun label hlabel ↦ ?_⟩
      rcases List.mem_append.mp hlabel with hlabel | hlabel
      · exact hacts label hlabel
      · exact ⟨choice, List.mem_singleton.mp hlabel⟩
    | leave j =>
      obtain rfl : i = j := hactor
      obtain ⟨_, _, rfl⟩ := Machine.next_leave_eq_some.mp hnext
      simp at hrunning

/-! ### Histories written as sessions -/

/-- One session: who, what for, and what the outside chose until the process left. -/
structure Session (ι J E : Type) (C : E → Type) where
  process : ι
  job : J
  choices : List ((effect : E) → C effect)

/-- The steps of a session before the process leaves. -/
def Session.steps (session : Session ι J E C) : List (Label ι J E C) :=
  .enter session.process session.job :: session.choices.map (.act session.process)

/-- Nobody but `i` is alive. -/
def Only (i : ι) (c : Config ι σ E R α) : Prop := ∀ j, j ≠ i → c.running j = none

theorem only_next (hactor : label.actor = i) (hnext : M.next c label = some c')
    (hc : Only i c) : Only i c' := by
  subst hactor
  intro j hj
  rw [running_of_ne_actor hnext hj]
  exact hc j hj

/-- A process that starts alone and is the only one to act stays alone. -/
theorem alone_of_actor (hactor : ∀ label ∈ labels, label.actor = i) (hc : Only i c) :
    M.Along Alone c labels := by
  induction labels generalizing c with
  | nil => trivial
  | cons label labels ih =>
    obtain ⟨hlabel, hrest⟩ := List.forall_mem_cons.mp hactor
    refine ⟨fun j hj ↦ hc j (hlabel ▸ hj), fun c' hnext ↦ ?_⟩
    exact ih hrest (only_next hlabel hnext hc)

theorem only_exec (hactor : ∀ label ∈ labels, label.actor = i)
    (hexec : M.exec c labels = some c') (hc : Only i c) : Only i c' :=
  Machine.exec_induction (fun _ _ _ hlabel hnext ↦ only_next hlabel hnext)
    (Machine.along_of_labels hactor) hexec hc

/-- All the steps of a session. -/
def Session.complete (session : Session ι J E C) : List (Label ι J E C) :=
  session.steps ++ [.leave session.process]

omit [DecidableEq ι] in
theorem Session.actor_of_mem {session : Session ι J E C} {label : Label ι J E C}
    (h : label ∈ session.steps) : label.actor = session.process := by
  rcases List.mem_cons.mp h with rfl | h
  · rfl
  · obtain ⟨choice, _, rfl⟩ := List.mem_map.mp h
    rfl

omit [DecidableEq ι] in
theorem only_of_idle (hc : Idle c) : Only i c := fun j _ ↦ hc j

/-- After a session nobody is alive. -/
theorem idle_exec_session {session : Session ι J E C} (hc : Idle c)
    (hexec : M.exec c session.complete = some c') : Idle c' := by
  obtain ⟨c₁, hsteps, hleave⟩ := Machine.exec_append_eq_some.mp hexec
  obtain ⟨c₂, hnext, hend⟩ := Machine.exec_cons_eq_some.mp hleave
  obtain rfl : c₂ = c' := Option.some.inj hend
  have honly : Only session.process c₁ :=
    only_exec (fun _ ↦ session.actor_of_mem) hsteps (only_of_idle hc)
  obtain ⟨p, _, rfl⟩ := Machine.next_leave_eq_some.mp hnext
  intro j
  by_cases hj : j = session.process
  · subst hj
    exact Function.update_self ..
  · exact running_update_of_ne honly j hj

/-- Sessions one after the other are a history of one process at a time. -/
theorem alone_sessions {sessions : List (Session ι J E C)} {last : Session ι J E C}
    (hc : Idle c) :
    M.Along Alone c (sessions.flatMap Session.complete ++ last.steps) := by
  induction sessions generalizing c with
  | nil => exact alone_of_actor (fun _ ↦ last.actor_of_mem) (only_of_idle hc)
  | cons session sessions ih =>
    rw [List.flatMap_cons, List.append_assoc]
    refine Machine.along_append.mpr ⟨?_, fun c₁ hexec ↦ ih (idle_exec_session hc hexec)⟩
    refine alone_of_actor (i := session.process) (fun label hlabel ↦ ?_) (only_of_idle hc)
    rcases List.mem_append.mp hlabel with hlabel | hlabel
    · exact session.actor_of_mem hlabel
    · rw [List.mem_singleton.mp hlabel]
      rfl

end Nodal.Foundation
