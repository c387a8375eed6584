import Nodal.Hook.Approvals
import Nodal.Runtime.Stop

/-!
# The process group a hook leaves

`lifecycle/hooks.rs`: the shell of a hook is started in a process group of its own, and what that
group holds once the shell has been waited for decides what becomes of it. A group that is empty needs
nothing; one that still runs is written down as the unit's; and one that cannot be written down, or
that a failed hook left, is stopped.

A shell whose output could not be read is none of the three: the call answers before it has asked what
the group holds. So a group is accounted for where the output was read, or the group is empty by then,
and where no process out of this account's reach outlives the ladder (`accounted_iff`).
-/

set_option autoImplicit false

namespace Nodal.Hook

open Nodal.Runtime

/-! ### A group and what happens to it -/

/-- A process of the group, and whether this account may signal it. -/
structure Proc where
  pid : ℕ
  mine : Bool
  deriving DecidableEq, Repr

/-- The row that writes a group down as a unit's. -/
structure Session where
  environment : String
  actor : String
  pid : Option ℕ
  pgid : Option ℕ
  deriving DecidableEq, Repr

/-- What the machine does between two questions: which processes end, which are started by those of
the group, and how long it takes. -/
structure Move where
  ends : Proc → Bool
  forked : List Proc
  takes : ℕ

/-- The group, and what was done about it. -/
structure Machine where
  clock : ℕ
  turn : ℕ
  /-- The processes the group held when the shell had been waited for, that it holds still. -/
  held : List Proc
  /-- The others it holds. -/
  started : List Proc
  /-- Which process was sent which signal. -/
  delivered : List (Proc × Signal)
  rows : List Session

namespace Machine

/-- What the group holds. -/
def group (m : Machine) : List Proc := m.held ++ m.started

/-- The machine moves on. A group that holds nothing is gone, and nothing comes back into it. -/
def pass (moves : ℕ → Move) (m : Machine) : Machine :=
  let move := moves m.turn
  if m.group = [] then { m with clock := m.clock + move.takes, turn := m.turn + 1 }
  else { m with
    clock := m.clock + move.takes
    turn := m.turn + 1
    held := m.held.filter (!move.ends ·)
    started := m.started.filter (!move.ends ·) ++ move.forked }

end Machine

/-- The argument `kill` is given, where the identifier is one. -/
def addressed : Target → Option ℤ
  | .process pid => if pid < 2 ^ 31 then some pid else none
  | .group pgid => if pgid < 2 ^ 31 then some (-pgid) else none

/-- The processes of a machine, of which one group is asked about. A signal to the group goes to each
process of it that this account may signal. -/
def live (moves : ℕ → Move) (pgid : ℕ) : Signals Machine where
  send target signal m :=
    let m := m.pass moves
    if addressed target = some (-(pgid : ℤ)) ∧ m.group.any Proc.mine then
      (true, { m with delivered := m.delivered ++ (m.group.filter Proc.mine).map (·, signal) })
    else (false, m)
  alive target m :=
    let m := m.pass moves
    (decide (addressed target = some (-(pgid : ℤ)) ∧ m.group ≠ []), m)
  wait period m := { m.pass moves with clock := (m.pass moves).clock + period }
  now := Machine.clock

/-! ### Running a hook -/

/-- How a shell ended. -/
structure Exit where
  /-- Nothing for a shell that a signal ended. -/
  code : Option ℤ
  stderr : String
  deriving DecidableEq, Repr

def Exit.success (exit : Exit) : Bool := exit.code = some 0

/-- Where a group a hook leaves is written down. -/
inductive Ownership
  | registered
  | unattachable (why : String)
  deriving DecidableEq, Repr

/-- What `pre_new` answers with. -/
def beforeTheRows : Ownership := .unattachable "the unit's rows are written after this hook runs"

inductive Failure
  | toolSpawn (why : String)
  | hookFailed (phase : Phase) (command : String) (code : Option ℤ) (stderr : String)
  | hookGroupUnowned (phase : Phase) (pgid : ℕ) (reason : Failure) (stopped : Bool)
  | hookGroupUnattachable (phase : Phase) (why : String)
  /-- What the actor reading or the registry answered. -/
  | store (why : String)
  deriving DecidableEq, Repr

/-- What the outside does while a hook runs. -/
structure Outside where
  /-- The child that was started. -/
  spawn : Except String ℕ
  /-- How the shell ended, and what was read of its output. -/
  wait : Except String Exit
  /-- What reading the actor and inserting the row answered. -/
  insert : Except String Unit
  moves : ℕ → Move
  spared : Spared

/-- The prefix the actor of a hook's own session row carries. -/
def ACTOR_PREFIX : String := "hook:"

/-- Record a group as the unit's to stop. -/
def attach (outside : Outside) (owner : Ownership) (phase : Phase) (environment : String) (pgid : ℕ)
    (m : Machine) : Except Failure Unit × Machine :=
  match owner with
  | .unattachable why => (.error (.hookGroupUnattachable phase why), m)
  | .registered => match outside.insert with
    | .error why => (.error (.store why), m)
    | .ok () =>
      let session := ⟨environment, ACTOR_PREFIX ++ phase.key, some pgid, some pgid⟩
      (.ok (), { m with rows := m.rows ++ [session] })

/-- Stop one group with the ladder, and answer whether it has gone. -/
def stopGroup (outside : Outside) (pgid : ℕ) (m : Machine) : Bool × Machine :=
  let (stopped, m) := processes (live outside.moves pgid) outside.spared [.group pgid] GRACE m
  (stopped.isClear, m)

/-- The group a shell was put in: nothing for one that is never a target. -/
def groupOf (outside : Outside) (child : ℕ) : Option ℕ :=
  if isSpared outside.spared (.group child) then none else some child

/-- The machine once the shell has been waited for. A shell that was waited for is no process of the
group any more. -/
def waited (outside : Outside) (child : ℕ) : Machine :=
  let m : Machine := ⟨0, 0, [], [⟨child, true⟩], [], []⟩
  let m := m.pass outside.moves
  match outside.wait with
  | .ok _ => { m with held := m.started.filter (·.pid ≠ child), started := [] }
  | .error _ => { m with held := m.started, started := [] }

/-- What becomes of a shell that ended, and of the group it left. -/
def concluded (outside : Outside) (owner : Ownership) (phase : Phase) (command environment : String)
    (exit : Exit) (left : Option ℕ) (m : Machine) : Except Failure Unit × Machine :=
  if exit.success = false then
    let m := match left with
      | some pgid => (stopGroup outside pgid m).2
      | none => m
    (.error (.hookFailed phase command exit.code exit.stderr), m)
  else match left with
    | none => (.ok (), m)
    | some pgid => match attach outside owner phase environment pgid m with
      | (.ok (), m) => (.ok (), m)
      | (.error reason, m) =>
        let (stopped, m) := stopGroup outside pgid m
        (.error (.hookGroupUnowned phase pgid reason stopped), m)

/-- Start the shell, wait for it, and see to what it left. -/
def execute (outside : Outside) (owner : Ownership) (phase : Phase) (command environment : String) :
    Except Failure Unit × Machine :=
  match outside.spawn with
  | .error why => (.error (.toolSpawn why), ⟨0, 0, [], [], [], []⟩)
  | .ok child =>
    let group := groupOf outside child
    let m := waited outside child
    match outside.wait with
    | .error why => (.error (.toolSpawn why), m)
    | .ok exit => match group with
      | none => concluded outside owner phase command environment exit none m
      | some pgid =>
        let (there, m) := (live outside.moves pgid).alive (.group pgid) m
        concluded outside owner phase command environment exit (if there then some pgid else none) m

/-! ### What a call owes -/

/-- The group is empty, or a row names it, or the call failed and every process the shell left that
is still there was sent the whole ladder. -/
def Accounted (pgid : ℕ) (answer : Except Failure Unit × Machine) : Prop :=
  answer.2.group = [] ∨ (∃ row ∈ answer.2.rows, row.pgid = some pgid) ∨
    (∃ why, answer.1 = .error why) ∧
      ∀ process ∈ answer.2.held, ∀ signal ∈ LADDER, (process, signal) ∈ answer.2.delivered

/-- The group is written down by this call: the hook succeeded, and its phase has rows and the
registry took one. -/
def Written (outside : Outside) (owner : Ownership) (exit : Exit) : Prop :=
  exit.success = true ∧ owner = .registered ∧ outside.insert = .ok ()

variable {outside : Outside} {owner : Ownership} {phase : Phase} {command environment : String}
  {moves : ℕ → Move} {pgid : ℕ} {m : Machine}

/-! ### What a turn of the machine keeps -/

/-- A turn of the machine ends processes and starts others; a group that is empty stays so. -/
theorem pass_kept (moves : ℕ → Move) (m : Machine) :
    (m.group = [] → (m.pass moves).group = []) ∧ (m.pass moves).held ⊆ m.held ∧
      (m.pass moves).delivered = m.delivered ∧ (m.pass moves).rows = m.rows := by
  unfold Machine.pass
  dsimp only
  split
  · exact ⟨id, List.Subset.refl _, rfl, rfl⟩
  · next hne => exact ⟨fun h ↦ absurd h hne, List.filter_subset_self _, rfl, rfl⟩

/-- A signal sent to the group reaches each process of it that is this account's. -/
theorem send_spec (target : Target) (signal : Signal) (m : Machine) :
    ((live moves pgid).send target signal m).2.held = (m.pass moves).held ∧
      ((live moves pgid).send target signal m).2.group = (m.pass moves).group ∧
      ((live moves pgid).send target signal m).2.rows = m.rows ∧
      ((live moves pgid).send target signal m).2.delivered =
        if ((live moves pgid).send target signal m).1 = true then
          m.delivered ++ ((m.pass moves).group.filter Proc.mine).map (·, signal)
        else m.delivered := by
  obtain ⟨_, _, hdelivered, hrows⟩ := pass_kept moves m
  simp only [live]
  split
  · exact ⟨rfl, rfl, hrows, by simp [hdelivered]⟩
  · exact ⟨rfl, rfl, hrows, by simp [hdelivered]⟩

/-- What is known of the group along a ladder. -/
theorem watched (hpid : pgid < 2 ^ 31) : Watched (live moves pgid) (.group pgid)
    (fun m ↦ m.group = []) (fun m ↦ ∀ process ∈ m.held, process.mine = false)
    (fun signal m ↦ ∀ process ∈ m.held, process.mine = true → (process, signal) ∈ m.delivered) := by
  have haddressed : addressed (.group pgid) = some (-(pgid : ℤ)) := if_pos hpid
  refine ⟨fun signal m ↦ ?_, fun m ↦ ?_, fun period m ↦ ?_, fun signal m htook ↦ ?_,
    fun signal m hrefused ↦ ?_, fun m hdead ↦ ?_⟩
  · obtain ⟨hgone, hheld, _⟩ := pass_kept moves m
    obtain ⟨hheld', hgroup', _, hdelivered'⟩ := send_spec
      (.group pgid) signal m
    refine ⟨fun h ↦ hgroup' ▸ hgone h, fun h process hprocess ↦ h process (hheld (hheld' ▸ hprocess)),
      fun got h process hprocess hmine ↦ ?_⟩
    have hbefore := h process (hheld (hheld' ▸ hprocess)) hmine
    rw [hdelivered']
    split
    · exact List.mem_append_left _ hbefore
    · exact hbefore
  · obtain ⟨hgone, hheld, hdelivered, _⟩ := pass_kept moves m
    exact ⟨hgone, fun h process hprocess ↦ h process (hheld hprocess),
      fun got h process hprocess hmine ↦ hdelivered ▸ h process (hheld hprocess) hmine⟩
  · obtain ⟨hgone, hheld, hdelivered, _⟩ := pass_kept moves m
    exact ⟨hgone, fun h process hprocess ↦ h process (hheld hprocess),
      fun got h process hprocess hmine ↦ hdelivered ▸ h process (hheld hprocess) hmine⟩
  · obtain ⟨hheld', _, _, hdelivered'⟩ := send_spec
      (.group pgid) signal m
    intro process hprocess hmine
    rw [hdelivered', if_pos htook]
    refine List.mem_append_right _ (List.mem_map.mpr ⟨process, List.mem_filter.mpr ⟨?_, hmine⟩, rfl⟩)
    exact List.mem_append_left _ (hheld' ▸ hprocess)
  · have hnone : (m.pass moves).group.any Proc.mine = false := by
      by_contra hany
      simp only [live, haddressed, true_and, Bool.not_eq_false] at hrefused hany
      rw [if_pos hany] at hrefused
      cases hrefused
    obtain ⟨hheld', _⟩ := send_spec (.group pgid) signal m
    refine Or.inr fun process hprocess ↦ ?_
    have hgroup : process ∈ (m.pass moves).group := List.mem_append_left _ (hheld' ▸ hprocess)
    simpa using List.any_eq_false.mp hnone process hgroup
  · simpa [live, haddressed] using hdead

/-- Only this account's processes are ever sent a signal, and a stop writes no row. -/
def Clean (m : Machine) : Prop :=
  (∀ sent ∈ m.delivered, sent.1.mine = true) ∧ m.rows = []

theorem clean_stopGroup (hm : Clean m) : Clean (stopGroup outside pgid m).2 := by
  unfold stopGroup
  dsimp only
  refine processes_keeps (fun target signal m hm ↦ ?_) (fun target m hm ↦ ?_)
    (fun period m hm ↦ ?_) hm
  · obtain ⟨_, _, hrows, hdelivered⟩ := send_spec target signal m
    refine ⟨fun sent hsent ↦ ?_, hrows.trans hm.2⟩
    rw [hdelivered] at hsent
    split at hsent
    · rcases List.mem_append.mp hsent with hbefore | hnow
      · exact hm.1 sent hbefore
      · obtain ⟨process, hprocess, rfl⟩ := List.mem_map.mp hnow
        exact (List.mem_filter.mp hprocess).2
    · exact hm.1 sent hsent
  · obtain ⟨_, _, hdelivered, hrows⟩ := pass_kept outside.moves m
    exact ⟨fun sent hsent ↦ hm.1 sent (hdelivered ▸ hsent), hrows.trans hm.2⟩
  · obtain ⟨_, _, hdelivered, hrows⟩ := pass_kept outside.moves m
    exact ⟨fun sent hsent ↦ hm.1 sent (hdelivered ▸ hsent), hrows.trans hm.2⟩

/-- A call that failed and stopped the group has accounted for it exactly where every process of it
that is still there is this account's. -/
theorem accounted_stopped_iff (hpid : pgid < 2 ^ 31)
    (hfresh : isSpared outside.spared (.group pgid) = false) (hm : Clean m) (why : Failure) :
    Accounted pgid (.error why, (stopGroup outside pgid m).2) ↔
      ∀ process ∈ (stopGroup outside pgid m).2.held, process.mine = true := by
  obtain ⟨hmine, hrows⟩ : Clean (stopGroup outside pgid m).2 := clean_stopGroup hm
  have hwatched : Watched (live outside.moves pgid) (.group pgid) _ _ _ := watched hpid
  have hladder := hwatched.processes hfresh GRACE m
  have hstopped : (stopGroup outside pgid m).2 =
      (processes (live outside.moves pgid) outside.spared [.group pgid] GRACE m).2 := rfl
  rw [← hstopped] at hladder
  constructor
  · rintro (hempty | ⟨row, hrow, _⟩ | ⟨_, hall⟩) process hprocess
    · have hnone : process ∈ (stopGroup outside pgid m).2.group := List.mem_append_left _ hprocess
      simp [hempty] at hnone
    · simp [hrows] at hrow
    · exact hmine _ (hall process hprocess .interrupt (by simp [LADDER]))
  · intro hours
    rcases hladder with hgone | hrefused | hgot
    · exact Or.inl hgone
    · refine Or.inr (Or.inr ⟨⟨why, rfl⟩, fun process hprocess ↦ ?_⟩)
      exact absurd (hours process hprocess) (by simp [hrefused process hprocess])
    · exact Or.inr (Or.inr ⟨⟨why, rfl⟩, fun process hprocess signal hsignal ↦
        hgot signal hsignal process hprocess (hours process hprocess)⟩)

/-- What the outside is relied on for: a shell put in a group of its own is in one that no other
process was in, under its own identifier. -/
structure Fresh (outside : Outside) (pgid : ℕ) : Prop where
  spawned : outside.spawn = .ok pgid
  identifier : pgid < 2 ^ 31
  own : isSpared outside.spared (.group pgid) = false

theorem clean_waited : Clean (waited outside pgid) := by
  have hclean : Clean (Machine.pass outside.moves ⟨0, 0, [], [⟨pgid, true⟩], [], []⟩) := by
    obtain ⟨_, _, hdelivered, hrows⟩ := pass_kept outside.moves ⟨0, 0, [], [⟨pgid, true⟩], [], []⟩
    exact ⟨by simp [hdelivered], hrows⟩
  unfold waited
  dsimp only
  split <;> exact hclean

/-- What becomes of a shell that was waited for and left a group that still runs. -/
theorem concluded_some_iff (hfresh : Fresh outside pgid) (hm : Clean m) (exit : Exit) :
    Accounted pgid (concluded outside owner phase command environment exit (some pgid) m) ↔
      Written outside owner exit ∨
        ∀ process ∈ (concluded outside owner phase command environment exit (some pgid) m).2.held,
          process.mine = true := by
  have hstopped := accounted_stopped_iff hfresh.identifier hfresh.own hm
  unfold concluded Written
  cases hsuccess : exit.success with
  | false => simpa using hstopped _
  | true =>
    cases owner with
    | unattachable why => simpa [attach] using hstopped _
    | registered =>
      cases hinsert : outside.insert with
      | error why => simpa [attach, hinsert] using hstopped _
      | ok _ =>
        simp only [attach, hinsert]
        refine ⟨fun _ ↦ Or.inl (by simp), fun _ ↦ Or.inr (Or.inl ?_)⟩
        exact ⟨_, List.mem_append_right _ (List.mem_singleton.mpr rfl), rfl⟩

/-- Assumes: a shell started in a group of its own. When the call answers, the group is accounted for
exactly when the shell's output was not readable and the group was empty then; or the shell was waited
for, and the group is written down by the call, or each process the shell left that is still there is
one this account may signal. -/
theorem accounted_iff (hfresh : Fresh outside pgid) :
    Accounted pgid (execute outside owner phase command environment) ↔
      match outside.wait with
      | .error _ => (waited outside pgid).held = []
      | .ok exit => Written outside owner exit ∨
        ∀ process ∈ (execute outside owner phase command environment).2.held,
          process.mine = true := by
  have hclean : Clean (waited outside pgid) := clean_waited
  have hgroup : groupOf outside pgid = some pgid := by simp [groupOf, hfresh.own]
  simp only [execute, hfresh.spawned, hgroup]
  cases hwait : outside.wait with
  | error why =>
    dsimp only
    have hstarted : (waited outside pgid).started = [] := by simp [waited, hwait]
    have hdelivered : (waited outside pgid).delivered = [] := by
      unfold waited
      dsimp only
      rw [hwait]
      exact (pass_kept outside.moves _).2.2.1
    constructor
    · rintro (hempty | ⟨row, hrow, _⟩ | ⟨_, hall⟩)
      · exact (List.append_eq_nil_iff.mp hempty).1
      · simp [hclean.2] at hrow
      · refine List.eq_nil_iff_forall_not_mem.mpr fun process hprocess ↦ ?_
        have hsent := hall process hprocess .interrupt (by simp [LADDER])
        simp [hdelivered] at hsent
    · exact fun hempty ↦ Or.inl (by simp [Machine.group, hempty, hstarted])
  | ok exit =>
    dsimp only
    have haddressed : addressed (.group pgid) = some (-(pgid : ℤ)) := if_pos hfresh.identifier
    have halive : Clean ((waited outside pgid).pass outside.moves) := by
      obtain ⟨_, _, hdelivered, hrows⟩ := pass_kept outside.moves (waited outside pgid)
      exact ⟨fun sent hsent ↦ hclean.1 sent (hdelivered ▸ hsent), hrows.trans hclean.2⟩
    by_cases hthere : ((waited outside pgid).pass outside.moves).group = []
    · have hnone : ∀ process ∈ ((waited outside pgid).pass outside.moves).held,
          process.mine = true := by
        simp [(List.append_eq_nil_iff.mp hthere).1]
      have hdone : (concluded outside owner phase command environment exit none
          ((waited outside pgid).pass outside.moves)).2 =
            (waited outside pgid).pass outside.moves := by
        unfold concluded
        split <;> rfl
      simp only [live, haddressed, hthere, ne_eq, not_true_eq_false, and_false, decide_false,
        Bool.false_eq_true, if_false, hdone]
      exact ⟨fun _ ↦ Or.inr hnone, fun _ ↦ Or.inl (by rw [hdone]; exact hthere)⟩
    · simp only [live, haddressed, ne_eq, hthere, not_false_eq_true, and_self, decide_true, if_true]
      exact concluded_some_iff hfresh halive exit

/-- A shell that starts a server and ends, in so many turns of a machine where nothing else
happens. -/
def serving (wait : Except String Exit) (insert : Except String Unit) : Outside where
  spawn := .ok 4200
  wait := wait
  insert := insert
  moves turn := ⟨fun _ ↦ false, if turn = 0 then [⟨4201, true⟩] else [], 0⟩
  spared := ⟨[99], [99]⟩

theorem serving_fresh (wait : Except String Exit) (insert : Except String Unit) :
    Fresh (serving wait insert) 4200 :=
  ⟨rfl, by decide, rfl⟩

/-- `accounted_iff` of a server whose row the registry did not take. -/
theorem accounted_iff_serving :
    Accounted 4200 (execute (serving (.ok ⟨some 0, ""⟩) (.error "database is locked")) .registered
        .postNew "server &" "e1") ↔
      Written (serving (.ok ⟨some 0, ""⟩) (.error "database is locked")) .registered ⟨some 0, ""⟩ ∨
        ∀ process ∈ (execute (serving (.ok ⟨some 0, ""⟩) (.error "database is locked")) .registered
          .postNew "server &" "e1").2.held, process.mine = true :=
  accounted_iff (serving_fresh _ _)

/-- A shell whose output could not be read leaves its server to nobody. -/
theorem unread_output_loses_group :
    ¬Accounted 4200 (execute (serving (.error "Input/output error (os error 5)") (.ok ()))
      .registered .postNew "server &" "e1") := by
  have hleft : (execute (serving (.error "Input/output error (os error 5)") (.ok ()))
      .registered .postNew "server &" "e1").2 =
        ⟨0, 1, [⟨4200, true⟩, ⟨4201, true⟩], [], [], []⟩ := by
    rfl
  rintro (hempty | ⟨row, hrow, _⟩ | ⟨_, hall⟩)
  · simp [hleft, Machine.group] at hempty
  · simp [hleft] at hrow
  · have hsent := hall ⟨4201, true⟩ (by simp [hleft]) .kill (by decide)
    simp [hleft] at hsent

end Nodal.Hook
