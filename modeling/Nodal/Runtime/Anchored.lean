import Mathlib.Data.List.Nodup
import Nodal.Foundation.Chase
import Nodal.Runtime.Occupied

/-!
# The processes a reading may not see, and what anchors them to a home

`lifecycle/assess.rs`: a process whose record this account may not read is said to stand in a home where
its group's leader stands there by its own working directory, or where its parents lead to something that
stands there (`withheld_standing_iff`). Parents are followed for sixteen steps, never to process 0 or 1,
and no further once they go round in a circle. Nothing that has ended anchors anything.
-/

set_option autoImplicit false

namespace Nodal.Runtime

open Foundation

/-- What a scan answers with: one row for a process, and of a process this account may not read nothing
but its identifier and where it came from. -/
structure Scan where
  running : List Running
  distinct : (running.map Running.pid).Nodup
  hidden : ∀ process ∈ running, process.withheld = some .anotherAccount →
    process.carried = none ∧ process.cwd = none ∧ process.held = []

variable (host : Host) (own : Own) (placed : List Place) (spared : List ℕ) (ended : ℕ → Bool)
  (scan : Scan)

/-- A process this account can read stands in the home: it is a bystander there that has not ended. -/
def Stands (process : Running) : Prop :=
  process ∈ scan.running ∧ bystander host own placed spared process = true ∧
    ended process.pid = false

/-- The table says that one process was started by another. -/
def Started (child parent : ℕ) : Prop :=
  ∃ process ∈ scan.running, process.pid = child ∧ process.lineage.parent = some parent

/-- The same, of a parent that is neither process 0 nor process 1. -/
def Parent (child parent : ℕ) : Prop :=
  1 < parent ∧ Started scan child parent

/-- What ties a process this account may not read to the home: its group's leader stands there by its
own working directory, or a chain of at most sixteen links from it reaches a process that stands
there. -/
def Anchored (link : ℕ → ℕ → Prop) (process : Running) : Prop :=
  (∃ leader, Stands host own placed spared ended scan leader ∧ inOneOf placed leader = true ∧
      process.lineage.group = some leader.pid) ∨
    ∃ n ≤ LINEAGE, ∃ anchor, Stands host own placed spared ended scan anchor ∧
      Chain link n process.pid anchor.pid

/-! ### The walk along the parents -/

/-- The parent a walk goes to from a process, as the table has it. -/
def parentIn (running : List Running) (pid : ℕ) : Option ℕ :=
  ((running.reverse.find? (·.pid = pid)).map Running.lineage).bind Lineage.parent

theorem reachesInside_eq_chase (inside : List ℕ) (parentOf : ℕ → Option ℕ) (steps : ℕ)
    (walked : List ℕ) (at' : Option ℕ) : reachesInside inside parentOf steps walked at' =
      chase (· ∈ inside) (fun pid ↦ (parentOf pid).filter (1 < ·)) steps walked
        (at'.filter (1 < ·)) := by
  induction steps generalizing walked at' with
  | zero => rfl
  | succ steps ih =>
    rw [reachesInside]
    cases hparent : at'.filter (1 < ·) with
    | none => rfl
    | some pid =>
      rw [chase]
      simp only [decide_eq_true_eq, ih]

variable {host own placed spared ended scan}

/-- Of two rows with one identifier there is one. -/
theorem eq_of_pid {first second : Running} (hfirst : first ∈ scan.running)
    (hsecond : second ∈ scan.running) (h : first.pid = second.pid) : first = second :=
  List.inj_on_of_nodup_map scan.distinct hfirst hsecond h

/-- The table has the row of each of its processes. -/
theorem parentIn_eq {process : Running} (h : process ∈ scan.running) :
    parentIn scan.running process.pid = process.lineage.parent := by
  cases hfind : scan.running.reverse.find? (·.pid = process.pid) with
  | none =>
    have hnot := List.find?_eq_none.mp hfind process (List.mem_reverse.mpr h)
    simp at hnot
  | some row =>
    have hrow : row ∈ scan.running := List.mem_reverse.mp (List.mem_of_find?_eq_some hfind)
    have hpid : row.pid = process.pid := by simpa using List.find?_some hfind
    rw [parentIn, hfind, eq_of_pid hrow h hpid]
    rfl

/-- The walk's links are the parent links of the table. -/
theorem parentIn_filter_iff {child parent : ℕ} :
    (parentIn scan.running child).filter (1 < ·) = some parent ↔ Parent scan child parent := by
  rw [Option.filter_eq_some_iff, decide_eq_true_eq, and_comm]
  refine and_congr_right fun _ ↦ ?_
  constructor
  · intro hparent
    obtain ⟨lineage, hlineage, hlink⟩ := Option.bind_eq_some_iff.mp hparent
    obtain ⟨row, hfind, rfl⟩ := Option.map_eq_some_iff.mp hlineage
    exact ⟨row, List.mem_reverse.mp (List.mem_of_find?_eq_some hfind),
      by simpa using List.find?_some hfind, hlink⟩
  · rintro ⟨process, hmem, rfl, hlink⟩
    rw [parentIn_eq hmem, hlink]

theorem mem_standingIn_iff {process : Running} :
    process ∈ standingIn host own placed spared ended scan.running ↔
      Stands host own placed spared ended scan process := by
  rw [standingIn, List.mem_filter, Stands]
  refine and_congr_right fun _ ↦ ?_
  cases hbystander : bystander host own placed spared process with
  | false => simp
  | true =>
    have howned : owns own process = false := by
      simp only [bystander, Bool.and_eq_true, Bool.not_eq_true'] at hbystander
      exact hbystander.1.1.1
    simp [howned]

/-- A process of the table descends from the home exactly where it is anchored there. -/
theorem descendsFrom_iff {process : Running} (h : process ∈ scan.running) :
    descendsFrom ((standingIn host own placed spared ended scan.running).map Running.pid)
        (((standingIn host own placed spared ended scan.running).filter (inOneOf placed)).map
          Running.pid) scan.running process = true ↔
      Anchored host own placed spared ended scan (Parent scan) process := by
  set standing := standingIn host own placed spared ended scan.running with hstanding
  have hgroup : process.lineage.group.any
      (· ∈ ((standing.filter (inOneOf placed)).map Running.pid)) = true ↔
      ∃ leader, Stands host own placed spared ended scan leader ∧ inOneOf placed leader = true ∧
        process.lineage.group = some leader.pid := by
    rw [Option.any_eq_true]
    constructor
    · rintro ⟨group, hgroup, hmem⟩
      obtain ⟨leader, hleader, rfl⟩ := List.mem_map.mp (of_decide_eq_true hmem)
      obtain ⟨hstands, hcwd⟩ := List.mem_filter.mp hleader
      exact ⟨leader, mem_standingIn_iff.mp hstands, hcwd, hgroup⟩
    · rintro ⟨leader, hstands, hcwd, hgroup⟩
      refine ⟨leader.pid, hgroup, decide_eq_true (List.mem_map_of_mem ?_)⟩
      exact List.mem_filter.mpr ⟨mem_standingIn_iff.mpr hstands, hcwd⟩
  have hwalk : reachesInside (standing.map Running.pid) (parentIn scan.running) LINEAGE
      [process.pid] process.lineage.parent = true ↔
      ∃ n ≤ LINEAGE, ∃ anchor, Stands host own placed spared ended scan anchor ∧
        Chain (Parent scan) n process.pid anchor.pid := by
    have hlink : (fun child parent ↦
        (parentIn scan.running child).filter (1 < ·) = some parent) = Parent scan := by
      funext child parent
      exact propext parentIn_filter_iff
    rw [reachesInside_eq_chase, ← parentIn_eq h, chase_iff, hlink]
    simp only [decide_eq_true_eq]
    refine exists_congr fun n ↦ and_congr_right fun _ ↦ ?_
    constructor
    · rintro ⟨pid, hmem, hchain⟩
      obtain ⟨anchor, hanchor, rfl⟩ := List.mem_map.mp hmem
      exact ⟨anchor, mem_standingIn_iff.mp hanchor, hchain⟩
    · rintro ⟨anchor, hstands, hchain⟩
      exact ⟨anchor.pid, List.mem_map_of_mem (mem_standingIn_iff.mpr hstands), hchain⟩
  rw [Anchored, ← hgroup, ← hwalk]
  unfold descendsFrom
  split_ifs with hleader
  · exact iff_of_true rfl (Or.inl hleader)
  · exact (or_iff_right hleader).symm

/-! ### What a reading says -/

/-- A process this account may not read does not stand in a home by what is seen of it. -/
theorem not_stands_of_withheld {process : Running} (h : process ∈ scan.running)
    (hwithheld : process.withheld = some .anotherAccount) :
    ¬ Stands host own placed spared ended scan process := by
  obtain ⟨-, hcwd, hheld⟩ := scan.hidden process h hwithheld
  rintro ⟨-, hbystander, -⟩
  simp [bystander, inOneOf, heldInside, hcwd, hheld] at hbystander

/-- The processes the reading names beside the ones it can see: those it may not read that are neither
spared nor gone, and that are anchored to the home. -/
theorem mem_withheldIn_iff {process : Running} (h : process ∈ scan.running) :
    process.pid ∈ (withheldIn host own placed spared ended scan.running).map Standing.pid ↔
      process.withheld = some .anotherAccount ∧ process.pid ∉ spared ∧ ended process.pid = false ∧
        Anchored host own placed spared ended scan (Parent scan) process := by
  have hnone (hstanding : standingIn host own placed spared ended scan.running = []) :
      ¬ Anchored host own placed spared ended scan (Parent scan) process := by
    have hnobody (other : Running) : ¬ Stands host own placed spared ended scan other := by
      rw [← mem_standingIn_iff, hstanding]
      exact List.not_mem_nil
    rintro (⟨leader, hstands, -⟩ | ⟨-, -, anchor, hstands, -⟩)
    · exact hnobody leader hstands
    · exact hnobody anchor hstands
  unfold withheldIn
  dsimp only
  split_ifs with hstanding
  · refine iff_of_false List.not_mem_nil ?_
    rintro ⟨-, -, -, hanchored⟩
    exact hnone hstanding hanchored
  · rw [List.map_map, List.mem_map]
    constructor
    · rintro ⟨other, hother, hpid⟩
      obtain ⟨hmem, hkept⟩ := List.mem_filter.mp hother
      obtain rfl := eq_of_pid hmem h hpid
      obtain ⟨hwithheld, hspared, hended, hdescends⟩ := of_decide_eq_true hkept
      exact ⟨hwithheld, hspared, hended, (descendsFrom_iff h).mp hdescends⟩
    · rintro ⟨hwithheld, hspared, hended, hanchored⟩
      refine ⟨process, List.mem_filter.mpr ⟨h, decide_eq_true ?_⟩, rfl⟩
      exact ⟨hwithheld, hspared, hended, (descendsFrom_iff h).mpr hanchored⟩

/-- What a reading says of the processes it may not read. One of them is said to stand in the home exactly
where it is neither spared nor gone and is anchored there, none is also said to be the unit's own, and
nothing that has ended is said to stand there. -/
theorem withheld_standing_iff (host : Host) (own : Own) (placed : List Place) (spared : List ℕ)
    (ended : ℕ → Bool) (scan : Scan) :
    (∀ process ∈ scan.running, process.withheld = some .anotherAccount →
        (process.pid ∈ (sort host own placed spared ended scan.running).2.map Standing.pid ↔
          process.pid ∉ spared ∧ ended process.pid = false ∧
            Anchored host own placed spared ended scan (Parent scan) process)) ∧
      (∀ process ∈ scan.running, process.withheld = some .anotherAccount →
        process.pid ∉ (sort host own placed spared ended scan.running).1) ∧
      ∀ row ∈ (sort host own placed spared ended scan.running).2, ended row.pid = false := by
  refine ⟨?_, ?_, ?_⟩
  · intro process hmem hwithheld
    have hseen : process.pid ∉ ((standingIn host own placed spared ended scan.running).map
        (Standing.of placed)).map Standing.pid := by
      rw [List.map_map, List.mem_map]
      rintro ⟨other, hother, hpid⟩
      have hstands := mem_standingIn_iff.mp hother
      obtain rfl := eq_of_pid hstands.1 hmem hpid
      exact not_stands_of_withheld hmem hwithheld hstands
    rw [sort, List.map_append, List.mem_append, or_iff_right hseen, mem_withheldIn_iff hmem]
    exact and_iff_right hwithheld
  · intro process hmem hwithheld hcertain
    obtain ⟨other, hother, hpid⟩ := List.mem_map.mp hcertain
    obtain ⟨hrow, howns⟩ := List.mem_filter.mp hother
    obtain rfl := eq_of_pid hrow hmem hpid
    have hcarried := (scan.hidden other hmem hwithheld).1
    rw [owns, hcarried] at howns
    simp at howns
  · intro row hrow
    rcases List.mem_append.mp hrow with hseen | hnamed
    · obtain ⟨process, hprocess, rfl⟩ := List.mem_map.mp hseen
      exact (mem_standingIn_iff.mp hprocess).2.2
    · unfold withheldIn at hnamed
      dsimp only at hnamed
      split_ifs at hnamed
      · cases hnamed
      · obtain ⟨process, hprocess, rfl⟩ := List.mem_map.mp hnamed
        obtain ⟨-, hkept⟩ := List.mem_filter.mp hprocess
        exact (of_decide_eq_true hkept).2.2.1

/-! ### The shell of a container, and the command that asks -/

/-- A process that only has an identifier, a working directory and a parent. -/
private def plain (pid parent : ℕ) (cwd : Option Place) (withheld : Option Withheld) : Running :=
  ⟨pid, none, cwd, none, [], ⟨some parent, none⟩, withheld⟩

/-- Process 1 is a shell in the home, and a command started from it may not be read. -/
private def container : Scan where
  running := [plain 1 0 (some ["home"]) none, plain 40 1 none (some .anotherAccount)]
  distinct := by decide
  hidden := by decide

/-- A shell in the home, and a command started from it that may not be read. -/
private def terminal : Scan where
  running := [plain 30 2 (some ["home"]) none, plain 40 30 none (some .anotherAccount)]
  distinct := by decide
  hidden := by decide

/-- A host that answers nothing. -/
private def silent : Host := ⟨fun _ ↦ none, fun _ ↦ none, fun _ ↦ none⟩

/-- A process that may not be read is said to stand in the home exactly where it has not ended and is
anchored there, whatever its parents are and whether or not it is spared. -/
private def Whatever (spared : List ℕ) (scan : Scan) : Prop :=
  ∀ process ∈ scan.running, process.withheld = some .anotherAccount →
    (process.pid ∈ (sort silent ⟨"u", [], []⟩ [["home"]] spared (fun _ ↦ false)
        scan.running).2.map Standing.pid ↔
      Anchored silent ⟨"u", [], []⟩ [["home"]] spared (fun _ ↦ false) scan (Started scan) process)

/-- A command started from process 1 is not said to stand where its parent does, and one that is spared
is not either. -/
theorem first_process_and_spared_pass : ¬ Whatever [] container ∧ ¬ Whatever [40] terminal := by
  constructor
  · intro hall
    have hanchored := (hall (plain 40 1 none (some .anotherAccount)) (by decide) rfl).mpr
      (Or.inr ⟨1, by decide, plain 1 0 (some ["home"]) none, ⟨by decide, by decide +kernel, rfl⟩,
        .one ⟨plain 40 1 none (some .anotherAccount), by decide, rfl, rfl⟩⟩)
    revert hanchored
    decide +kernel
  · intro hall
    have hanchored := (hall (plain 40 30 none (some .anotherAccount)) (by decide) rfl).mpr
      (Or.inr ⟨1, by decide, plain 30 2 (some ["home"]) none, ⟨by decide, by decide +kernel, rfl⟩,
        .one ⟨plain 40 30 none (some .anotherAccount), by decide, rfl, rfl⟩⟩)
    revert hanchored
    decide +kernel

end Nodal.Runtime
