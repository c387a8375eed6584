import Nodal.Removal.Assess

/-!
# The one place a safe verdict is made

`lifecycle/kernel.rs`: what an assessment found is judged here and nowhere else. A path or a commit
a removal would lose refuses it, something standing in the home refuses it, and so does a reading
nobody could take. A commit whose other copy is inside a home the same removal takes is lost with it.
-/

set_option autoImplicit false

namespace Nodal.Removal

open Git

/-- What removing one home would take away. -/
structure LossSet where
  home : Path
  paths : List PathGroup
  commits : List CommitGroup
  deriving DecidableEq, Repr

/-- What this machine read beside the loss set itself. -/
structure Evidence where
  runtime : Option Runtime
  set : List Path
  readAt : Seconds
  deriving DecidableEq, Repr

/-- One member of the loss set that a removal would lose, or one thing that stops the move. -/
structure Loss where
  needs : Needs
  detail : String
  deriving DecidableEq, Repr

/-- One reading that could not be made, and why. -/
structure UnreadSignal where
  why : String
  deriving DecidableEq, Repr

/-- One store outside the home, and what of the home it held. -/
structure Rest where
  repository : Path
  commits : ℕ
  sample : List Oid
  deriving DecidableEq, Repr

/-- What a safe verdict rests on. -/
structure Proof where
  restsOn : List Rest
  observedAt : Seconds
  deriving DecidableEq, Repr

/-- What this machine proved about one home. -/
inductive Verdict
  | safe (proof : Proof)
  | notSafe (lost : List Loss) (unread : List UnreadSignal)
  | unknown (unread : List UnreadSignal)
  deriving DecidableEq, Repr

namespace Verdict

/-- What a removal would lose, or what stops it. -/
def lost : Verdict → List Loss
  | notSafe lost _ => lost
  | _ => []

/-- What could not be read. -/
def unread : Verdict → List UnreadSignal
  | notSafe _ unread | unknown unread => unread
  | safe _ => []

/-- Whether a removal run now would go ahead. -/
def isSafe : Verdict → Bool
  | safe _ => true
  | _ => false

end Verdict

/-! ### The judgement -/

/-- Whether a copy a store holds survives a removal that takes the set as well. -/
def survives (disk : Disk) (store : Path) (set : List Path) : Bool :=
  !set.any (disk.resolve · = disk.resolve store)

/-- The loss a set adds over one group, where the group's other copy goes with it. -/
def jointLoss (disk : Disk) (set : List Path) (group : CommitGroup) : Option Loss :=
  match group.copies with
  | .secondLocalCopy heldBy =>
    if survives disk heldBy set then none
    else some ⟨.uniqueLoss, toString group.count ++ " " ++
      (if group.count = 1 then "commit" else "commits") ++ " whose only other copy is in " ++
      heldBy ++ ", which the same removal takes"⟩
  | _ => none

/-- The losses the set adds, and none of the ones the home already had. -/
def joint (disk : Disk) (loss : LossSet) (set : List Path) : List Loss :=
  loss.commits.filterMap (jointLoss disk set)

/-- The refusal one group of paths raises. -/
def pathLoss (group : PathGroup) : Option Loss :=
  if group.held.refuses then
    some ⟨.uniqueLoss, group.held.label ++ " (" ++ toString group.count ++ ")"⟩
  else none

/-- The refusal one group of commits raises on its own. -/
def commitLoss (group : CommitGroup) : Option Loss :=
  match group.copies.needs with
  | some .unknownEvidence | none => none
  | some needs => some ⟨needs, group.copies.detail group.count⟩

/-- The reading one group of commits says is missing. -/
def commitUnread (group : CommitGroup) : Option UnreadSignal :=
  if group.copies.needs = some .unknownEvidence then some ⟨group.copies.detail group.count⟩ else none

/-- What the occupancy reading refuses over. -/
def standingLoss (evidence : Evidence) : Option Loss :=
  match evidence.runtime.bind unmovable with
  | some (.standing bystanders) =>
    some ⟨.blockingRuntime, ", ".intercalate ((bystanders.take SAMPLE).map Standing.label)⟩
  | _ => none

/-- What the occupancy reading could not say. -/
def tableUnread (evidence : Evidence) : Option UnreadSignal :=
  match evidence.runtime.bind unmovable with
  | some (.unread note) => some ⟨"the process table could not be read: " ++ note.why⟩
  | _ => none

/-- One more group credited to a store. -/
def credit (found : List Rest) (repository : Path) (group : CommitGroup) : List Rest :=
  match found.find? (·.repository = repository) with
  | none => found ++ [⟨repository, group.count, group.sample⟩]
  | some _ => found.map fun rest ↦
    if rest.repository = repository then
      ⟨repository, rest.commits + group.count, rest.sample ++ group.sample⟩
    else rest

/-- The proof a safe verdict carries: every store that held a commit of the home, in path order. -/
def proof (loss : LossSet) (observedAt : Seconds) : Proof :=
  let credited := (loss.commits.filter (·.copies.survives)).foldl
    (fun found group ↦ group.copies.holders.foldl (credit · · group) found) []
  ⟨credited.insertionSort fun a b ↦ a.repository ≤ b.repository, observedAt⟩

/-- Everything that refuses, in the order it is found. -/
def refusals (disk : Disk) (set : LossSet) (evidence : Evidence) : List Loss :=
  set.paths.filterMap pathLoss ++ set.commits.filterMap commitLoss ++ joint disk set evidence.set ++
    (standingLoss evidence).toList

/-- Every reading that is missing. -/
def unreads (set : LossSet) (evidence : Evidence) : List UnreadSignal :=
  set.commits.filterMap commitUnread ++ (tableUnread evidence).toList

/-- The losses of a report, in the order of its ranks. -/
def ranked (lost : List Loss) : List Loss :=
  lost.insertionSort fun a b ↦ a.needs.rank ≤ b.needs.rank

/-- Decide whether the contracted loss set of one home is completely readable outside it. -/
def judge (disk : Disk) (set : LossSet) (evidence : Evidence) : Verdict :=
  let lost := ranked (refusals disk set evidence)
  let unread := unreads set evidence
  if lost ≠ [] then .notSafe lost unread
  else if unread ≠ [] then .unknown unread
  else .safe (proof set evidence.readAt)

/-- What this reading found that a removal of the home would take away. -/
def Assessment.lossSet (assessment : Assessment) : LossSet :=
  ⟨assessment.home, assessment.paths, assessment.commits⟩

/-- What this reading took beside the loss set. -/
def Assessment.evidence (assessment : Assessment) (set : List Path) (readAt : Seconds) : Evidence :=
  ⟨if assessment.moves then assessment.runtime else none, set, readAt⟩

/-- The kernel's answer over this reading. -/
def Assessment.verdict (disk : Disk) (assessment : Assessment) (set : List Path)
    (readAt : Seconds) : Verdict :=
  judge disk assessment.lossSet (assessment.evidence set readAt)

/-! ### What an answer means -/

variable {disk : Disk} {set : LossSet} {evidence : Evidence} {group : CommitGroup}

theorem commitLoss_eq_none : commitLoss group = none ↔ group.copies.needs ≠ some .uniqueLoss := by
  unfold commitLoss
  rcases group.copies.needs_cases with h | h | h <;> simp [h]

theorem commitUnread_eq_none :
    commitUnread group = none ↔ group.copies.needs ≠ some .unknownEvidence := by
  unfold commitUnread
  split <;> simp_all

theorem jointLoss_eq_none {homes : List Path} : jointLoss disk homes group = none ↔
    ∀ heldBy, group.copies = .secondLocalCopy heldBy → survives disk heldBy homes = true := by
  unfold jointLoss
  cases group.copies with
  | secondLocalCopy heldBy => simp
  | onlyHere _ => simp
  | remoteProved _ => simp
  | notChecked _ _ => simp

@[simp] theorem mem_ranked {lost : List Loss} {loss : Loss} : loss ∈ ranked lost ↔ loss ∈ lost :=
  List.mem_insertionSort _

@[simp] theorem ranked_eq_nil {lost : List Loss} : ranked lost = [] ↔ lost = [] := by
  rw [List.eq_nil_iff_forall_not_mem, List.eq_nil_iff_forall_not_mem]
  simp only [mem_ranked]

/-- Safe is that nothing refuses and nothing is missing. -/
theorem judge_safe_iff : (judge disk set evidence).isSafe = true ↔
    refusals disk set evidence = [] ∧ unreads set evidence = [] := by
  have hlost : ranked (refusals disk set evidence) = [] ↔ refusals disk set evidence = [] :=
    ranked_eq_nil
  dsimp only [judge]
  split_ifs with hnone hunread
  · simp only [Verdict.isSafe, Bool.false_eq_true, false_iff, not_and]
    intro hrefusals
    exact absurd (hlost.mpr hrefusals) hnone
  · simp only [Verdict.isSafe, Bool.false_eq_true, false_iff, not_and]
    intro _
    exact hunread
  · rw [not_not] at hnone hunread
    exact iff_of_true rfl ⟨hlost.mp hnone, hunread⟩

end Nodal.Removal
