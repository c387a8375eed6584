import Mathlib.Algebra.GroupWithZero.Nat
import Nodal.Git.Reading

/-!
# Whether a clone holds commits nothing else on this machine holds

`doctor/unique.rs`: the clones of one remote are read together. A commit of one of them is somewhere
else where a ref of another clone reaches it, or where a tip of the remote does that a fresher clone
of the same remote vouches for. A clone whose own reading failed is not checked, and is never called
clean.

What is proved of a clone is proved of the commits its `HEAD` reaches.
-/

set_option autoImplicit false

namespace Nodal.Doctor

open Git Foundation.Ancestry

/-- Why a clone was not checked. -/
inductive Unchecked
  | unreadable (why : Failure)
  | unwitnessed
  | failed (why : Failure)
  deriving DecidableEq, Repr

/-- What a run proved about one clone. -/
structure Proved where
  /-- Commits of `HEAD` that no remote-tracking ref this run trusts holds. -/
  offRemote : Option ℕ
  /-- Commits of `HEAD` that no other copy on this machine holds. -/
  onlyCopy : Option ℕ
  unchecked : Option Unchecked
  witnesses : List Path
  deriving DecidableEq, Repr

namespace Proved

/-- A clone the run could not examine. -/
def notExamined (why : Unchecked) : Proved :=
  ⟨none, none, some why, []⟩

/-- A clone with nothing in it to lose. -/
def empty : Proved :=
  ⟨some 0, some 0, none, []⟩

end Proved

/-- How many commits of a revision none of the held ones reaches. -/
def countOutside (disk : Disk) (path : Path) (rev : Oid) (held : List Oid) : Except Failure ℕ :=
  (disk.among path [rev] held).map List.length

/-- The proof for a clone whose own refs nothing on this machine can check. -/
def unwitnessed (disk : Disk) (path : Path) (head : Oid) (elsewhere : List Oid) : Proved :=
  match countOutside disk path head elsewhere with
  | .ok 0 => ⟨none, some 0, none, []⟩
  | .ok _ => .notExamined .unwitnessed
  | .error why => .notExamined (.failed why)

/-- The proof for one clone. -/
def one (disk : Disk) (subject : Subject) (trusted : Trusted) (elsewhere : List Oid) : Proved :=
  match subject.reading.unreadable with
  | some why => .notExamined (.unreadable why)
  | none => match subject.reading.head with
    | none => .empty
    | some head =>
      if trusted.witnesses = [] ∧ subject.reading.remotes ≠ [] then
        unwitnessed disk subject.path head elsewhere
      else match countOutside disk subject.path head trusted.tips with
        | .error why => .notExamined (.failed why)
        | .ok 0 => ⟨some 0, some 0, none, trusted.witnesses⟩
        | .ok offRemote => match countOutside disk subject.path head (trusted.tips ++ elsewhere) with
          | .ok onlyCopy => ⟨some offRemote, some onlyCopy, none, trusted.witnesses⟩
          | .error why => .notExamined (.failed why)

/-- Whether a clone heard from the remote after another did, and fetches every branch. -/
def fresher (candidate : CloneReading) (subject : Subject) : Bool :=
  if candidate.complete = false ∨ candidate.unreadable.isSome then false
  else match candidate.heard, subject.reading.heard with
    | some later, some earlier => earlier < later
    | _, _ => false

/-- The clones that heard from the remote most recently, out of those that heard after this one. -/
def freshest (subjects : List Subject) (index : ℕ) (subject : Subject) : List Subject :=
  let candidates := (subjects.zipIdx.filter fun candidate ↦
    candidate.2 ≠ index ∧ fresher candidate.1.reading subject).map Prod.fst
  match (candidates.filterMap (·.reading.heard)).max? with
  | none => []
  | some latest => candidates.filter (·.reading.heard = some latest)

/-- Whether a clone's object store may stand as a copy for another clone. -/
def witnessable (reading : CloneReading) : Bool :=
  !reading.shallow && reading.unreadable.isNone

/-- The tips a clone may stand as a copy of. -/
def mine (subject : Subject) : List Oid :=
  if witnessable subject.reading then subject.reading.tips else []

/-- How many clones of the group hold a tip. -/
def holders (subjects : List Subject) (oid : Oid) : ℕ :=
  (subjects.filter fun subject ↦ oid ∈ mine subject).length

/-- The tips that a clone of the group other than this one holds in its object store. -/
def heldByOthers (subjects : List Subject) (subject : Subject) : List Oid :=
  sorted ((subjects.flatMap mine).filter fun oid ↦
    (if oid ∈ mine subject then 1 else 0) < holders subjects oid)

/-- What a run proves of the clone at an index of its group. -/
def proved (disk : Disk) (subjects : List Subject) (index : ℕ) (subject : Subject) : Proved :=
  one disk subject (disk.believed subject (freshest subjects index subject))
    (heldByOthers subjects subject)

/-- Prove, for each clone of one group, what it is the only copy of. -/
def prove (disk : Disk) (subjects : List Subject) : List Proved :=
  subjects.zipIdx.map fun (subject, index) ↦ proved disk subjects index subject

variable {disk : Disk} {subject : Subject} {subjects : List Subject} {trusted : Trusted}
  {elsewhere : List Oid} {index : ℕ} {commit : Oid}

/-! ### What a count of zero says -/

/-- Nothing outside is that a held commit reaches every commit of the revision. -/
theorem covered_of_countOutside {path : Path} {rev : Oid} {held : List Oid}
    {repository : Repository disk.history} (hrepository : disk.repository path = some repository)
    (h : countOutside disk path rev held = .ok 0) (hholds : repository.Holds rev commit) :
    ∃ other ∈ held, repository.Holds other commit := by
  unfold countOutside at h
  cases hamong : disk.among path [rev] held with
  | error why => simp [hamong, Except.map] at h
  | ok found =>
    have hempty : found = [] := by
      rw [hamong] at h
      exact List.eq_nil_of_length_eq_zero (Except.ok.inj h)
    rcases Disk.among_covers hrepository hamong (List.mem_singleton.mpr rfl) hholds with
      hleft | hcovered
    · rw [hempty] at hleft
      cases hleft
    · exact hcovered

/-- A clone is counted exactly when it is checked. -/
theorem counted_iff_checked : (one disk subject trusted elsewhere).onlyCopy.isSome =
    (one disk subject trusted elsewhere).unchecked.isNone := by
  unfold one unwitnessed
  split
  · rfl
  · split
    · rfl
    · split
      · split <;> rfl
      · split
        · rfl
        · rfl
        · split <;> rfl

/-- A checked clone was read. -/
theorem readable_of_checked (h : (one disk subject trusted elsewhere).unchecked = none) :
    subject.reading.unreadable = none := by
  unfold one at h
  split at h
  · cases h
  · assumption

/-- A checked clone with no commit of its own has every commit of its `HEAD` behind a trusted tip or
a tip of another clone.

Assumes: the clone's reading has its `HEAD`. -/
theorem one_covers {head : Oid} {repository : Repository disk.history}
    (hrepository : disk.repository subject.path = some repository)
    (hhead : subject.reading.head = some head)
    (hchecked : (one disk subject trusted elsewhere).unchecked = none)
    (honly : (one disk subject trusted elsewhere).onlyCopy = some 0)
    (hholds : repository.Holds head commit) :
    ∃ other ∈ trusted.tips ++ elsewhere, repository.Holds other commit := by
  have hread : subject.reading.unreadable = none := readable_of_checked hchecked
  unfold one unwitnessed at honly
  simp only [hread, hhead] at honly
  split at honly
  · split at honly
    · next hzero =>
      obtain ⟨other, hother, hreach⟩ := covered_of_countOutside hrepository hzero hholds
      exact ⟨other, List.mem_append_right _ hother, hreach⟩
    · cases honly
    · cases honly
  · split at honly
    · cases honly
    · next hzero =>
      obtain ⟨other, hother, hreach⟩ := covered_of_countOutside hrepository hzero hholds
      exact ⟨other, List.mem_append_left _ hother, hreach⟩
    · split at honly
      · next only hcount =>
        obtain rfl : only = 0 := Option.some.inj honly
        exact covered_of_countOutside hrepository hcount hholds
      · cases honly

/-! ### The other clones -/

/-- A tip held by others is a ref of one of them.

Assumes: the clone is the one at the index. -/
theorem mem_heldByOthers {oid : Oid} (hindex : subjects[index]? = some subject)
    (h : oid ∈ heldByOthers subjects subject) :
    ∃ other ∈ subjects.eraseIdx index, oid ∈ mine other := by
  have hcount := of_decide_eq_true (List.mem_filter.mp (mem_sorted.mp h)).2
  by_contra hnone
  simp only [not_exists, not_and, List.eraseIdx_eq_take_drop_succ] at hnone
  obtain ⟨hbound, hsubject⟩ := List.getElem?_eq_some_iff.mp hindex
  have hsplit : subjects = subjects.take index ++ subject :: subjects.drop (index + 1) := by
    rw [← hsubject, ← List.drop_eq_getElem_cons hbound, List.take_append_drop]
  have hbefore : (subjects.take index).filter (fun other ↦ oid ∈ mine other) = [] :=
    List.filter_eq_nil_iff.mpr fun other hother hmem ↦
      hnone other (List.mem_append_left _ hother) (of_decide_eq_true hmem)
  have hafter : (subjects.drop (index + 1)).filter (fun other ↦ oid ∈ mine other) = [] :=
    List.filter_eq_nil_iff.mpr fun other hother hmem ↦
      hnone other (List.mem_append_right _ hother) (of_decide_eq_true hmem)
  have hholders : holders subjects oid = if oid ∈ mine subject then 1 else 0 := by
    unfold holders
    rw [hsplit, List.filter_append, hbefore, List.filter_cons, hafter]
    by_cases hmem : oid ∈ mine subject <;> simp [hmem]
  omega

/-- A clone that witnesses another is one of the others. -/
theorem mem_freshest {other : Subject} (h : other ∈ freshest subjects index subject) :
    other ∈ subjects.eraseIdx index ∧ fresher other.reading subject = true := by
  dsimp only [freshest] at h
  split at h
  · cases h
  · obtain ⟨candidate, hcandidate, rfl⟩ := List.mem_map.mp (List.mem_filter.mp h).1
    obtain ⟨hmem, hfresh⟩ := List.mem_filter.mp hcandidate
    obtain ⟨hindex, hfresh⟩ := of_decide_eq_true hfresh
    exact ⟨List.mem_eraseIdx_iff_getElem?.mpr
      ⟨candidate.2, hindex, List.mk_mem_zipIdx_iff_getElem?.mp hmem⟩, hfresh⟩

end Nodal.Doctor
