import Nodal.Git.Repository

/-!
# What is left, and what a repository holds

`git/outside.rs`: the questions `git rev-list` is asked. Which commits of some revisions no held
commit reaches; which commits a store has; which of those a ref it keeps reaches; and how many
objects behind some commits are not there.

A commit a store merely has is not a copy of it: an object under no ref goes at the next collection.
So the reading a second copy rests on asks for a ref that reaches the commit.
-/

set_option autoImplicit false

namespace Nodal.Git

open Foundation.Ancestry

/-- What a repository has of some commits, and which of those a ref it keeps reaches. -/
structure Reaches where
  stored : List Oid
  reached : List Oid
  deriving DecidableEq, Repr

/-- Sorted, each identifier once. -/
def sorted (oids : List Oid) : List Oid :=
  (oids.insertionSort fun a b ↦ a.value ≤ b.value).dedup

@[simp] theorem mem_sorted {oids : List Oid} {oid : Oid} : oid ∈ sorted oids ↔ oid ∈ oids := by
  simp [sorted]

namespace Disk

variable (disk : Disk)

/-- Which of the wanted commits the store has, without walking any history. -/
def stores (path : Path) (wanted : List Oid) : Except Failure (List Oid) :=
  if wanted = [] then .ok []
  else disk.runOk path (.stores wanted) fun repository ↦ repository.commits.filter (· ∈ wanted)

/-- What the store has, less what no ref of it reaches. -/
def reaching (path : Path) (wanted : List Oid) (tracking : Bool) : Except Failure Reaches := do
  let stored ← disk.stores path wanted
  if stored = [] then return ⟨stored, []⟩
  let away ← disk.runOk path (.unreached stored tracking) fun repository ↦
    outside repository.parents stored (repository.all tracking) repository.commits
  return ⟨stored, stored.filter (· ∉ away)⟩

/-- Which of the wanted commits a ref of this repository reaches. -/
def held (path : Path) (wanted : List Oid) : Except Failure (List Oid) :=
  (disk.reaching path wanted true).map Reaches.reached

/-- Which of the wanted commits this repository reaches from a ref it keeps of its own accord. -/
def owned (path : Path) (wanted : List Oid) : Except Failure Reaches :=
  disk.reaching path wanted false

/-- Commits of any of the revisions that none of the held commits reaches, newest first. -/
def among (path : Path) (revs held : List Oid) : Except Failure (List Oid) :=
  if revs = [] then .ok []
  else disk.runOk path (.among revs held) fun repository ↦
    outside repository.parents revs held repository.commits

/-- The parents of the commits that none of the commits is. -/
def boundaryOf (path : Path) (commits : List Oid) : Except Failure (List Oid) :=
  if commits = [] then .ok []
  else disk.runOk path (.parents commits) fun repository ↦
    sorted (((repository.commits.filter (· ∈ commits)).flatMap repository.parents).filter
      (· ∉ commits))

/-- The objects the walk of some commits wants and the store has not got: what the walked commits
add, and the parents they name that are not there. -/
def lacks (repository : Repository disk.history) (commits boundary : List Oid) : ℕ :=
  let walked := outside repository.parents commits boundary repository.commits
  ((walked.flatMap disk.adds).dedup.filter (· ∉ repository.objects)).length +
    ((walked.flatMap repository.parents).dedup.filter (· ∉ repository.commits)).length

/-- How many objects behind the commits this repository has not got. -/
def missingObjects (path : Path) (commits boundary : List Oid) : Except Failure ℕ :=
  if commits = [] then .ok 0
  else disk.runOk path (.objects commits boundary) fun repository ↦
    disk.lacks repository commits boundary

/-- Whether this repository fetches the objects it has not got. A failing exit is a setting that is
not there. -/
def isPartial (path : Path) : Except Failure Bool :=
  (disk.ran path .promisor).map fun found ↦ (found.map Repository.promisor).getD false

variable {disk} {path : Path} {wanted found revs held : List Oid} {tracking : Bool}

/-! ### What each answer means -/

theorem stores_eq_ok (h : disk.stores path wanted = .ok found) {oid : Oid} (hoid : oid ∈ found) :
    oid ∈ wanted ∧ ∃ repository, disk.repository path = some repository ∧
      oid ∈ repository.commits := by
  unfold stores at h
  split at h
  · cases h
    cases hoid
  · obtain ⟨repository, hrepository, rfl⟩ := runOk_eq_ok h
    obtain ⟨hcommit, hwanted⟩ := List.mem_filter.mp hoid
    exact ⟨of_decide_eq_true hwanted, repository, hrepository, hcommit⟩

/-- What a store is said to reach, it has, and a ref it keeps reaches it. -/
theorem reaching_eq_ok {reaches : Reaches} (h : disk.reaching path wanted tracking = .ok reaches)
    {oid : Oid} (hoid : oid ∈ reaches.reached) : oid ∈ wanted ∧ oid ∈ reaches.stored ∧
      ∃ repository, disk.repository path = some repository ∧ oid ∈ repository.commits ∧
        oid ∈ repository.reach (repository.all tracking) := by
  unfold reaching at h
  cases hstores : disk.stores path wanted with
  | error failure => simp [hstores, bind, Except.bind] at h
  | ok stored =>
    by_cases hempty : stored = []
    · simp only [hstores, hempty, bind, Except.bind, pure, Except.pure, if_true] at h
      cases h
      cases hoid
    · simp only [hstores, hempty, bind, Except.bind, pure, Except.pure, if_false] at h
      split at h
      · cases h
      · next away haway =>
        cases h
        obtain ⟨repository, hrepository, rfl⟩ := runOk_eq_ok haway
        obtain ⟨hstored, hreached⟩ := List.mem_filter.mp hoid
        obtain ⟨hwanted, other, hother, hcommit⟩ := stores_eq_ok hstores hstored
        obtain rfl : repository = other := Option.some.inj (hrepository.symm.trans hother)
        have hwalked : oid ∈ walk repository.parents stored repository.commits :=
          mem_walk_of_wanted hcommit hstored
        have hnot : oid ∉ outside repository.parents stored (repository.all tracking)
            repository.commits := of_decide_eq_true hreached
        exact ⟨hwanted, hstored, repository, hrepository, hcommit,
          (outside_or_held hwalked).resolve_left hnot⟩

/-- A store that owns a commit keeps a tip of its own that reaches it. -/
theorem owned_eq_ok {reaches : Reaches} (h : disk.owned path wanted = .ok reaches) {oid : Oid}
    (hoid : oid ∈ reaches.reached) : ∃ repository, disk.repository path = some repository ∧
      ∃ tip ∈ repository.ownTips, repository.Holds tip oid := by
  obtain ⟨_, _, repository, hrepository, _, hreach⟩ := reaching_eq_ok h hoid
  exact ⟨repository, hrepository, repository.mem_reach_iff.mp hreach⟩

theorem among_eq_ok (h : disk.among path revs held = .ok found) :
    (revs = [] ∧ found = []) ∨ ∃ repository, disk.repository path = some repository ∧
      found = outside repository.parents revs held repository.commits := by
  unfold among at h
  split at h
  · next hrevs =>
    cases h
    exact Or.inl ⟨hrevs, rfl⟩
  · exact Or.inr (runOk_eq_ok h)

/-- What is left is what the revisions hold and nothing held does. -/
theorem mem_among {repository : Repository disk.history} {oid : Oid}
    (hrepository : disk.repository path = some repository)
    (h : disk.among path revs held = .ok found) : oid ∈ found ↔
      (∃ tip ∈ revs, repository.Holds tip oid) ∧ ¬∃ other ∈ held, repository.Holds other oid := by
  rcases among_eq_ok h with ⟨rfl, rfl⟩ | ⟨other, hother, rfl⟩
  · simp
  · obtain rfl : repository = other := Option.some.inj (hrepository.symm.trans hother)
    rw [mem_outside]
    exact and_congr repository.mem_reach_iff (not_congr repository.mem_reach_iff)

theorem among_nodup (h : disk.among path revs held = .ok found) : found.Nodup := by
  rcases among_eq_ok h with ⟨_, rfl⟩ | ⟨repository, _, rfl⟩
  · exact List.nodup_nil
  · exact outside_nodup repository.newestFirst

/-- A commit of the revisions is left, or a held commit reaches it. -/
theorem among_covers {repository : Repository disk.history} {tip oid : Oid}
    (hrepository : disk.repository path = some repository)
    (h : disk.among path revs held = .ok found) (htip : tip ∈ revs)
    (hholds : repository.Holds tip oid) :
    oid ∈ found ∨ ∃ other ∈ held, repository.Holds other oid := by
  by_cases hheld : ∃ other ∈ held, repository.Holds other oid
  · exact Or.inr hheld
  · exact Or.inl ((mem_among hrepository h).mpr ⟨⟨tip, htip, hholds⟩, hheld⟩)

end Disk

end Nodal.Git
