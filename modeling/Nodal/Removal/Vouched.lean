import Nodal.Removal.Readings

/-!
# What a credited store has shown

A sibling is read before it may vouch, and so is the checkout where it is asked as a store. What the
checkout keeps under its own refs is taken out of the home's commits before any store is asked, and
nothing is asked of the checkout then but whether it is shallow.
-/

set_option autoImplicit false

namespace Nodal.Removal

open Git Foundation.Ancestry Foundation.Credit

/-- A store passed the whole reading for some commits: it admits nothing against itself, and the
walk of exactly those commits found every object. -/
def PassedFor (disk : Disk) (store home : Path) (commits : List Oid) : Prop :=
  admits disk store home = none ∧
    ∃ walked, (∀ commit, commit ∈ walked ↔ commit ∈ commits) ∧
      incomplete disk store home walked = none

/-- The commits of the home's tips that a ref of the checkout's own reaches. -/
def ownCredit (disk : Disk) (input : Input) : List Oid :=
  match disk.repository input.home with
  | none => []
  | some repository => (repository.reach (input.tips disk repository.refs)).filter
    (· ∈ repository.reach (input.outside disk repository.refs).own)

/-- A local store is credited with some commits of the home: a report names it over them, or it is
the checkout and they are what its own refs reach. -/
def Credited (disk : Disk) (input : Input) (found : History) (store : Path) (commits : List Oid) :
    Prop :=
  (.secondLocalCopy store, commits) ∈ found.parts ∨
    input.checkout = some store ∧ commits = ownCredit disk input ∧ commits ≠ []

variable {disk : Disk} {input : Input} {store home : Path} {commits : List Oid}

/-! ### Which stores pass -/

/-- A sibling, or a checkout asked as one, passed for what it is credited with.

Assumes: the history was read. -/
theorem second_local_copy_passed {found : History} (hfound : history disk input = .ok found)
    (h : (.secondLocalCopy store, commits) ∈ found.parts) :
    PassedFor disk store input.home commits := by
  rcases part_cases hfound h with ⟨witness, hproved⟩ | ⟨unproved, witness, hrefusing⟩
  · cases hproved
  · obtain ⟨asking, _, rfl, turn, holds, _, hasked, rfl⟩ := second_local_copy hrefusing
    obtain ⟨_, hadmits, hcomplete, reaches, howned, rfl⟩ := ask_eq_vouched hasked
    refine ⟨hadmits, reaches.reached, fun commit ↦ ?_, hcomplete⟩
    constructor
    · intro hreached
      have hwanted : commit ∈ turn := (Disk.reaching_eq_ok howned hreached).1
      exact List.mem_filter.mpr ⟨hwanted, decide_eq_true hreached⟩
    · intro htaken
      exact of_decide_eq_true (List.mem_filter.mp htaken).2

/-- Every credited store passed the whole reading for what it is credited with exactly when the
checkout would, where its own refs are credited.

Assumes: the history was read. -/
theorem credited_passed_iff {found : History} (hfound : history disk input = .ok found) :
    (∀ store commits, Credited disk input found store commits →
        PassedFor disk store input.home commits) ↔
      ∀ checkout, input.checkout = some checkout → ownCredit disk input ≠ [] →
        PassedFor disk checkout input.home (ownCredit disk input) := by
  constructor
  · intro h checkout hcheckout hsome
    exact h checkout _ (Or.inr ⟨hcheckout, rfl, hsome⟩)
  · rintro h store commits (hpart | ⟨hcheckout, rfl, hsome⟩)
    · exact second_local_copy_passed hfound hpart
    · exact h store hcheckout hsome

/-! ### A checkout that is a partial clone -/

private theorem beside_ordered : NewestFirst (fun _ ↦ []) [(⟨1⟩ : Oid)] := by
  decide

/-- A home with one commit and its work, beside a checkout that has the commit and, where it is a
partial clone, none of the work. -/
private def fetchedBeside (isPartial : Bool) : Disk :=
  .ordinaries (fun _ ↦ []) (fun commit ↦ [⟨commit.value⟩])
    (fun path ↦
      if path = "/home" then
        some { Repository.ordinary [⟨["refs", "heads", "main"], ⟨1⟩⟩]
          (.symbolic ["refs", "heads", "main"]) [⟨1⟩] beside_ordered with objects := [⟨1⟩] }
      else if path = "/project" then
        some { Repository.ordinary [⟨["refs", "heads", "main"], ⟨1⟩⟩]
          (.symbolic ["refs", "heads", "main"]) [⟨1⟩] beside_ordered with
          objects := if isPartial then [] else [⟨1⟩], promisor := isPartial }
      else none) fun _ _ ↦ none

private def besideProject : Input :=
  .refusal "/home" (some "/project") []

theorem credited_passed_iff_whole : ∃ found,
    history (fetchedBeside false) besideProject = .ok found ∧ ∀ store commits,
      Credited (fetchedBeside false) besideProject found store commits →
        PassedFor (fetchedBeside false) store "/home" commits := by
  have hanswers : (history (fetchedBeside false) besideProject).toOption.any (fun _ ↦ true) =
      true := by decide +kernel
  obtain ⟨found, hfound, _⟩ := answered_of_any hanswers
  refine ⟨found, hfound, (credited_passed_iff hfound).mpr fun checkout hcheckout _ ↦ ?_⟩
  cases hcheckout
  exact ⟨by decide +kernel, _, fun _ ↦ Iff.rfl, by decide +kernel⟩

theorem partial_checkout_credited : ∃ assessment,
    assess (fetchedBeside true) besideProject = .ok assessment ∧
      (assessment.verdict (fetchedBeside true) ["/home"] 0).isSafe = true ∧
      Credited (fetchedBeside true) besideProject assessment.history "/project" [⟨1⟩] ∧
      ¬PassedFor (fetchedBeside true) "/project" "/home" [⟨1⟩] := by
  have hanswers : (assess (fetchedBeside true) besideProject).toOption.any
      (fun assessment ↦ (assessment.verdict (fetchedBeside true) ["/home"] 0).isSafe) = true := by
    decide +kernel
  obtain ⟨assessment, hassess, hsafe⟩ := answered_of_any hanswers
  refine ⟨assessment, hassess, hsafe, Or.inr ⟨rfl, by decide +kernel, by decide⟩, fun h ↦ ?_⟩
  exact absurd h.1 (by decide +kernel)

end Nodal.Removal
