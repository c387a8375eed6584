import Nodal.Removal.Elsewhere

/-!
# What a record of a fetch says of a branch it does not list

`git/fetched.rs`, `lifecycle/witness.rs`: the record of a fetch is rewritten by every fetch, with a
line for each ref that fetch saw, and a fetch sees the refs it asked for. So a branch that is not
listed is either one the remote had not got or one nobody asked about. The refs of the checkout are
read beside the record to tell the two apart: a fetch that pruned took the ref of a dropped branch
away, and a fetch of one branch left every other ref standing.

A branch the checkout never tracked has no ref to leave standing, and there the two stay one. This
file says what a listing means after any sequence of fetches.
-/

set_option autoImplicit false

namespace Nodal.Removal

open Git Foundation.Ancestry

/-! ### A sequence of fetches -/

/-- What a fetch asked a remote for: the refspec it is configured with, or branches by name. -/
inductive Asked
  | all
  | named (branches : List RefName)
  deriving DecidableEq, Repr

/-- One fetch: what it asked for, the branches the remote had, when it was made, and whether it
pruned. -/
structure Fetch where
  asked : Asked
  remote : List RemoteTip
  readAt : Seconds
  prune : Bool
  deriving DecidableEq, Repr

/-- The branches of a fetch's own listing. -/
def branchesOf (tips : List RemoteTip) : List RefName :=
  tips.map RemoteTip.branch

namespace Fetch

/-- The branches the fetch saw. -/
def lists (fetch : Fetch) : List RemoteTip :=
  match fetch.asked with
  | .all => fetch.remote
  | .named branches => fetch.remote.filter (·.branch ∈ branches)

/-- The record Git writes for the fetch. -/
def record (fetch : Fetch) (url : String) : FetchHead :=
  ⟨fetch.lists.map fun tip ↦ ⟨tip.oid, .branch tip.branch, url⟩, fetch.readAt⟩

/-- The refs the fetch leaves: those it updated, and those it neither updated nor pruned. A fetch of
branches by name prunes nothing else. -/
def tracks (fetch : Fetch) (before : List RemoteTip) : List RemoteTip :=
  fetch.lists ++ before.filter fun tip ↦
    tip.branch ∉ branchesOf fetch.lists ∧ ¬(fetch.prune = true ∧ fetch.asked = .all)

/-- The fetch asked for every branch after the home's own record was written, and this one was not
there. -/
def Denies (fetch : Fetch) (wrote : Option Seconds) (branch : RefName) : Prop :=
  fetch.asked = .all ∧ strictlyLater fetch.readAt wrote = true ∧ branch ∉ branchesOf fetch.remote

end Fetch

/-- A clone as the fetches leave it: the refs it tracks, and the record of the last one. -/
structure Fetches where
  tracking : List RemoteTip
  record : Option FetchHead
  deriving DecidableEq, Repr

/-- One more fetch of the remote at a url. -/
def Fetches.after (url : String) (before : Fetches) (fetch : Fetch) : Fetches :=
  ⟨fetch.tracks before.tracking, some (fetch.record url)⟩

/-- A clone that tracks some branches and has made these fetches since. -/
def fetches (url : String) (tracking : List RemoteTip) (made : List Fetch) : Fetches :=
  made.foldl (Fetches.after url) ⟨tracking, none⟩

/-- The files of a checkout are what these fetches left. -/
structure LeftBy (disk : Disk) (checkout : Checkout) (url : String) (left : Fetches) : Prop where
  common : (disk.commonDir checkout.path).isSome = true
  record : disk.runOk checkout.path .fetchHead Repository.fetchHead = .ok left.record
  tracking : checkout.reading.remotes = left.tracking

variable {disk : Disk} {home : Path} {origin : Origin} {checkout : Checkout} {url : String}
  {tracking branches : List RemoteTip} {made : List Fetch} {last : Fetch} {branch : RefName}

/-! ### The record -/

theorem fetches_concat : fetches url tracking (made ++ [last]) =
    (fetches url tracking made).after url last := by
  simp [fetches]

/-- The record is the last fetch's, and what it is read as is what that fetch saw.

Assumes: the url has a name to compare, and the files are what the fetches left. -/
theorem fetched_of_fetches (hidentity : (disk.identity url).isSome = true)
    (h : LeftBy disk checkout url (fetches url tracking (made ++ [last]))) :
    fetched disk checkout.path url = some ⟨last.lists, last.readAt⟩ := by
  obtain ⟨wanted, hwanted⟩ := Option.isSome_iff_exists.mp hidentity
  obtain ⟨common, hcommon⟩ := Option.isSome_iff_exists.mp h.common
  have hlines : (last.record url).lines.filterMap (one disk.identity wanted) = last.lists := by
    simp [Fetch.record, List.filterMap_map, Function.comp_def, one, hwanted]
  have hrecord := h.record
  rw [fetches_concat] at hrecord
  simp only [fetched, hcommon, hrecord, hwanted, Fetches.after, Except.toOption, bind, Option.bind,
    Option.join_some, pure]
  rw [← hlines]
  rfl

/-! ### One answer -/

variable {observation : Observation} {tracks : List RefName} {wrote : Option Seconds}

theorem branch_eq_none_iff : observation.branch branch = none ↔
    branch ∉ branchesOf observation.seen := by
  simp [Observation.branch, branchesOf]

theorem Answer.tip?_eq_some {said : Answer} {tip : RemoteTip} :
    said.tip? = some tip ↔ said = .seen tip := by
  cases said <;> simp [Answer.tip?]

theorem Answer.unobserved?_eq_some {said : Answer} {why : Unobserved} :
    said.unobserved? = some why ↔ said = .unobserved why := by
  cases said <;> simp [Answer.unobserved?]

/-- A branch is vouched for at the commit the listing has, where the listing is not the older. -/
theorem answer_eq_seen {tip : RemoteTip}
    (h : answer observation tracks wrote branch = .seen tip) :
    tip.branch = branch ∧ tip ∈ observation.seen ∧ notOlder observation.readAt wrote = true := by
  refine ⟨?_, mem_seen_of_answer (Answer.tip?_eq_some.mpr h), ?_⟩ <;> unfold answer at h
  · split at h
    · split at h <;> cases h
      rfl
    · split at h
      · split at h <;> cases h
      · cases h
  · split at h
    · split at h
      · assumption
      · cases h
    · split at h
      · split at h <;> cases h
      · cases h

theorem answer_eq_unobserved {why : Unobserved}
    (h : answer observation tracks wrote branch = .unobserved why) : why.branch = branch := by
  unfold answer at h
  split at h
  · split at h <;> cases h
    rfl
  · split at h
    · split at h <;> cases h
      rfl
    · cases h
      rfl

/-- A branch is dropped where the listing is the later one, does not have it, and no ref of the
checkout does either. -/
theorem answer_eq_dropped_iff : answer observation tracks wrote branch = .dropped ↔
    branch ∉ branchesOf observation.seen ∧
      strictlyLater observation.readAt wrote = true ∧ branch ∉ tracks := by
  rw [← branch_eq_none_iff]
  unfold answer
  cases observation.branch branch with
  | some oid => cases notOlder observation.readAt wrote <;> simp
  | none =>
    cases strictlyLater observation.readAt wrote with
    | false => simp
    | true => by_cases h : branch ∈ tracks <;> simp [h]

/-! ### Every branch the home names -/

variable {seen : List RemoteTip} {unobserved : List Unobserved} {tip : RemoteTip}

/-- The answer about a branch the home names. -/
def said (disk : Disk) (home : Path) (observation : Observation) (checkout : Checkout)
    (branch : RefName) : Answer :=
  answer observation (branchesOf checkout.reading.remotes)
    (lastMoved disk home (TRACKING ++ [REMOTE] ++ branch)) branch

/-- What the home is told of a branch is the answer about it.

Assumes: the checkout has a record that lists something, and the home names the branch. -/
theorem observed_said (hfetched : fetched disk checkout.path origin.url = some observation)
    (hobserved : observed disk home (some origin) checkout branches = some (seen, unobserved))
    (htip : tip ∈ branches) :
    (∀ found ∈ seen, found.branch = tip.branch →
      said disk home observation checkout tip.branch = .seen found) ∧
      (tip.branch ∉ branchesOf seen ∧ tip.branch ∉ unobserved.map Unobserved.branch ↔
        said disk home observation checkout tip.branch = .dropped) := by
  obtain ⟨hseen, hunobserved⟩ :
      (answers disk home observation checkout branches).filterMap Answer.tip? = seen ∧
        (answers disk home observation checkout branches).filterMap Answer.unobserved? =
          unobserved := by
    obtain ⟨read, hread, h⟩ := Option.bind_eq_some_iff.mp hobserved
    obtain rfl : observation = read :=
      Option.some.inj (hfetched.symm.trans (Option.filter_eq_some_iff.mp hread).1)
    exact Prod.mk.inj (Option.some.inj h)
  have hsaid {one : Answer} : one ∈ answers disk home observation checkout branches ↔
      ∃ other ∈ branches, said disk home observation checkout other.branch = one := List.mem_map
  have hmine : said disk home observation checkout tip.branch ∈
      answers disk home observation checkout branches := hsaid.mpr ⟨tip, htip, rfl⟩
  -- two entries of one branch have one answer, so an answer is known by its branch
  have hfound : ∀ found ∈ seen, found.branch = tip.branch →
      said disk home observation checkout tip.branch = .seen found := by
    intro found hfound hbranch
    rw [← hseen] at hfound
    obtain ⟨one, hone, htold⟩ := List.mem_filterMap.mp hfound
    obtain ⟨other, _, rfl⟩ := hsaid.mp hone
    have hother := Answer.tip?_eq_some.mp htold
    rwa [← hbranch, (answer_eq_seen hother).1]
  refine ⟨hfound, ?_, ?_⟩
  · rintro ⟨hnone, hnowhy⟩
    cases htold : said disk home observation checkout tip.branch with
    | dropped => rfl
    | seen found =>
      refine absurd (List.mem_map.mpr ⟨found, ?_, (answer_eq_seen htold).1⟩) hnone
      rw [← hseen]
      exact List.mem_filterMap.mpr ⟨_, hmine, Answer.tip?_eq_some.mpr htold⟩
    | unobserved why =>
      refine absurd (List.mem_map.mpr ⟨why, ?_, answer_eq_unobserved htold⟩) hnowhy
      rw [← hunobserved]
      exact List.mem_filterMap.mpr ⟨_, hmine, Answer.unobserved?_eq_some.mpr htold⟩
  · intro hdropped
    constructor
    · intro hmem
      obtain ⟨found, hmem, hbranch⟩ := List.mem_map.mp hmem
      cases hdropped.symm.trans (hfound found hmem hbranch)
    · intro hmem
      obtain ⟨why, hmem, hbranch⟩ := List.mem_map.mp hmem
      rw [← hunobserved] at hmem
      obtain ⟨one, hone, htold⟩ := List.mem_filterMap.mp hmem
      obtain ⟨other, _, rfl⟩ := hsaid.mp hone
      have hother := Answer.unobserved?_eq_some.mp htold
      have hsame : other.branch = tip.branch := (answer_eq_unobserved hother).symm.trans hbranch
      rw [hsame, hdropped] at hother
      cases hother

/-! ### The rule -/

/-- What the checkout is believed of a branch, after any fetches: a commit counts only as the last
listing has it and only where that listing is not the older, and the branch is dropped only where
some later fetch of everything denied it. The first half always holds; the second fails exactly where
the last fetch is later, asked for other branches by name, and the checkout tracks no such branch.

Assumes: the files of the checkout are what the fetches left, and the home names the branch. -/
theorem absence_rule_iff
    (hleft : LeftBy disk checkout origin.url (fetches origin.url tracking (made ++ [last])))
    (hidentity : (disk.identity origin.url).isSome = true)
    (hobserved : observed disk home (some origin) checkout branches = some (seen, unobserved))
    (htip : tip ∈ branches) :
    ((∀ found ∈ seen, found.branch = tip.branch → found ∈ last.lists ∧ notOlder last.readAt
          (lastMoved disk home (TRACKING ++ [REMOTE] ++ tip.branch)) = true) ∧
      (tip.branch ∉ branchesOf seen → tip.branch ∉ unobserved.map Unobserved.branch →
        ∃ fetch ∈ made ++ [last],
          fetch.Denies (lastMoved disk home (TRACKING ++ [REMOTE] ++ tip.branch)) tip.branch)) ↔
      (last.asked = .all ∨ tip.branch ∈ branchesOf last.lists ∨
        strictlyLater last.readAt
          (lastMoved disk home (TRACKING ++ [REMOTE] ++ tip.branch)) = false ∨
        tip.branch ∈ branchesOf (fetches origin.url tracking (made ++ [last])).tracking ∨
        ∃ fetch ∈ made,
          fetch.Denies (lastMoved disk home (TRACKING ++ [REMOTE] ++ tip.branch)) tip.branch) := by
  obtain ⟨hcredited, hdropped⟩ :=
    observed_said (fetched_of_fetches hidentity hleft) hobserved htip
  have hsilent : tip.branch ∉ branchesOf seen ∧ tip.branch ∉ unobserved.map Unobserved.branch ↔
      tip.branch ∉ branchesOf last.lists ∧ strictlyLater last.readAt
          (lastMoved disk home (TRACKING ++ [REMOTE] ++ tip.branch)) = true ∧
        tip.branch ∉ branchesOf (fetches origin.url tracking (made ++ [last])).tracking := by
    rw [hdropped, ← hleft.tracking]
    exact answer_eq_dropped_iff
  constructor
  · rintro ⟨_, hrule⟩
    by_contra hcondition
    simp only [not_or, not_exists, not_and, Bool.not_eq_false] at hcondition
    obtain ⟨hasked, hlisted, hlater, htracked, hearlier⟩ := hcondition
    obtain ⟨hnone, hnowhy⟩ := hsilent.mpr ⟨hlisted, hlater, htracked⟩
    obtain ⟨fetch, hfetch, hdenies⟩ := hrule hnone hnowhy
    rcases List.mem_append.mp hfetch with hfetch | hfetch
    · exact hearlier fetch hfetch hdenies
    · obtain rfl := List.mem_singleton.mp hfetch
      exact hasked hdenies.1
  · intro hcondition
    refine ⟨fun found hfound hbranch ↦ (answer_eq_seen (hcredited found hfound hbranch)).2,
      fun hnone hnowhy ↦ ?_⟩
    obtain ⟨hlisted, hlater, htracked⟩ := hsilent.mp ⟨hnone, hnowhy⟩
    rcases hcondition with hasked | h | h | h | ⟨fetch, hfetch, hdenies⟩
    · refine ⟨last, List.mem_append_right _ (List.mem_singleton.mpr rfl), hasked, hlater, ?_⟩
      simpa [Fetch.lists, hasked] using hlisted
    · exact absurd h hlisted
    · rw [hlater] at h
      cases h
    · exact absurd h htracked
    · exact ⟨fetch, List.mem_append_left _ hfetch, hdenies⟩

/-! ### A branch the checkout never tracked -/

/-- A clone of a project with one branch, whose owner fetches that branch by name. -/
private def namedMain : Fetch :=
  ⟨.named [["main"]], [⟨["main"], ⟨1⟩⟩, ⟨["topic"], ⟨2⟩⟩], 20, false⟩

/-- The home pushed a branch of its own at 10, and the checkout holds what one fetch left. -/
private def pushedTopic (fetch : Fetch) : Disk :=
  .ordinaries (fun _ ↦ []) (fun _ ↦ [])
    (fun path ↦
      if path = "/home" then
        some { Repository.ordinary [⟨["refs", "heads", "topic"], ⟨2⟩⟩,
            ⟨["refs", "remotes", "origin", "topic"], ⟨2⟩⟩] (.symbolic ["refs", "heads", "topic"]) [⟨2⟩]
            (by decide) with
          remotes := ["origin"], origin := some "app", moved := fun _ ↦ some 10 }
      else if path = "/project" then
        some { Repository.ordinary [⟨["refs", "heads", "main"], ⟨1⟩⟩,
            ⟨["refs", "remotes", "origin", "main"], ⟨1⟩⟩] (.symbolic ["refs", "heads", "main"]) [⟨1⟩]
            (by decide) with
          remotes := ["origin"], origin := some "app"
          fetchHead := (fetches "app" [⟨["main"], ⟨1⟩⟩] [fetch]).record }
      else none) fun _ _ ↦ none

/-- The same owner fetches everything and prunes, once the remote has dropped the branch. -/
private def prunedAll : Fetch :=
  ⟨.all, [⟨["main"], ⟨1⟩⟩], 20, true⟩

theorem absence_rule_iff_pruned :
    (∀ found ∈ ([] : List RemoteTip), found.branch = ["topic"] →
        found ∈ prunedAll.lists ∧ notOlder prunedAll.readAt (some 10) = true) ∧
      (["topic"] ∉ branchesOf [] → ["topic"] ∉ ([] : List Unobserved).map Unobserved.branch →
        ∃ fetch ∈ [prunedAll], fetch.Denies (some 10) ["topic"]) := by
  have hleft : LeftBy (pushedTopic prunedAll) (Checkout.read (pushedTopic prunedAll) "/project")
      "app" (fetches "app" [⟨["main"], ⟨1⟩⟩] ([] ++ [prunedAll])) :=
    ⟨by decide +kernel, by decide +kernel, by decide +kernel⟩
  have hobserved : observed (pushedTopic prunedAll) "/home" (some ⟨"app", "app"⟩)
      (Checkout.read (pushedTopic prunedAll) "/project") [⟨["topic"], ⟨2⟩⟩] = some ([], []) := by
    decide +kernel
  exact (absence_rule_iff hleft (by decide) hobserved List.mem_cons_self).mpr (Or.inl rfl)

theorem named_fetch_drops :
    LeftBy (pushedTopic namedMain) (Checkout.read (pushedTopic namedMain) "/project") "app"
        (fetches "app" [⟨["main"], ⟨1⟩⟩] [namedMain]) ∧
      observed (pushedTopic namedMain) "/home" (some ⟨"app", "app"⟩)
        (Checkout.read (pushedTopic namedMain) "/project") [⟨["topic"], ⟨2⟩⟩] = some ([], []) ∧
      ¬∃ fetch ∈ [namedMain], fetch.Denies (lastMoved (pushedTopic namedMain) "/home"
        ["refs", "remotes", "origin", "topic"]) ["topic"] := by
  refine ⟨⟨by decide +kernel, by decide +kernel, by decide +kernel⟩, by decide +kernel, ?_⟩
  rintro ⟨fetch, hfetch, hasked, _⟩
  obtain rfl := List.mem_singleton.mp hfetch
  cases hasked

end Nodal.Removal
