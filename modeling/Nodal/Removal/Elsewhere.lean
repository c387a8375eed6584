import Nodal.Git.Reading

/-!
# What already exists outside a home

`lifecycle/witness.rs`, `git/fetched.rs`: what a removal may rest on, from the project's checkout
alone. The checkout keeps commits of its own, and it may have read the remote. It witnesses the
remote in one of two ways: it is what the home's `origin` names, and then its branches are the
remote; or it shares the home's `origin`, and then its last fetch is a dated listing of the remote's
branches, worth something for a branch only where it is not older than the home's own record of it.

A tip counts only where the checkout's object store has it. A reading that fails leaves nothing
credited.
-/

set_option autoImplicit false

namespace Nodal.Removal

open Git Foundation.Ancestry

/-! ### The record of a fetch -/

/-- What the last fetch in one repository saw of one remote, and when it was made. -/
structure Observation where
  seen : List RemoteTip
  readAt : Seconds
  deriving DecidableEq, Repr

/-- Where an observation found one branch. -/
def Observation.branch (observation : Observation) (name : RefName) : Option Oid :=
  (observation.seen.find? (·.branch = name)).map RemoteTip.oid

/-- One line as a branch of the wanted remote, and nothing for every other line. -/
def one (identity : String → Option String) (wanted : String) (line : Line) : Option RemoteTip :=
  match line.what with
  | .branch name => if identity line.url = some wanted then some ⟨name, line.oid⟩ else none
  | _ => none

/-- The last fetch a repository made of the remote at a url. -/
def fetched (disk : Disk) (repo : Path) (url : String) : Option Observation := do
  let _ ← disk.commonDir repo
  let record ← (disk.runOk repo .fetchHead Repository.fetchHead).toOption.join
  let wanted ← disk.identity url
  return ⟨record.lines.filterMap (one disk.identity wanted), record.written⟩

/-- When a ref of a checkout last moved, where its files say. -/
def lastMoved (disk : Disk) (checkout : Path) (name : RefName) : Option Seconds := do
  let _ ← disk.commonDir checkout
  let repository ← disk.repository checkout
  repository.moved name

/-! ### What a reading says about a branch -/

/-- Why a reading of the remote answers for no state of one branch. -/
inductive Unread
  | older
  | unnamed
  deriving DecidableEq, Repr

/-- One branch a reading of the remote says nothing about, and which reading it was. -/
structure Unobserved where
  branch : RefName
  reading : Unread
  deriving DecidableEq, Repr

/-- Whether a reading is not older than the home's own record. -/
def notOlder (read : Seconds) (wrote : Option Seconds) : Bool :=
  wrote.all (· ≤ read)

/-- Whether a reading is later than the home's own record. -/
def strictlyLater (read : Seconds) (wrote : Option Seconds) : Bool :=
  wrote.all (· < read)

/-- What becomes of one branch the home names. -/
inductive Answer
  | seen (tip : RemoteTip)
  | dropped
  | unobserved (why : Unobserved)
  deriving DecidableEq, Repr

/-- What a dated listing says about one branch the home names, given which branches the checkout
still tracks and when the home wrote its own record of this one. -/
def answer (observation : Observation) (tracks : List RefName) (wrote : Option Seconds)
    (branch : RefName) : Answer :=
  match observation.branch branch with
  | some oid =>
    if notOlder observation.readAt wrote then .seen ⟨branch, oid⟩ else .unobserved ⟨branch, .older⟩
  | none =>
    if strictlyLater observation.readAt wrote then
      if branch ∈ tracks then .unobserved ⟨branch, .unnamed⟩ else .dropped
    else .unobserved ⟨branch, .older⟩

/-- The tip an answer vouches for. -/
def Answer.tip? : Answer → Option RemoteTip
  | .seen tip => some tip
  | _ => none

/-- The branch an answer leaves open. -/
def Answer.unobserved? : Answer → Option Unobserved
  | .unobserved why => some why
  | _ => none

/-! ### The checkout -/

/-- A repository's `origin`, as it is written and as it is grouped. -/
structure Origin where
  url : String
  name : String
  deriving DecidableEq, Repr

/-- The `origin` of a repository, where it has one to read. -/
def named (disk : Disk) (repo : Path) : Option Origin := do
  let url ← (disk.remoteUrl repo).toOption.join
  let name := disk.normalize url
  if name = "" then none else some ⟨url, name⟩

/-- The project's own checkout, read once. -/
structure Checkout where
  path : Path
  reading : CloneReading
  origin : Option String
  held : List Oid
  deriving DecidableEq, Repr

/-- Read the checkout. One that could not be read is read no further. -/
def Checkout.read (disk : Disk) (path : Path) : Checkout :=
  let reading := disk.reading path
  if reading.unreadable.isNone ∧ reading.shallow = false then
    let origin := (named disk path).map Origin.name
    match disk.stores path reading.tips with
    | .ok held => ⟨path, reading, origin, held⟩
    | .error failure => ⟨path, { reading with unreadable := some failure }, origin, []⟩
  else ⟨path, reading, none, []⟩

/-- How a checkout stands to a home's `origin`. -/
inductive Relation
  | sameRemote
  | isTheRemote
  | unrelated
  deriving DecidableEq, Repr

/-- Which of the three a pair is. -/
def relation (disk : Disk) (origin : Option String) (checkout : Checkout) : Relation :=
  match origin with
  | none => .unrelated
  | some origin =>
    if checkout.origin = some origin then .sameRemote
    else if (disk.canonicalize checkout.path).any (disk.normalize · = origin) then .isTheRemote
    else .unrelated

/-- What the checkout's last fetch says about each branch the home names. -/
def answers (disk : Disk) (home : Path) (observation : Observation) (checkout : Checkout)
    (branches : List RemoteTip) : List Answer :=
  branches.map fun tip ↦
    answer observation (checkout.reading.remotes.map RemoteTip.branch)
      (lastMoved disk home (TRACKING ++ [REMOTE] ++ tip.branch)) tip.branch

/-- The branches the checkout's last fetch observed, and the ones it could not answer for. -/
def observed (disk : Disk) (home : Path) (origin : Option Origin) (checkout : Checkout)
    (branches : List RemoteTip) : Option (List RemoteTip × List Unobserved) := do
  let origin ← origin
  let observation ← (fetched disk checkout.path origin.url).filter fun read ↦ !read.seen.isEmpty
  let said := answers disk home observation checkout branches
  return (said.filterMap Answer.tip?, said.filterMap Answer.unobserved?)

/-- What the checkout may say the remote has, and the branches it leaves open. -/
def witness (disk : Disk) (home : Path) (origin : Option Origin) (related : Relation)
    (checkout : Checkout) (branches : List RemoteTip) :
    Option (List RemoteTip × List Unobserved) :=
  match related with
  | .sameRemote =>
    if checkout.reading.complete then observed disk home origin checkout branches else none
  | .isTheRemote => some (disk.heads checkout.path, [])
  | .unrelated => none

/-! ### Everything this machine can say -/

/-- What this machine can prove already exists outside one home. -/
structure Elsewhere where
  own : List Oid := []
  copies : List Oid := []
  remote : List Oid := []
  witnesses : List Path := []
  direct : Bool := false
  unobserved : List Unobserved := []
  deriving DecidableEq, Repr

/-- Two sets of identifiers as one sorted set. -/
def union (left right : List Oid) : List Oid :=
  sorted (left ++ right)

/-- Every tip a removal may rest on. -/
def Elsewhere.tips (found : Elsewhere) : List Oid :=
  union found.own found.remote

/-- The tips the checkout really holds, out of its own and whatever a witness added. -/
def holdings (disk : Disk) (checkout : Checkout) (trusted : List Oid) :
    Except Failure (List Oid) := do
  let extra := trusted.filter (· ∉ checkout.reading.tips)
  if extra = [] then return checkout.held
  let vouched ← disk.held checkout.path extra
  return union checkout.held vouched

/-- Everything this machine can say about where a home's commits also live. -/
def elsewhere (disk : Disk) (home : Path) (checkout : Option Checkout) (refs : List Ref) :
    Elsewhere :=
  match checkout with
  | none => {}
  | some checkout =>
    if checkout.reading.unreadable.isSome ∨ checkout.reading.shallow = true then {}
    else
      let origin := named disk home
      let related := relation disk (origin.map Origin.name) checkout
      let branches := trackedIn refs
      let said := witness disk home origin related checkout branches
      let trusted : Trusted := match said with
        | none => {}
        | some (remotes, _) => disk.believed ⟨home, { remotes := branches }⟩
            [⟨checkout.path, { checkout.reading with remotes }⟩]
      match holdings disk checkout trusted.tips with
      | .error _ => {}
      | .ok held =>
        let own := checkout.reading.own.filter (· ∈ held)
        let remote := trusted.tips.filter (· ∈ held)
        { own, remote, copies := held.filter (· ∉ own ++ remote), witnesses := trusted.witnesses
          direct := related = .isTheRemote
          unobserved := (said.map Prod.snd).getD [] }

/-! ### What is credited -/

/-- A commit the checkout says the remote has: a branch of the checkout, where it is the remote, or
a branch on a dated line of its last fetch, where it shares the remote. -/
def ReadFromRemote (disk : Disk) (home checkout : Path) (oid : Oid) : Prop :=
  ∃ tip : RemoteTip, tip.oid = oid ∧
    ((relation disk ((named disk home).map Origin.name) (Checkout.read disk checkout) =
        .isTheRemote ∧ tip ∈ disk.heads checkout) ∨
      (relation disk ((named disk home).map Origin.name) (Checkout.read disk checkout) =
        .sameRemote ∧ ∃ origin observation, named disk home = some origin ∧
          fetched disk checkout origin.url = some observation ∧ tip ∈ observation.seen))

variable {disk : Disk} {home checkout : Path} {refs : List Ref} {oid : Oid}

@[simp] theorem Checkout.read_path : (Checkout.read disk checkout).path = checkout := by
  dsimp only [Checkout.read]
  split
  · split <;> rfl
  · rfl

/-- A branch the answer vouches for is on a line of the listing. -/
theorem mem_seen_of_answer {observation : Observation} {tracks : List RefName}
    {wrote : Option Seconds} {branch : RefName} {tip : RemoteTip}
    (h : (answer observation tracks wrote branch).tip? = some tip) : tip ∈ observation.seen := by
  unfold answer at h
  split at h
  · next seen hbranch =>
    split at h
    · obtain ⟨found, hfound, rfl⟩ := Option.map_eq_some_iff.mp hbranch
      obtain rfl : ⟨branch, found.oid⟩ = tip := Option.some.inj h
      have hname : found.branch = branch := by simpa using List.find?_some hfound
      exact hname ▸ List.mem_of_find?_eq_some hfound
    · cases h
  · split at h
    · split at h <;> cases h
    · cases h

/-- Whatever the witness says the remote has was read from the remote. -/
theorem readFromRemote_of_witness {tips : List RemoteTip} {unobserved : List Unobserved}
    (h : witness disk home (named disk home)
      (relation disk ((named disk home).map Origin.name) (Checkout.read disk checkout))
      (Checkout.read disk checkout) (trackedIn refs) = some (tips, unobserved))
    {tip : RemoteTip} (htip : tip ∈ tips) : ReadFromRemote disk home checkout tip.oid := by
  refine ⟨tip, rfl, ?_⟩
  unfold witness at h
  split at h
  · next hrelated =>
    split at h
    · refine Or.inr ⟨hrelated, ?_⟩
      obtain ⟨origin, horigin, h⟩ := Option.bind_eq_some_iff.mp h
      obtain ⟨observation, hfetched, h⟩ := Option.bind_eq_some_iff.mp h
      obtain ⟨rfl, _⟩ := Prod.mk.inj (Option.some.inj h)
      obtain ⟨said, hsaid, hseen⟩ := List.mem_filterMap.mp htip
      obtain ⟨branch, _, rfl⟩ := List.mem_map.mp hsaid
      rw [Checkout.read_path] at hfetched
      exact ⟨origin, observation, horigin, (Option.filter_eq_some_iff.mp hfetched).1,
        mem_seen_of_answer hseen⟩
    · cases h
  · next hrelated =>
    obtain ⟨rfl, _⟩ := Prod.mk.inj (Option.some.inj h)
    rw [Checkout.read_path] at htip
    exact Or.inl ⟨hrelated, htip⟩
  · cases h

/-- The reading of a checkout that could be read lists its own refs. -/
theorem own_of_reading (h : oid ∈ (Checkout.read disk checkout).reading.own) :
    ∃ repository, disk.repository checkout = some repository ∧
      oid ∈ repository.ownRefs.map Ref.oid := by
  have hreading : oid ∈ (disk.reading checkout).own := by
    dsimp only [Checkout.read] at h
    split at h
    · split at h <;> exact h
    · exact h
  unfold Disk.reading at hreading
  split at hreading
  · cases hreading
  · unfold Disk.readingOf at hreading
    split at hreading
    · cases hreading
    · next refs hrefs =>
      split at hreading
      · cases hreading
      · obtain ⟨repository, hrepository, rfl⟩ := Disk.runOk_eq_ok hrefs
        exact ⟨repository, hrepository, hreading⟩

/-- What the checkout is credited with of its own accord is a tip of a ref of its own. -/
theorem own_of_elsewhere
    (h : oid ∈ (elsewhere disk home ((some checkout).map (Checkout.read disk)) refs).own) :
    ∃ repository, disk.repository checkout = some repository ∧
      oid ∈ repository.ownRefs.map Ref.oid := by
  dsimp only [elsewhere, Option.map_some] at h
  split at h
  · cases h
  · split at h
    · cases h
    · exact own_of_reading (List.mem_filter.mp h).1

/-- What is credited to the remote, a tip read from the remote reaches. -/
theorem remote_of_elsewhere
    (h : oid ∈ (elsewhere disk home ((some checkout).map (Checkout.read disk)) refs).remote) :
    ∃ tip, ReadFromRemote disk home checkout tip ∧ Descends disk.history tip oid := by
  dsimp only [elsewhere, Option.map_some] at h
  split at h
  · cases h
  · split at h
    · cases h
    · have htrusted := (List.mem_filter.mp h).1
      split at htrusted
      · cases htrusted
      · next tips unobserved hwitness =>
        obtain ⟨subject, hsubject, seen, hseen, hreaches⟩ := believed_reached htrusted
        obtain rfl := List.mem_singleton.mp hsubject
        exact ⟨seen.oid, readFromRemote_of_witness hwitness hseen, hreaches⟩

end Nodal.Removal
