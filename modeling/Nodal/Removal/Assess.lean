import Nodal.Foundation.Credit
import Nodal.Removal.Copies

/-!
# What removing a home would take away

`lifecycle/assess.rs`: one reading of a home. The paths of the working tree that carry work; the
home's own commits, less what the checkout keeps and what a reading of the remote proves, and then
each store in turn asked about what is left; and what is running against it.

The commits of a home are what its own refs reach: every ref outside `refs/remotes/` and
`refs/nodal/`, its `HEAD`, and the one ref a trash row names. They are sorted into lists, one for
each disposition, and a group is what a report keeps of a list: its count and its first few.
-/

set_option autoImplicit false

namespace Nodal.Removal

open Git Foundation.Ancestry Foundation.Credit

/-! ### What is asked -/

/-- The unit whose runtime to attribute: what its attribution read, and whether its home moves. -/
structure Attribution where
  reading : Runtime
  moves : Bool
  deriving DecidableEq, Repr

/-- One home, and how much of it to read. -/
structure Input where
  home : Path
  checkout : Option Path
  siblings : List Path
  /-- The ref a trash row names. -/
  work : Option RefName
  fate : Fate
  state : Bool
  declared : List RelPath
  dispositions : Bool
  runtime : Option Attribution
  deriving DecidableEq, Repr

/-- What a destructive operation asks. -/
def Input.refusal (home : Path) (checkout : Option Path) (siblings : List Path) : Input :=
  { home, checkout, siblings, work := none, fate := .trashed, state := false, declared := []
    dispositions := false, runtime := none }

/-! ### The working tree -/

/-- The files Nodal writes into a home that are its own when Git does not track them. -/
def OWN : List RelPath :=
  [[".nodal", "env"], [".envrc"], [".nodal", "manifest.toml"], [".nodal", "id"], ["WORKUNIT.md"],
    [".claude", "settings.json"]]

/-- Whether an entry is a file Nodal wrote into the home rather than work a person did. -/
def isNodalsOwn (entry : Entry) : Bool :=
  entry.state = .untracked ∧ entry.path ∈ OWN

/-- Whether a path, or a directory above it, is one the project declares. -/
def regenerable (path : RelPath) (declared : List RelPath) : Bool :=
  path.inits.any fun above ↦ declared.any fun named ↦ named.isSuffixOf above

/-- One group over a list of paths, or nothing when the list is empty. -/
def group (held : Held) (fate : Fate) (paths : List RelPath) : Option PathGroup :=
  if paths = [] then none else some ⟨held, fate, paths.length, paths.take SAMPLE, none⟩

/-- The paths of the entries a rule selects, leaving out the files Nodal wrote itself. -/
def pathsWhere (status : List Entry) (wanted : Entry → Bool) : List RelPath :=
  (status.filter fun entry ↦ wanted entry && !isNodalsOwn entry).map Entry.path

/-- The paths of the working tree that carry work, in the kinds they come in. -/
def working (status : List Entry) (fate : Fate) (declared : List RelPath) : List PathGroup :=
  let tracked := pathsWhere status fun entry ↦ entry.state = .tracked ∨ entry.state = .unmerged
  let untracked := pathsWhere status fun entry ↦ entry.state = .untracked
  [group .uncommitted fate tracked,
    group .untracked fate (untracked.filter (!regenerable · declared)),
    group .untrackedDeclared fate (untracked.filter (regenerable · declared))].reduceOption

/-- One group over classified paths, with what they hold. -/
def measured (held : Held) (fate : Fate) (candidates : List Candidate) : Option PathGroup :=
  if candidates = [] then none
  else some ⟨held, fate, candidates.length, (candidates.map Candidate.path).take SAMPLE,
    some (candidates.map Candidate.bytes).sum⟩

/-- The ignored state of the home, in the two kinds the trash contract splits it into. -/
def ignored (candidates : List Candidate) (fate : Fate) : List PathGroup :=
  [measured .generated fate (candidates.filter (·.regenerable)),
    measured .localState fate (candidates.filter (!·.regenerable))].reduceOption

/-! ### What the home's work hangs off -/

/-- Whether a ref is one a home keeps of its own accord. -/
def isItsOwn (name : RefName) : Bool :=
  !startsWith TRACKING name && !startsWith NAMESPACE name

/-- Whether `HEAD` names one of the refs already read. -/
def checkedOut (disk : Disk) (home : Path) (names : List RefName) : Bool :=
  match disk.headFile home with
  | some (.symbolic name) => name ∈ names
  | _ => false

/-- The tips the reading starts from. -/
def resolve (disk : Disk) (home : Path) (work : Option RefName) (refs : List Ref) : List Oid :=
  let own := refs.filter (isItsOwn ·.name)
  let head := if checkedOut disk home (own.map Ref.name) then []
    else (disk.revParseHead home).toOption.toList
  let recorded := (work.bind fun name ↦ refs.find? (·.name = name)).toList.map Ref.oid
  sorted (own.map Ref.oid ++ head ++ recorded)

/-! ### The stores -/

/-- What a store is to the home being read. -/
inductive Role
  | checkout
  | sibling
  deriving DecidableEq, Repr

/-- Whether a store answered the question it was asked. -/
inductive Answered
  | yes
  | no
  | notAsked
  deriving DecidableEq, Repr

/-- One store's row of the evidence record. -/
structure Store where
  path : Path
  role : Role
  answered : Answered
  why : Option String
  deriving DecidableEq, Repr

def ACCOUNTED_FOR : String := "every commit was already accounted for"

def ITSELF : String := "this is the home being read"

def UNREADABLE : String := "not a readable repository, or its own reading failed"

def NOTHING_TO_LOOK_FOR : String :=
  "the home holds no commit the project does not already reach"

/-- Every store a reading may ask, in the order it asks them, each with what it is. -/
def stores (checkout : Option Path) (siblings : List Path) : List (Path × Role) :=
  checkout.toList.map (·, .checkout) ++ siblings.map (·, .sibling)

/-- Which of these commits one repository really holds. -/
def holdsOf (disk : Disk) (store : Path) (commits : List Oid) : Option Reaches := do
  let _ ← (disk.openRepository store).toOption
  (disk.owned store commits).toOption

/-- A store that may not vouch, and which of the commits it has anyway. -/
def doubted (lacking : Lacking) (has : List Oid) : Reply Lacking Oid :=
  if has = [] then .silent else .doubted lacking has

/-- What one store says of the commits that are left. -/
def ask (disk : Disk) (home : Path) (store : Path × Role) (left : List Oid) :
    Reply Lacking Oid :=
  if disk.resolve store.1 = disk.resolve home then .silent
  else match admits disk store.1 home with
    | some lacking => doubted lacking ((disk.stores store.1 left).toOption.getD [])
    | none => match holdsOf disk store.1 left with
      | none => .silent
      | some reaches =>
        if reaches.reached = [] then .silent
        else match incomplete disk store.1 home reaches.reached with
          | some lacking => doubted lacking reaches.stored
          | none => .vouched reaches.reached

/-- The row one store leaves, given what was left when its turn came. -/
def asked (disk : Disk) (home : Path) (store : Path × Role) (left : List Oid) : Store :=
  let row (answered : Answered) (why : Option String) : Store := ⟨store.1, store.2, answered, why⟩
  if left = [] then row .notAsked (some ACCOUNTED_FOR)
  else if disk.resolve store.1 = disk.resolve home then row .notAsked (some ITSELF)
  else match admits disk store.1 home with
    | some lacking => row .no (some lacking.because)
    | none => match holdsOf disk store.1 left with
      | none => row .no (some UNREADABLE)
      | some reaches =>
        if reaches.reached = [] then row .yes none
        else match incomplete disk store.1 home reaches.reached with
          | some lacking => row .no (some lacking.because)
          | none => row .yes none

/-- What every store on this machine answered about the commits nothing else proved. -/
structure Found where
  held : List (Path × List Oid)
  unread : List Incomplete
  unchecked : List Oid
  only : List Oid
  rows : List Store
  deriving DecidableEq, Repr

/-- Split the commits no remote reading proved into the ones another object store holds and the ones
nothing does. -/
def localCopies (disk : Disk) (home : Path) (checkout : Option Path) (siblings : List Path)
    (unproved : List Oid) : Found :=
  let settled := settle (ask disk home) (stores checkout siblings) unproved
  let unread := settled.doubtful.filter fun doubt ↦ settled.left.any (· ∈ doubt.2.2)
  let doubts := settled.doubtful.flatMap (·.2.2)
  { held := settled.held.map fun credit ↦ (credit.1.1, credit.2)
    unread := unread.map fun doubt ↦ ⟨doubt.1.1, doubt.2.1⟩
    unchecked := settled.left.filter (· ∈ doubts)
    only := settled.left.filter (· ∉ doubts)
    rows := settled.turns.map fun turn ↦ asked disk home turn.1 turn.2 }

/-! ### The commits -/

/-- How the commits nothing proved are reported. -/
def unreached (witness : Witness) : Copies :=
  if witness.isUnchecked then .notChecked witness [] else .onlyHere witness

/-- How the commits a store holds and could not vouch for are reported. -/
def unchecked (witness : Witness) (stores : List Incomplete) : Copies :=
  .notChecked witness stores

/-- The dispositions a refusal is raised over, and the stores that made it act on fewer. -/
def refusing (witness : Witness) (found : Found) : List (Copies × List Oid) :=
  found.held.map (fun held ↦ (Copies.secondLocalCopy held.1, held.2)) ++
    [(unchecked witness found.unread, found.unchecked), (unreached witness, found.only)]

/-- The home's own commits, sorted by where else they live. -/
structure History where
  parts : List (Copies × List Oid)
  remotes : List String
  /-- How many commits the reading came to. -/
  commits : ℕ
  rows : List Store
  deriving DecidableEq, Repr

/-- Every store, each recorded as not asked for one reason. -/
def unasked (input : Input) : List Store :=
  (stores input.checkout input.siblings).map fun store ↦
    ⟨store.1, store.2, .notAsked, some NOTHING_TO_LOOK_FOR⟩

/-- The home's own commits, sorted by where else they live, and the remotes it names. A caller that
did not ask for the dispositions takes the shorter path. -/
def history (disk : Disk) (input : Input) : Except Failure History := do
  let remotes ← disk.remotes input.home
  let refs ← disk.allRefs input.home
  let found := elsewhere disk input.home (input.checkout.map (Checkout.read disk)) refs
  let tips := resolve disk input.home input.work refs
  let witness := Witness.of remotes found
  if input.dispositions then
    let ours ← disk.among input.home tips found.own
    if ours = [] then return ⟨[], remotes, 0, unasked input⟩
    let unproved ← disk.among input.home tips found.tips
    let copies := localCopies disk input.home input.checkout input.siblings unproved
    return ⟨(.remoteProved witness, ours.filter (· ∉ unproved)) :: refusing witness copies, remotes,
      ours.length, copies.rows⟩
  else
    let unproved ← disk.among input.home tips found.tips
    if unproved = [] then return ⟨[], remotes, 0, unasked input⟩
    let copies := localCopies disk input.home input.checkout input.siblings unproved
    return ⟨refusing witness copies, remotes, unproved.length, copies.rows⟩

/-! ### The assessment -/

/-- Everything a reclaim of a home would have an opinion about. -/
structure Assessment where
  home : Path
  moves : Bool
  history : History
  paths : List PathGroup
  runtime : Option Runtime
  deriving DecidableEq, Repr

/-- The commits, one group for each disposition that covers any. -/
def Assessment.commits (assessment : Assessment) : List CommitGroup :=
  assessment.history.parts.filterMap fun part ↦ commitGroup part.1 part.2

/-- Read a home, and report everything a reclaim of it would have an opinion about. -/
def assess (disk : Disk) (input : Input) : Except Failure Assessment := do
  disk.openRepository input.home
  let status ← disk.status input.home
  let candidates := ((disk.repository input.home).map Repository.ignored).getD []
  let state := if input.state then ignored candidates input.fate else []
  let history ← history disk input
  return {
    home := input.home
    moves := input.runtime.any (·.moves)
    history
    paths := working status input.fate input.declared ++ state
    runtime := input.runtime.map Attribution.reading }

end Nodal.Removal
