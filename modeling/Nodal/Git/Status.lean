import Nodal.Foundation.Text
import Nodal.Git.Repository

/-!
# The records of `git status`, and what is read out of them

`git/status.rs`: the NUL-separated records of `git status --porcelain=v2 --branch -z` are absorbed one
by one into what `HEAD` points at, the upstream and its distance, and one entry for each path. Counts
that Git leaves out stay zero.

What Git writes of a working tree is read back as it was, but for two counts: the distance of a branch
whose upstream is not there is read as none at all (`parse_records`), and so is one that does not fit 32
bits.
-/

set_option autoImplicit false

namespace Nodal.Git.Status

open Foundation

/-! ### What is read -/

/-- What `HEAD` points at. -/
inductive Head
  | branch (name : Text)
  | detached (oid : Text)
  | unborn (name : Text)
  deriving DecidableEq

/-- How one path differs, on the index side or the worktree side. -/
inductive Change
  | unmodified
  | added
  | modified
  | deleted
  | renamed
  | copied
  | typeChanged
  | other (code : Char)
  deriving DecidableEq

/-- Map one status character of the `XY` field. -/
def Change.parse : Char → Change
  | '.' => .unmodified
  | 'A' => .added
  | 'M' => .modified
  | 'D' => .deleted
  | 'R' => .renamed
  | 'C' => .copied
  | 'T' => .typeChanged
  | code => .other code

/-- The status of one path. -/
inductive State
  | tracked (index worktree : Change)
  | unmerged
  | untracked
  | ignored
  deriving DecidableEq

/-- What a record's `<sub>` field says about the path it names. -/
inductive Submodule
  | no
  | yes (commitMoved modified untracked : Bool)
  deriving DecidableEq

/-- Read one `<sub>` field. Anything that is not a four-letter `S` record is not a submodule. -/
def Submodule.parse : Text → Submodule
  | ['S', commit, modified, untracked] => .yes (commit = 'C') (modified = 'M') (untracked = 'U')
  | _ => .no

/-- One entry of a status listing. -/
structure Entry where
  path : Text
  /-- The path this one was renamed or copied from. -/
  origin : Option Text
  state : State
  submodule : Submodule
  deriving DecidableEq

/-- Whether this entry represents work that a commit would capture. -/
def Entry.isUncommitted (entry : Entry) : Bool := entry.state ≠ .ignored

/-- A whole `git status` reading. -/
structure Summary where
  head : Head
  upstream : Option Text
  /-- Commits on `HEAD` that the upstream does not have. -/
  ahead : ℕ
  /-- Commits on the upstream that `HEAD` does not have. -/
  behind : ℕ
  entries : List Entry
  deriving DecidableEq

/-- The paths that carry work a commit would capture. -/
def Summary.uncommitted (summary : Summary) : List Entry := summary.entries.filter Entry.isUncommitted

inductive Error
  | gitParse (record : Text)
  | gitOid (text : Text)
  deriving DecidableEq

/-! ### The headers -/

/-- The header fields collected while parsing. -/
structure Headers where
  oid : Option Text := none
  branch : Option Text := none
  upstream : Option Text := none
  ahead : ℕ := 0
  behind : ℕ := 0
  deriving DecidableEq

namespace Headers

/-- Absorb one of the `+N -M` counts. -/
def absorbCount (headers : Headers) (count : Text) : Headers :=
  match count with
  | [] => headers
  | sign :: digits => match Text.parseU32 digits with
    | none => headers
    | some number =>
      if sign = '+' then { headers with ahead := number }
      else if sign = '-' then { headers with behind := number }
      else headers

/-- Absorb the `+N -M` ahead/behind counts. -/
def absorbAb (headers : Headers) (value : Text) : Headers :=
  (Text.split ' ' value).foldl absorbCount headers

/-- A record without the marks of a header before it. -/
def unmarked : Text → Text
  | '#' :: ' ' :: rest => unmarked rest
  | record => record

def OID : Text := "branch.oid".toList

def HEAD : Text := "branch.head".toList

def UPSTREAM : Text := "branch.upstream".toList

def AB : Text := "branch.ab".toList

/-- Absorb one `# key value` header line. -/
def absorb (headers : Headers) (record : Text) : Headers :=
  match Text.splitOnce ' ' (unmarked record) with
  | none => headers
  | some (key, value) =>
    if key = OID then { headers with oid := some value }
    else if key = HEAD then { headers with branch := some value }
    else if key = UPSTREAM then { headers with upstream := some value }
    else if key = AB then headers.absorbAb value
    else headers

/-- Whether a text is a full object id. -/
def isOid (text : Text) : Bool :=
  (text.length = 40 ∨ text.length = 64) ∧ text.all fun c ↦ c.isDigit || ('a' ≤ c && c ≤ 'f')

def DETACHED : Text := "(detached)".toList

def INITIAL : Text := "(initial)".toList

/-- Resolve the headers into what `HEAD` points at. -/
def head (headers : Headers) : Except Error Head :=
  let branch := headers.branch.getD DETACHED
  let oid := headers.oid.getD INITIAL
  if branch = DETACHED ∧ oid = INITIAL then .error (.gitParse "# branch.head".toList)
  else if branch = DETACHED then
    if isOid oid then .ok (.detached oid) else .error (.gitOid oid)
  else if oid = INITIAL then .ok (.unborn branch)
  else .ok (.branch branch)

end Headers

/-! ### The entries -/

/-- Split the `XY <sub> <fields…> <path>` tail of a record into its state, its submodule and its path. -/
def splitFields (body : Text) (fields : ℕ) : Except Error (State × Submodule × Text) :=
  match Text.splitN ' ' (fields + 1) body with
  | codes :: sub :: rest => match rest.getLast? with
    | none => .error (.gitParse body)
    | some path =>
      if rest.length + 2 ≠ fields + 1 ∨ path = [] then .error (.gitParse body)
      else match codes with
        | [index, worktree] =>
          .ok (.tracked (.parse index) (.parse worktree), Submodule.parse sub, path)
        | _ => .error (.gitParse body)
  | _ => .error (.gitParse body)

/-- `1 <XY> <sub> <mH> <mI> <mW> <hH> <hI> <path>` -/
def ordinary (body : Text) : Except Error Entry := do
  let (state, submodule, path) ← splitFields body 7
  return { path, origin := none, state, submodule }

/-- `2 <XY> <sub> <mH> <mI> <mW> <hH> <hI> <Xscore> <path>` with the origin path next. -/
def renamed (body : Text) (origin : Option Text) : Except Error Entry := do
  let (state, submodule, path) ← splitFields body 8
  match origin with
  | none => .error (.gitParse body)
  | some origin => return { path, origin := some origin, state, submodule }

/-- `u <XY> <sub> <m1> <m2> <m3> <mW> <h1> <h2> <h3> <path>` -/
def unmerged (body : Text) : Except Error Entry := do
  let (_, submodule, path) ← splitFields body 9
  return { path, origin := none, state := .unmerged, submodule }

/-- `? <path>` and `! <path>`, which carry no `<sub>` field. -/
def plain (body : Text) (state : State) : Entry :=
  { path := body, origin := none, state, submodule := .no }

/-- Read the records one by one, into the headers and the entries read so far. -/
def parseFrom (headers : Headers) (entries : List Entry) :
    List Text → Except Error (Headers × List Entry)
  | [] => .ok (headers, entries)
  | [] :: _ => .error (.gitParse [])
  | (code :: body) :: rest =>
    if code = '#' then parseFrom (headers.absorb (code :: body)) entries rest
    else if code = '1' then do
      let entry ← ordinary (Text.trimStart body)
      parseFrom headers (entries ++ [entry]) rest
    else if code = '2' then
      match rest with
      | [] => do
        let entry ← renamed (Text.trimStart body) none
        parseFrom headers (entries ++ [entry]) []
      | origin :: rest => do
        let entry ← renamed (Text.trimStart body) (some origin)
        parseFrom headers (entries ++ [entry]) rest
    else if code = 'u' then do
      let entry ← unmerged (Text.trimStart body)
      parseFrom headers (entries ++ [entry]) rest
    else if code = '?' then parseFrom headers (entries ++ [plain (Text.trimStart body) .untracked]) rest
    else if code = '!' then parseFrom headers (entries ++ [plain (Text.trimStart body) .ignored]) rest
    else .error (.gitParse (code :: body))

/-- Parse the records of `git status --porcelain=v2 --branch -z`. -/
def parse (records : List Text) : Except Error Summary := do
  let (headers, entries) ← parseFrom {} [] records
  let head ← headers.head
  return { head, upstream := headers.upstream, ahead := headers.ahead, behind := headers.behind, entries }

/-! ### What Git writes -/

/-- The record of a path that differs: how on each side, the fields after that, and the path. -/
structure Fields (count : ℕ) where
  index : Char
  worktree : Char
  sub : Text
  more : List Text
  path : Text
  codes : Text.isWhitespace index = false ∧ Text.isWhitespace worktree = false
  differs : index ≠ '.' ∨ worktree ≠ '.'
  spaceless : ∀ field ∈ sub :: more, ' ' ∉ field
  length : more.length + 2 = count
  named : path ≠ []

namespace Fields

variable {count : ℕ} (fields : Fields count)

/-- What stands after the code of a record. -/
def tail : Text :=
  Text.joined ' ' ([fields.index, fields.worktree] :: fields.sub :: fields.more) ++ fields.path

def state : State := .tracked (.parse fields.index) (.parse fields.worktree)

end Fields

/-- One path of a working tree that differs, as Git lists it. -/
inductive Changed
  | ordinary (fields : Fields 7)
  | renamed (fields : Fields 8) (origin : Text)
  | unmerged (fields : Fields 9)
  | untracked (path : Text)

namespace Changed

def records : Changed → List Text
  | ordinary fields => ['1' :: ' ' :: fields.tail]
  | renamed fields origin => ['2' :: ' ' :: fields.tail, origin]
  | unmerged fields => ['u' :: ' ' :: fields.tail]
  | untracked path => ['?' :: ' ' :: path]

/-- The path as it is read. -/
def entry : Changed → Entry
  | ordinary fields => ⟨fields.path, none, fields.state, .parse fields.sub⟩
  | renamed fields origin => ⟨fields.path, some origin, fields.state, .parse fields.sub⟩
  | unmerged fields => ⟨fields.path, none, .unmerged, .parse fields.sub⟩
  | untracked path => ⟨Text.trimStart path, none, .untracked, .no⟩

end Changed

/-- What `git status` has to say of a working tree: the commit and the branch `HEAD` names, the upstream
the branch is configured with, how far the two are apart where the upstream is there, and the paths that
differ. -/
structure Listing where
  oid : Option Text
  branch : Option Text
  upstream : Option Text
  distance : Option (ℕ × ℕ)
  changed : List Changed

namespace Listing

variable (listing : Listing)

/-- The headers before those about the upstream. -/
def headers : Headers where
  oid := some (listing.oid.getD Headers.INITIAL)
  branch := some (listing.branch.getD Headers.DETACHED)

/-- One header line. -/
def header (key value : Text) : Text := '#' :: ' ' :: (key ++ ' ' :: value)

def aheadBehind (distance : ℕ × ℕ) : Text :=
  '+' :: (Text.decimal distance.1 ++ ' ' :: '-' :: Text.decimal distance.2)

/-- The records of a listing. -/
def records : List Text :=
  [header Headers.OID (listing.oid.getD Headers.INITIAL),
    header Headers.HEAD (listing.branch.getD Headers.DETACHED)] ++
  (listing.upstream.map (header Headers.UPSTREAM)).toList ++
  (listing.distance.map fun distance ↦ header Headers.AB (aheadBehind distance)).toList ++
  listing.changed.flatMap Changed.records

end Listing

/-! ### Reading back what Git writes -/

section Fields

variable {count : ℕ} (fields : Fields count)

theorem splitFields_tail : splitFields fields.tail count =
    .ok (fields.state, Submodule.parse fields.sub, fields.path) := by
  have hspaceless : ∀ field ∈ [fields.index, fields.worktree] :: fields.sub :: fields.more,
      ' ' ∉ field := by
    intro field hfield
    rcases List.mem_cons.mp hfield with rfl | hfield
    · intro hmem
      have hspace : Text.isWhitespace ' ' = true := by decide
      obtain ⟨hindex, hworktree⟩ := fields.codes
      rcases List.mem_pair.mp hmem with h | h
      · simp [← h, hspace] at hindex
      · simp [← h, hspace] at hworktree
    · exact fields.spaceless field hfield
  have hlength : count + 1 =
      ([fields.index, fields.worktree] :: fields.sub :: fields.more).length + 1 := by
    simp only [List.length_cons, ← fields.length]
  have hlast : (fields.more ++ [fields.path]).getLast? = some fields.path := by simp
  unfold splitFields Fields.tail
  rw [hlength, Text.splitN_joined hspaceless]
  simp [hlast, fields.named, Fields.state]

theorem trimStart_tail : Text.trimStart (' ' :: fields.tail) = fields.tail := by
  have hspace : Text.isWhitespace ' ' = true := by decide
  simp [Text.trimStart, Fields.tail, Text.joined, hspace, fields.codes.1]

end Fields

/-- Each path is read back as its entry. -/
theorem parseFrom_records (changed : Changed) (headers : Headers) (entries : List Entry)
    (rest : List Text) : parseFrom headers entries (changed.records ++ rest) =
      parseFrom headers (entries ++ [changed.entry]) rest := by
  cases changed with
  | ordinary fields =>
    cases rest <;> simp [Changed.records, parseFrom, ordinary, trimStart_tail, splitFields_tail, Changed.entry, bind,
      Except.bind, pure, Except.pure]
  | renamed fields origin =>
    simp [Changed.records, parseFrom, renamed, trimStart_tail, splitFields_tail, Changed.entry, bind,
      Except.bind, pure, Except.pure]
  | unmerged fields =>
    cases rest <;> simp [Changed.records, parseFrom, unmerged, trimStart_tail, splitFields_tail, Changed.entry, bind,
      Except.bind, pure, Except.pure]
  | untracked path =>
    have hspace : Text.isWhitespace ' ' = true := by decide
    cases rest <;> simp [Changed.records, parseFrom, plain, Changed.entry, Text.trimStart, hspace]

theorem parseFrom_changed (changed : List Changed) (headers : Headers) (entries : List Entry) :
    parseFrom headers entries (changed.flatMap Changed.records) =
      .ok (headers, entries ++ changed.map Changed.entry) := by
  induction changed generalizing entries with
  | nil => simp [parseFrom]
  | cons first rest ih =>
    rw [List.flatMap_cons, parseFrom_records, ih]
    simp

/-- A count that was read, where it fits. -/
def fits (count : ℕ) : ℕ := if count < 2 ^ 32 then count else 0

/-- A header line is read as its key and its value. -/
theorem splitOnce_header {key value : Text} (hspace : ' ' ∉ key) (hmark : key.head? ≠ some '#') :
    Text.splitOnce ' ' (Headers.unmarked (Listing.header key value)) = some (key, value) := by
  have hunmarked : Headers.unmarked (key ++ ' ' :: value) = key ++ ' ' :: value := by
    cases key with
    | nil => rfl
    | cons c rest =>
      have hc : c ≠ '#' := fun h ↦ hmark (by simp [h])
      rw [List.cons_append, Headers.unmarked]
      intro rest' h
      exact hc (List.cons.inj h).1
  rw [Listing.header, Headers.unmarked, hunmarked, Text.splitOnce_append hspace]

/-- The distance Git writes is the distance that is read, where the counts fit. -/
theorem absorbAb_aheadBehind (headers : Headers) (distance : ℕ × ℕ) (hahead : headers.ahead = 0)
    (hbehind : headers.behind = 0) : headers.absorbAb (Listing.aheadBehind distance) =
      { headers with ahead := fits distance.1, behind := fits distance.2 } := by
  have hspace (count : ℕ) : ' ' ∉ Text.decimal count := fun h ↦
    absurd (Text.isDigit_of_mem_decimal h) (by decide)
  have hsplit : Text.split ' ' (Listing.aheadBehind distance) =
      ['+' :: Text.decimal distance.1, '-' :: Text.decimal distance.2] := by
    have hsigned (sign : Char) (hsign : sign ≠ ' ') (count : ℕ) : ' ' ∉ sign :: Text.decimal count := by
      simp [Ne.symm hsign, hspace]
    rw [Listing.aheadBehind, ← List.cons_append, Text.split_append (hsigned '+' (by decide) _),
      Text.split_eq_self (hsigned '-' (by decide) _)]
  obtain ⟨oid, branch, upstream, ahead, behind⟩ := headers
  subst hahead hbehind
  rw [Headers.absorbAb, hsplit]
  simp only [List.foldl_cons, List.foldl_nil, Headers.absorbCount, Text.parseU32_decimal, fits]
  generalize 2 ^ 32 = bound
  by_cases h₁ : distance.1 < bound <;> by_cases h₂ : distance.2 < bound <;> simp [h₁, h₂]

theorem parseFrom_header (headers : Headers) (entries : List Entry) (key value : Text)
    (rest : List Text) : parseFrom headers entries (Listing.header key value :: rest) =
      parseFrom (headers.absorb (Listing.header key value)) entries rest := by
  cases rest <;> simp [Listing.header, parseFrom]

/-- The headers of a listing are absorbed, whatever comes after them. -/
theorem parseFrom_listing (listing : Listing) (rest : List Text) :
    parseFrom {} [] (({ listing with changed := [] } : Listing).records ++ rest) =
      parseFrom { listing.headers with
        upstream := listing.upstream, ahead := fits (listing.distance.elim 0 Prod.fst)
        behind := fits (listing.distance.elim 0 Prod.snd) } [] rest := by
  have hoid (headers : Headers) (value : Text) :
      headers.absorb (Listing.header Headers.OID value) = { headers with oid := some value } := by
    rw [Headers.absorb, splitOnce_header (by decide) (by decide)]
    rfl
  have hbranch (headers : Headers) (value : Text) :
      headers.absorb (Listing.header Headers.HEAD value) =
        { headers with branch := some value } := by
    rw [Headers.absorb, splitOnce_header (by decide) (by decide)]
    rfl
  have hupstream (headers : Headers) (value : Text) :
      headers.absorb (Listing.header Headers.UPSTREAM value) =
        { headers with upstream := some value } := by
    rw [Headers.absorb, splitOnce_header (by decide) (by decide)]
    rfl
  have hdistance (headers : Headers) (value : Text) :
      headers.absorb (Listing.header Headers.AB value) = headers.absorbAb value := by
    rw [Headers.absorb, splitOnce_header (by decide) (by decide)]
    rfl
  have hfits : fits 0 = 0 := rfl
  unfold Listing.records
  cases listing.upstream <;> cases listing.distance <;>
    simp [parseFrom_header, hoid, hbranch, hupstream, hdistance, absorbAb_aheadBehind,
      Listing.headers, hfits]

/-- What Git writes of a working tree is read back: the upstream whether or not it is there, and its
distance only where it is and the counts fit. -/
theorem parse_records (listing : Listing) : parse listing.records = listing.headers.head.map fun head ↦
    { head, upstream := listing.upstream
      ahead := fits (listing.distance.elim 0 Prod.fst)
      behind := fits (listing.distance.elim 0 Prod.snd)
      entries := listing.changed.map Changed.entry } := by
  have hrecords : listing.records = ({ listing with changed := [] } : Listing).records ++
      listing.changed.flatMap Changed.records := by
    simp [Listing.records]
  have hread : parseFrom {} [] listing.records = .ok ({ listing.headers with
      upstream := listing.upstream, ahead := fits (listing.distance.elim 0 Prod.fst)
      behind := fits (listing.distance.elim 0 Prod.snd) }, listing.changed.map Changed.entry) := by
    rw [hrecords, parseFrom_listing, parseFrom_changed]
    rfl
  have hhead : Headers.head { listing.headers with
      upstream := listing.upstream, ahead := fits (listing.distance.elim 0 Prod.fst)
      behind := fits (listing.distance.elim 0 Prod.snd) } = listing.headers.head := rfl
  rw [parse, hread]
  simp only [bind, Except.bind, hhead]
  cases listing.headers.head <;> rfl

end Nodal.Git.Status
