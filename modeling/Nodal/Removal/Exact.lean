import Nodal.Git.Status
import Nodal.Removal.Assess

/-!
# What Git lists and what is read of it

`git/cmd.rs` decodes what `git status` prints and splits it at each NUL, `git/status.rs` reads the
records, and `env/files.rs` says which names are files Nodal writes. A record of an untracked or an
ignored path is its code, a space and the path, and all white space after the code is trimmed before
the path is read.

A status is read back exactly as long as none of those paths begins with white space
(`read_stdout_iff`), but for a branch that has the name Git prints where there is no branch. Where one
does, a person's file can be read under the name of one of Nodal's own.
-/

set_option autoImplicit false

namespace Nodal.Exact

open Git.Status Foundation

/-! ### The output of a command -/

/-- Standard output decoded as UTF-8, with the trailing newline removed. -/
def text (stdout : ByteArray) : Option Text :=
  stdout.utf8Decode?.map fun decoded ↦
    if decoded.toList.getLast? = some '\n' then decoded.toList.dropLast else decoded.toList

/-- Standard output split on NUL, empty records dropped. -/
def records (stdout : ByteArray) : Option (List Text) :=
  (text stdout).map fun decoded ↦ (Text.split '\x00' decoded).filter (· ≠ [])

/-- Why a status was not read. -/
inductive Unread
  | encoding
  | parse (why : Error)
  deriving DecidableEq

/-- The status `git status` printed. -/
def read (stdout : ByteArray) : Except Unread Summary :=
  match records stdout with
  | none => .error .encoding
  | some lines => (parse lines).mapError .parse

/-! ### A status, and what Git prints of it -/

/-- What `HEAD` points at, with the commit of a branch that has one. -/
inductive At
  | branch (name : Text) (commit : { text : Text // Headers.isOid text = true })
  | detached (commit : { text : Text // Headers.isOid text = true })
  | unborn (name : Text)

namespace At

def head : At → Head
  | branch name _ => .branch name
  | detached commit => .detached commit
  | unborn name => .unborn name

def oid : At → Option Text
  | branch _ commit => some commit
  | detached commit => some commit
  | unborn _ => none

def named : At → Option Text
  | branch name _ => some name
  | detached _ => none
  | unborn name => some name

end At

/-- One path of a status: one a commit would capture, or one Git ignores. -/
inductive Line
  | work (changed : Changed)
  | ignored (path : Text)

namespace Line

def records : Line → List Text
  | work changed => changed.records
  | ignored path => ['!' :: ' ' :: path]

/-- The entry of a path, as the status has it. -/
def entry : Line → Entry
  | work (.untracked path) => ⟨path, none, .untracked, .no⟩
  | work (.ordinary fields) => (Changed.ordinary fields).entry
  | work (.renamed fields origin) => (Changed.renamed fields origin).entry
  | work (.unmerged fields) => (Changed.unmerged fields).entry
  | ignored path => ⟨path, none, .ignored, .no⟩

/-- The entry as it is read. -/
def entryRead : Line → Entry
  | work changed => changed.entry
  | ignored path => ⟨Text.trimStart path, none, .ignored, .no⟩

/-- The path of a record that is a code and a path. -/
def bare : Line → Option Text
  | work (.untracked path) => some path
  | work _ => none
  | ignored path => some path

end Line

/-- A status: what `HEAD` points at, the upstream, the distance to it, and the paths. -/
structure Status where
  head : At
  upstream : Option Text
  distance : Option (UInt32 × UInt32)
  lines : List Line

namespace Status

variable (status : Status)

def listing : Listing where
  oid := status.head.oid
  branch := status.head.named
  upstream := status.upstream
  distance := status.distance.map fun distance ↦ (distance.1.toNat, distance.2.toNat)
  changed := []

/-- The records Git prints. -/
def records : List Text := status.listing.records ++ status.lines.flatMap Line.records

def summary : Summary where
  head := status.head.head
  upstream := status.upstream
  ahead := status.distance.elim 0 (·.1.toNat)
  behind := status.distance.elim 0 (·.2.toNat)
  entries := status.lines.map Line.entry

/-- No path that stands alone in its record begins with white space, and no branch has the name that
stands for none. -/
structure Plain : Prop where
  named : status.head.named ≠ some Headers.DETACHED
  spaceless : ∀ line ∈ status.lines, ∀ path ∈ line.bare, ∀ c ∈ path.head?,
    Text.isWhitespace c = false

end Status

/-- A status whose records can be told apart: no field of one has a NUL. -/
structure Written extends Status where
  apart : ∀ record ∈ toStatus.records, record ≠ [] ∧ '\x00' ∉ record

/-- What Git prints: each record, with a NUL after it. -/
def Written.stdout (status : Written) : ByteArray :=
  (String.ofList (Text.joined '\x00' status.records)).toUTF8

/-! ### The records are told apart -/

theorem joined_getLast {fields : List Text} : (Text.joined '\x00' fields).getLast? ≠ some '\n' := by
  induction fields using List.reverseRecOn with
  | nil => simp [Text.joined]
  | append_singleton fields field _ => simp [Text.joined]

theorem records_stdout (status : Written) : records status.stdout = some status.records := by
  have hsplit : Text.split '\x00' (Text.joined '\x00' status.records) = status.records ++ [[]] :=
    Text.split_joined fun record hrecord ↦ (status.apart record hrecord).2
  have hfull : status.records.filter (· ≠ []) = status.records :=
    List.filter_eq_self.mpr fun record hrecord ↦ decide_eq_true (status.apart record hrecord).1
  have hdecoded : status.stdout.utf8Decode? =
      some (Text.joined '\x00' status.records).toArray := List.utf8Decode?_utf8Encode
  unfold records text
  rw [hdecoded]
  simp only [Option.map_some, if_neg joined_getLast, hsplit,
    List.filter_append, hfull]
  simp

/-! ### Each record is read -/

theorem parseFrom_line (line : Line) (headers : Headers) (entries : List Entry) (rest : List Text) :
    parseFrom headers entries (line.records ++ rest) =
      parseFrom headers (entries ++ [line.entryRead]) rest := by
  cases line with
  | work changed => exact parseFrom_records changed headers entries rest
  | ignored path =>
    have hspace : Text.isWhitespace ' ' = true := by decide
    cases rest <;> simp [Line.records, parseFrom, plain, Line.entryRead, Text.trimStart, hspace]

theorem parseFrom_lines (lines : List Line) (headers : Headers) (entries : List Entry) :
    parseFrom headers entries (lines.flatMap Line.records) =
      .ok (headers, entries ++ lines.map Line.entryRead) := by
  induction lines generalizing entries with
  | nil => simp [parseFrom]
  | cons first rest ih =>
    rw [List.flatMap_cons, parseFrom_line, ih]
    simp

/-- What is read of a status. -/
theorem parse_status (status : Status) : parse status.records = status.listing.headers.head.map
    fun head ↦ { status.summary with head, entries := status.lines.map Line.entryRead } := by
  have hfits (count : UInt32) : fits count.toNat = count.toNat := by
    have hcount := count.toNat_lt
    exact if_pos hcount
  have hahead : fits (status.listing.distance.elim 0 Prod.fst) = status.summary.ahead := by
    cases hdistance : status.distance with
    | none => simp [Status.listing, Status.summary, hdistance, fits]
    | some distance => simp [Status.listing, Status.summary, hdistance, hfits]
  have hbehind : fits (status.listing.distance.elim 0 Prod.snd) = status.summary.behind := by
    cases hdistance : status.distance with
    | none => simp [Status.listing, Status.summary, hdistance, fits]
    | some distance => simp [Status.listing, Status.summary, hdistance, hfits]
  have hrecords : status.records = ({ status.listing with changed := [] } : Listing).records ++
      status.lines.flatMap Line.records := rfl
  rw [parse, hrecords, parseFrom_listing, parseFrom_lines, hahead, hbehind]
  have hhead : Headers.head { status.listing.headers with
      upstream := status.listing.upstream, ahead := status.summary.ahead
      behind := status.summary.behind } = status.listing.headers.head := rfl
  simp only [bind, Except.bind, hhead]
  cases status.listing.headers.head <;> rfl

/-- The head is read back but where a branch has the name that stands for none. -/
theorem head_eq_iff (status : Status) : status.listing.headers.head = .ok status.head.head ↔
    status.head.named ≠ some Headers.DETACHED := by
  have hinitial : Headers.isOid Headers.INITIAL = false := by decide
  have hcommit (commit : { text : Text // Headers.isOid text = true }) :
      commit.val ≠ Headers.INITIAL := by
    intro h
    have hoid := commit.property
    rw [h, hinitial] at hoid
    cases hoid
  cases hhead : status.head with
  | branch name commit =>
    by_cases hname : name = Headers.DETACHED
    · simp [Listing.headers, Status.listing, Headers.head, hhead, At.oid, At.named, At.head, hname,
        hcommit commit, commit.property]
    · simp [Listing.headers, Status.listing, Headers.head, hhead, At.oid, At.named, At.head, hname,
        hcommit commit]
  | detached commit =>
    simp [Listing.headers, Status.listing, Headers.head, hhead, At.oid, At.named, At.head,
      hcommit commit, commit.property]
  | unborn name =>
    by_cases hname : name = Headers.DETACHED
    · simp [Listing.headers, Status.listing, Headers.head, hhead, At.oid, At.named, At.head, hname]
    · simp [Listing.headers, Status.listing, Headers.head, hhead, At.oid, At.named, At.head, hname]

theorem entryRead_eq_iff (line : Line) : line.entryRead = line.entry ↔
    ∀ path ∈ line.bare, ∀ c ∈ path.head?, Text.isWhitespace c = false := by
  cases line with
  | work changed =>
    cases changed with
    | untracked path =>
      simpa [Line.entryRead, Line.entry, Changed.entry, Line.bare] using Text.trimStart_eq_self_iff
    | _ => simp [Line.entryRead, Line.entry, Line.bare]
  | ignored path =>
    simpa [Line.entryRead, Line.entry, Line.bare] using Text.trimStart_eq_self_iff

theorem read_stdout (status : Written) : read status.stdout =
    (status.listing.headers.head.map fun head ↦
      { status.summary with head, entries := status.lines.map Line.entryRead }).mapError .parse := by
  rw [read, records_stdout]
  exact congrArg (Except.mapError Unread.parse) (parse_status status.toStatus)

/-- A status is read back where it is plain. -/
theorem read_eq_iff (status : Written) : read status.stdout = .ok status.summary ↔ status.Plain := by
  have hplain : status.Plain ↔ status.listing.headers.head = .ok status.head.head ∧
      status.lines.map Line.entryRead = status.lines.map Line.entry := by
    rw [head_eq_iff, List.map_inj_left]
    simp only [entryRead_eq_iff]
    exact ⟨fun h ↦ ⟨h.named, h.spaceless⟩, fun h ↦ ⟨h.1, h.2⟩⟩
  rw [read_stdout, hplain]
  cases hhead : status.listing.headers.head with
  | error why => simp [Except.map, Except.mapError]
  | ok head =>
    have hsummary : status.summary = { status.summary with
      head := status.head.head, entries := status.lines.map Line.entry } := rfl
    rw [hsummary]
    simp [Except.map, Except.mapError]

/-! ### The names of Nodal's own files -/

/-- The parts of a path that two paths are compared by. -/
def components (path : Text) : List Text :=
  (if path.head? = some '/' then [['/']]
    else if (Text.split '/' path).head? = some ['.'] then [['.']] else []) ++
  (Text.split '/' path).filter fun part ↦ part ≠ [] ∧ part ≠ ['.']

/-- Whether an untracked file is one Nodal wrote rather than a person's work. -/
def isOwn (path : Text) : Bool :=
  Removal.OWN.any fun own ↦ components path = own.map String.toList

/-- An untracked path is taken for a file of Nodal's own only when that is its name. -/
def TakenByName (status : Status) : Prop :=
  ∀ path, .work (.untracked path) ∈ status.lines →
    isOwn (Line.entryRead (.work (.untracked path))).path = true → isOwn path = true

theorem not_isOwn_of_whitespace {path : Text} {c : Char} (hhead : path.head? = some c)
    (hspace : Text.isWhitespace c = true) : isOwn path = false := by
  have hnames : ∀ own ∈ Removal.OWN, ((own.map String.toList).head?.all fun part ↦
      part.head?.all fun first ↦ !Text.isWhitespace first) = true := by decide
  have hslash : c ≠ '/' := by
    rintro rfl
    cases hspace
  have hdot : c ≠ '.' := by
    rintro rfl
    cases hspace
  obtain ⟨rest, rfl⟩ : ∃ rest, path = c :: rest := by
    cases path with
    | nil => cases hhead
    | cons first rest => exact ⟨rest, by rw [Option.some.inj hhead]⟩
  obtain ⟨part, parts, hsplit⟩ := @Text.split_cons_of_ne '/' c rest hslash
  have hcomponents : components (c :: rest) =
      (c :: part) :: parts.filter fun part ↦ part ≠ [] ∧ part ≠ ['.'] := by
    simp [components, hsplit, hslash, hdot]
  unfold isOwn
  rw [List.any_eq_false]
  intro own hown hmatches
  have hown' := hnames own hown
  rw [← of_decide_eq_true hmatches, hcomponents] at hown'
  simp [hspace] at hown'

/-- A status is read back exactly where no path that stands alone in its record begins with white
space, and no branch is named as none is; and an untracked path is taken for a file of Nodal's own by
its name exactly where no white space comes before such a name. -/
theorem read_stdout_iff (status : Written) :
    (read status.stdout = .ok status.summary ↔ status.Plain) ∧
      (TakenByName status.toStatus ↔ ∀ path, .work (.untracked path) ∈ status.lines →
        isOwn (Text.trimStart path) = true → ∀ c ∈ path.head?, Text.isWhitespace c = false) := by
  refine ⟨read_eq_iff status, forall₂_congr fun path _ ↦ ?_⟩
  show (isOwn (Text.trimStart path) = true → isOwn path = true) ↔ _
  refine imp_congr_right fun hread ↦ ?_
  constructor
  · intro hown c hc
    by_contra hspace
    rw [not_isOwn_of_whitespace hc (by simpa using hspace)] at hown
    cases hown
  · intro hplain
    rwa [Text.trimStart_eq_self_iff.mpr hplain] at hread

/-- A branch with one untracked file, whose name is that of a file of Nodal's own after a space. -/
def spaced : Written where
  head := .branch "main".toList ⟨List.replicate 40 'a', by decide⟩
  upstream := none
  distance := none
  lines := [.work (.untracked " .envrc".toList)]
  apart := by decide

theorem spaced_is_own : read spaced.stdout ≠ .ok spaced.summary ∧
    read spaced.stdout = .ok { spaced.summary with
      entries := [⟨".envrc".toList, none, .untracked, .no⟩] } ∧
    isOwn ".envrc".toList = true ∧ isOwn " .envrc".toList = false := by
  rw [read_stdout]
  decide

end Nodal.Exact
