import Mathlib.Data.List.Nodup
import Nodal.Foundation.Dated
import Nodal.Foundation.Text

/-!
# The copy a home keeps of the checkout's refs

`context/refresh.rs`, `git/layout.rs`, `context/survey.rs`, and the refresh of `lifecycle/ops/new.rs`: a
survey reads the stamp of the checkout, and fetches into each home whose recorded stamp is another one.
A stamp is the newest modification time and the number of entries of `HEAD`, `packed-refs` and `refs`,
read from the checkout's own git directory.

A survey reads the stamp before it fetches, so what is written afterwards makes the next stamp newer
(`skipped_mirrors`). A checkout that is a linked worktree has its refs in another directory, and its
stamp stands still while they move (`linked_skipped_stale`); a create reads the stamp last
(`created_skipped_stale`).
-/

set_option autoImplicit false

namespace Nodal.Context

open Foundation Foundation.Dated Foundation.Text

abbrev Oid := String
abbrev HomeId := String

/-- The name of a ref below `refs`, by its components. -/
abbrev RefName := List String

abbrev Refs := RefName → Option Oid

/-! ### The checkout -/

/-- What a ref's file holds. -/
inductive Value
  | oid (oid : Oid)
  | symref (name : RefName)

/-- One git directory: when `HEAD` was written, the packed refs and when they were, and `refs`. -/
structure GitDir where
  head : ℕ
  packed : Option (ℕ × List (RefName × Value))
  refs : Option (DirTree Value)

/-- A write to a git directory. `pack` replaces the packed refs. -/
inductive Write
  | head
  | pack (rows : List (RefName × Value))
  | refs (directory : List String) (edit : Edit Value)

namespace GitDir

variable (dir : GitDir)

/-- What is stored under a name: a loose ref, or a packed one where there is none. -/
def stored (name : RefName) : Option Value :=
  (dir.refs.bind (DirTree.get? name)).or (dir.packed.bind fun packed ↦ packed.2.lookup name)

/-- What a ref names, through so many symbolic ones. -/
def value : ℕ → Refs
  | 0, _ => none
  | depth + 1, name =>
    match dir.stored name with
    | some (.oid oid) => some oid
    | some (.symref other) => value depth other
    | none => none

/-- The refs Git reads. -/
def read : Refs := dir.value 5

def write (now : ℕ) : Write → GitDir
  | .head => { dir with head := now }
  | .pack rows => { dir with packed := some (now, rows) }
  | .refs directory edit => { dir with refs := dir.refs.map (DirTree.edit now edit directory) }

/-- The times of what a stamp is read from. -/
def times : List ℕ :=
  dir.head :: ((dir.packed.map Prod.fst).toList ++ (dir.refs.map DirTree.times).getD [])

end GitDir

/-- A person's checkout: a clone with a git directory of its own, a linked worktree with one beside the
directory it shares, or no repository. -/
inductive Checkout
  | clone (dir : GitDir)
  | worktree (own common : GitDir)
  | gone

/-- The directory a write is made in. -/
inductive Area
  | own
  | common
  deriving DecidableEq

namespace Checkout

/-- Where a repository keeps the files of this checkout. -/
def dir : Checkout → Option GitDir
  | .clone dir => some dir
  | .worktree own _ => some own
  | .gone => none

/-- The directory this checkout shares with every worktree of its repository. -/
def commonDir : Checkout → Option GitDir
  | .clone dir => some dir
  | .worktree _ common => some common
  | .gone => none

def refs (checkout : Checkout) : Refs := fun name ↦ checkout.commonDir.bind (·.read name)

def linked : Checkout → Bool
  | .worktree _ _ => true
  | .clone _ | .gone => false

def change (now : ℕ) (area : Area) (write : Write) : Checkout → Checkout
  | .clone dir => .clone (dir.write now write)
  | .worktree own common =>
    if area = .own then .worktree (own.write now write) common
    else .worktree own (common.write now write)
  | .gone => .gone

end Checkout

/-! ### The stamp -/

/-- A reading of a checkout's refs: the newest modification time seen, how many files and directories
were counted, and whether the checkout answered at all. -/
structure Stamp where
  newest : ℕ
  entries : ℕ
  readable : Bool
  deriving DecidableEq

namespace Stamp

def unreadable : Stamp := ⟨0, 0, false⟩

/-- The one line a home records. -/
def line (stamp : Stamp) : Text := decimal stamp.newest ++ ' ' :: (decimal stamp.entries ++ ['\n'])

/-- Fold one path's modification time into a reading. -/
def see (reading : Stamp) (time : ℕ) : Stamp :=
  { reading with newest := max reading.newest time, entries := reading.entries + 1 }

end Stamp

mutual

/-- Fold a directory and everything under it into a reading. -/
def walk (reading : Stamp) : DirTree Value → Stamp
  | .file time _ => reading.see time
  | .directory time entries => walkAll (reading.see time) entries

def walkAll (reading : Stamp) : List (String × DirTree Value) → Stamp
  | [] => reading
  | (_, tree) :: rest => walkAll (walk reading tree) rest

end

/-- Read a checkout's refs without starting a process. -/
def stamp (checkout : Checkout) : Stamp :=
  match checkout.dir with
  | none => .unreadable
  | some dir =>
    let reading := Stamp.see ⟨0, 0, true⟩ dir.head
    let reading := match dir.packed with
      | some packed => reading.see packed.1
      | none => reading
    match dir.refs with
    | some refs => walk reading refs
    | none => reading

/-! ### The home -/

/-- A home: whether its git directory is found, what its stamp file holds, and its refs. -/
structure Home where
  dir : Bool
  held : Option Text
  refs : Refs

/-- Whether a home last refreshed at a stamp. -/
def Stamp.isHeldBy (stamp : Stamp) (home : Home) : Bool :=
  home.dir && stamp.readable && home.held = some stamp.line

/-- Record a stamp in a home's git directory. -/
def Stamp.write (stamp : Stamp) (home : Home) : Home :=
  if home.dir && stamp.readable then { home with held := some stamp.line } else home

/-- A home after a fetch of what a checkout's refs were: `+refs/remotes/origin/*:refs/nodal/origin/*`
and `+refs/heads/*:refs/nodal/checkout/*`, with what is no longer there pruned. -/
def Home.fetched (home : Home) (advertised : Refs) : Home :=
  { home with
    refs := fun name ↦ match name with
      | "nodal" :: "origin" :: rest => advertised ("remotes" :: "origin" :: rest)
      | "nodal" :: "checkout" :: rest => advertised ("heads" :: rest)
      | _ => home.refs name }

/-- A home's copies are a checkout's branches and what it knows of `origin`. -/
def Mirrors (home refs : Refs) : Prop := ∀ rest,
  home ("nodal" :: "origin" :: rest) = refs ("remotes" :: "origin" :: rest) ∧
    home ("nodal" :: "checkout" :: rest) = refs ("heads" :: rest)

/-! ### The runs -/

/-- Where a command is. `taken` is what the refs were when the survey read its stamp. -/
inductive Process
  | idle
  /-- A survey, with the homes it has still to bring up to its stamp. -/
  | surveying (stamp : Stamp) (taken : Refs) (todo : List HomeId)
  /-- A fetch has read the checkout's refs, and has not written them. -/
  | fetching (home : HomeId) (advertised : Refs) (stamp : Stamp) (taken : Refs) (todo : List HomeId)
  | recording (home : HomeId) (stamp : Stamp) (taken : Refs) (todo : List HomeId)
  /-- A create: its fetch has read the refs, has written them, and its stamp is read. -/
  | creating (home : HomeId) (advertised : Refs)
  | created (home : HomeId)
  | stamped (home : HomeId) (stamp : Stamp)

structure World where
  clock : ℕ
  checkout : Checkout
  homes : HomeId → Home
  process : Process

inductive Event
  | change (area : Area) (write : Write)
  | survey (homes : List HomeId)
  | skip
  | advertise
  | fetch
  | refuse (left : Refs)
  | record
  | tear (text : Text)
  | create (home : HomeId) (refs : Refs)
  | finish

/-- A world with one home, and where the command is, as they are after a step. -/
def World.set (w : World) (home : HomeId) (after : Home) (process : Process) : World :=
  { w with
    homes := fun other ↦ if other = home then after else w.homes other
    process }

/-- One step. The checkout is written at any moment, each write at a later time; a command can stop at
any moment. -/
inductive Step (w : World) : Event → World → Prop
  | change (area : Area) (write : Write) : Step w (.change area write)
      { w with clock := w.clock + 1, checkout := w.checkout.change (w.clock + 1) area write }
  | survey (homes : List HomeId) (hnodup : homes.Nodup) (h : w.process = .idle) :
      Step w (.survey homes)
        { w with process := .surveying (stamp w.checkout) w.checkout.refs homes }
  | skip {stamp : Stamp} {taken : Refs} {home : HomeId} {todo : List HomeId}
      (h : w.process = .surveying stamp taken (home :: todo))
      (hskip : stamp.readable = false ∨ stamp.isHeldBy (w.homes home) = true) :
      Step w .skip { w with process := .surveying stamp taken todo }
  | advertise {stamp : Stamp} {taken : Refs} {home : HomeId} {todo : List HomeId}
      (h : w.process = .surveying stamp taken (home :: todo)) (hread : stamp.readable = true)
      (hheld : stamp.isHeldBy (w.homes home) = false) : Step w .advertise
        { w with process := .fetching home w.checkout.refs stamp taken todo }
  | fetch {stamp : Stamp} {taken advertised : Refs} {home : HomeId} {todo : List HomeId}
      (h : w.process = .fetching home advertised stamp taken todo) : Step w .fetch
        (w.set home ((w.homes home).fetched advertised) (.recording home stamp taken todo))
  /-- A fetch that fails has written some of the refs. -/
  | refuse {stamp : Stamp} {taken advertised : Refs} {home : HomeId} {todo : List HomeId}
      (left : Refs) (h : w.process = .fetching home advertised stamp taken todo) :
      Step w (.refuse left)
        (w.set home { w.homes home with refs := left } (.surveying stamp taken todo))
  | record {stamp : Stamp} {taken : Refs} {home : HomeId} {todo : List HomeId}
      (h : w.process = .recording home stamp taken todo) : Step w .record
        (w.set home (stamp.write (w.homes home)) (.surveying stamp taken todo))
  /-- A stamp file that is not written whole. -/
  | tear {stamp : Stamp} {taken : Refs} {home : HomeId} {todo : List HomeId} (text : Text)
      (htext : text <+: stamp.line ∧ text ≠ stamp.line)
      (h : w.process = .recording home stamp taken todo) : Step w (.tear text)
        (w.set home { w.homes home with held := some text } (.surveying stamp taken todo))
  /-- A create's fetch reads the refs, for a home that has the refs of its base. -/
  | create (home : HomeId) (refs : Refs) (h : w.process = .idle) : Step w (.create home refs)
      (w.set home ⟨true, none, refs⟩ (.creating home w.checkout.refs))
  | createFetch {home : HomeId} {advertised : Refs} (h : w.process = .creating home advertised) :
      Step w .fetch (w.set home ((w.homes home).fetched advertised) (.created home))
  | createStamp {home : HomeId} (h : w.process = .created home) :
      Step w .advertise { w with process := .stamped home (stamp w.checkout) }
  | createRecord {home : HomeId} {stamp : Stamp} (h : w.process = .stamped home stamp) :
      Step w .record (w.set home (stamp.write (w.homes home)) .idle)
  | finish : Step w .finish { w with process := .idle }

/-- A run of steps that all meet a condition on the world they are taken in. -/
inductive Run (meets : World → Event → Prop) (start : World) : World → Prop
  | refl : Run meets start start
  | step {w w' : World} {event : Event} (h : Run meets start w) (hmeets : meets w event)
      (hstep : Step w event w') : Run meets start w'

/-- A world in which no command has run: no home has a stamp, and what is in the checkout was written
by now. -/
structure Begins (w : World) : Prop where
  held : ∀ home, (w.homes home).held = none
  idle : w.process = .idle
  past : ∀ dir, w.checkout.dir = some dir ∨ w.checkout.commonDir = some dir →
    ∀ time ∈ dir.times, time ≤ w.clock

/-- A change that moves the refs is told by the stamps: the checkout is no linked worktree, and no
create is between its fetch and its stamp. -/
def Told (w : World) : Event → Prop
  | .change area write =>
    (w.checkout.change (w.clock + 1) area write).refs = w.checkout.refs ∨
      w.checkout.linked = false ∧ (∀ home advertised, w.process ≠ .creating home advertised) ∧
        ∀ home, w.process ≠ .created home
  | _ => True

/-! ### What a stamp says -/

theorem foldl_max_le_iff {times : List ℕ} {bound first : ℕ} :
    times.foldl max first ≤ bound ↔ first ≤ bound ∧ ∀ time ∈ times, time ≤ bound := by
  induction times generalizing first with
  | nil => simp
  | cons time times ih => simp only [List.foldl_cons, ih, Nat.max_le, List.forall_mem_cons, and_assoc]

mutual

theorem walk_eq (reading : Stamp) (tree : DirTree Value) : walk reading tree =
    ⟨tree.times.foldl max reading.newest, reading.entries + tree.times.length,
      reading.readable⟩ := by
  cases tree with
  | file time value => rfl
  | directory time entries =>
    rw [walk, walkAll_eq, DirTree.times, List.foldl_cons, List.length_cons, Stamp.see]
    simp only [Nat.add_assoc, Nat.add_comm 1]

theorem walkAll_eq (reading : Stamp) (entries : List (String × DirTree Value)) :
    walkAll reading entries =
      ⟨(timesOf entries).foldl max reading.newest, reading.entries + (timesOf entries).length,
        reading.readable⟩ := by
  cases entries with
  | nil => rfl
  | cons row rest =>
    obtain ⟨name, tree⟩ := row
    rw [walkAll, walkAll_eq, walk_eq, timesOf, List.foldl_append, List.length_append,
      Nat.add_assoc]

end

/-- A stamp is the newest and the number of the times it is read from. -/
theorem stamp_eq (checkout : Checkout) : stamp checkout =
    match checkout.dir with
    | none => .unreadable
    | some dir => ⟨dir.times.foldl max 0, dir.times.length, true⟩ := by
  unfold stamp
  cases checkout.dir with
  | none => rfl
  | some dir =>
    obtain ⟨head, packed, refs⟩ := dir
    cases packed <;> cases refs <;> simp [walk_eq, GitDir.times, Stamp.see] <;> omega

theorem notMem_decimal {c : Char} (h : c.isDigit = false) (n : ℕ) : c ∉ decimal n := fun hmem ↦ by
  rw [isDigit_of_mem_decimal hmem] at h
  cases h

namespace Stamp

/-- A line spells one reading. -/
theorem line_inj {stamp other : Stamp} (h : stamp.line = other.line) :
    stamp.newest = other.newest ∧ stamp.entries = other.entries := by
  have hspace := notMem_decimal (show ' '.isDigit = false from rfl)
  obtain ⟨hnewest, hrest⟩ := append_cons_inj (hspace _) (hspace _) h
  exact ⟨decimal_inj hnewest, decimal_inj (List.append_cancel_right hrest)⟩

/-- A part of a line is no line. -/
theorem ne_line_of_torn {stamp : Stamp} {text : Text} (hpart : text <+: stamp.line)
    (hne : text ≠ stamp.line) (other : Stamp) : text ≠ other.line := by
  rintro rfl
  have hnewline : ∀ stamp : Stamp, '\n' ∉ decimal stamp.newest ++ ' ' :: decimal stamp.entries := by
    intro stamp hmem
    have hdigits := notMem_decimal (show '\n'.isDigit = false from rfl)
    rcases List.mem_append.mp hmem with hin | hin
    · exact hdigits _ hin
    · rcases List.mem_cons.mp hin with hspace | hin
      · exact absurd hspace (by decide)
      · exact hdigits _ hin
  have hline : ∀ stamp : Stamp,
      stamp.line = (decimal stamp.newest ++ ' ' :: decimal stamp.entries) ++ '\n' :: [] := by
    intro stamp
    rw [line, List.append_assoc, List.cons_append]
  obtain ⟨more, hmore⟩ := hpart
  rw [hline, hline stamp, List.append_assoc, List.cons_append] at hmore
  obtain ⟨hsame, -⟩ := append_cons_inj (hnewline other) (hnewline stamp) hmore
  exact hne (by rw [hline, hline stamp, hsame])

end Stamp

/-! ### What a change does to the stamp -/

/-- A write changes nothing, or leaves its time in the directory. -/
theorem write_cases (dir : GitDir) (now : ℕ) (write : Write) :
    dir.write now write = dir ∨ now ∈ (dir.write now write).times := by
  cases write with
  | head => exact Or.inr List.mem_cons_self
  | pack rows => exact Or.inr (List.mem_cons_of_mem _ List.mem_cons_self)
  | refs directory edit =>
    obtain ⟨head, packed, refs⟩ := dir
    cases refs with
    | none => exact Or.inl rfl
    | some tree =>
      rcases edit_cases now edit directory tree with hsame | hnow
      · left
        simp [GitDir.write, hsame]
      · right
        simp [GitDir.write, GitDir.times, hnow]

/-- A write adds no time but its own. -/
theorem write_times {dir : GitDir} {now time : ℕ} {write : Write}
    (h : time ∈ (dir.write now write).times) : time = now ∨ time ∈ dir.times := by
  obtain ⟨head, packed, refs⟩ := dir
  cases write with
  | head =>
    rcases List.mem_cons.mp h with rfl | hin
    · exact Or.inl rfl
    · exact Or.inr (List.mem_cons_of_mem _ hin)
  | pack rows =>
    rcases List.mem_cons.mp h with rfl | hin
    · exact Or.inr List.mem_cons_self
    · rcases List.mem_cons.mp hin with rfl | hin
      · exact Or.inl rfl
      · exact Or.inr (List.mem_cons_of_mem _ (List.mem_append_right _ hin))
  | refs directory edit =>
    cases refs with
    | none => exact Or.inr h
    | some tree =>
      rcases List.mem_cons.mp h with rfl | hin
      · exact Or.inr List.mem_cons_self
      · rcases List.mem_append.mp hin with hin | hin
        · exact Or.inr (List.mem_cons_of_mem _ (List.mem_append_left _ hin))
        · exact (times_edit hin).imp_right fun hold ↦
            List.mem_cons_of_mem _ (List.mem_append_right _ hold)

/-- Assumes: what is in a directory was written before now. A write changes nothing, or makes the newest
of the times newer. -/
theorem newest_write {dir : GitDir} {now : ℕ} (hpast : ∀ time ∈ dir.times, time < now)
    (write : Write) : dir.write now write = dir ∨
      dir.times.foldl max 0 < (dir.write now write).times.foldl max 0 := by
  refine (write_cases dir now write).imp_right fun hnow ↦ ?_
  have hnew : now ≤ (dir.write now write).times.foldl max 0 :=
    (foldl_max_le_iff.mp le_rfl).2 now hnow
  have hpos : 0 < now := Nat.lt_of_le_of_lt (Nat.zero_le _) (hpast dir.head List.mem_cons_self)
  have hold : dir.times.foldl max 0 ≤ now - 1 :=
    foldl_max_le_iff.mpr ⟨Nat.zero_le _, fun time htime ↦ Nat.le_sub_one_of_lt (hpast time htime)⟩
  omega

/-- Assumes: what is in the checkout was written before now, and a change that moves no ref or is made
in a clone. It leaves the stamp and the refs as they are, or makes the stamp newer. -/
theorem stamp_change {checkout : Checkout} {now : ℕ}
    (hpast : ∀ dir, checkout.dir = some dir → ∀ time ∈ dir.times, time < now) (area : Area)
    (write : Write)
    (htold : (checkout.change now area write).refs = checkout.refs ∨ checkout.linked = false) :
    stamp (checkout.change now area write) = stamp checkout ∧
        (checkout.change now area write).refs = checkout.refs ∨
      (stamp checkout).newest < (stamp (checkout.change now area write)).newest := by
  rw [stamp_eq, stamp_eq]
  cases checkout with
  | gone => exact Or.inl ⟨rfl, rfl⟩
  | clone dir =>
    rcases newest_write (hpast dir rfl) write with hsame | hnewer
    · left
      simp [Checkout.change, hsame]
    · exact Or.inr hnewer
  | worktree own common =>
    have hrefs := htold.resolve_right Bool.noConfusion
    cases area with
    | common => exact Or.inl ⟨rfl, hrefs⟩
    | own =>
      rcases newest_write (hpast own rfl) write with hsame | hnewer
      · left
        simp [Checkout.change, hsame]
      · exact Or.inr hnewer

/-! ### What the runs keep -/

/-- A home keeps a stamp's line where it is looked for. -/
def Holds (home : Home) (stamp : Stamp) : Prop := home.dir = true ∧ home.held = some stamp.line

/-- A home that keeps a stamp's line has the copies of its refs, and keeps the line of no newer one. -/
def Settled (now : Stamp) (refs : Refs) (home : Home) : Prop := ∀ stamp, Holds home stamp →
  stamp.newest ≤ now.newest ∧ (stamp.line = now.line → Mirrors home.refs refs)

/-- A home keeps the line of another stamp, and of no newer one. -/
def Behind (now : Stamp) (home : Home) : Prop := ∀ stamp, Holds home stamp →
  stamp.newest ≤ now.newest ∧ stamp.line ≠ now.line

/-- A stamp that was read before is the stamp now, or an older one. -/
def Earlier (stamp now : Stamp) : Prop := stamp.line = now.line ∨ stamp.newest < now.newest

/-- What a command counts on where it is. -/
def Doing (now : Stamp) (refs : Refs) (homes : HomeId → Home) : Process → Prop
  | .idle => True
  | .surveying stamp taken todo => Earlier stamp now ∧ todo.Nodup ∧
      ∀ home ∈ todo, Settled stamp taken (homes home)
  | .fetching home advertised stamp taken todo => Earlier stamp now ∧ (home :: todo).Nodup ∧
      (∀ other ∈ todo, Settled stamp taken (homes other)) ∧ Behind now (homes home) ∧
      (stamp.line = now.line → advertised = refs)
  | .recording home stamp taken todo => Earlier stamp now ∧ (home :: todo).Nodup ∧
      (∀ other ∈ todo, Settled stamp taken (homes other)) ∧
      (stamp.line = now.line → Mirrors (homes home).refs refs)
  | .creating home advertised => (homes home).held = none ∧ advertised = refs
  | .created home => Mirrors (homes home).refs refs
  | .stamped home stamp => Earlier stamp now ∧
      (stamp.line = now.line → Mirrors (homes home).refs refs)

structure Kept (w : World) : Prop where
  past : ∀ dir, w.checkout.dir = some dir ∨ w.checkout.commonDir = some dir →
    ∀ time ∈ dir.times, time ≤ w.clock
  settled : ∀ home, Settled (stamp w.checkout) w.checkout.refs (w.homes home)
  doing : Doing (stamp w.checkout) w.checkout.refs w.homes w.process

section

variable {now after s : Stamp} {refs advertised taken : Refs} {home : Home}

theorem Earlier.newest_le (h : Earlier s now) : s.newest ≤ now.newest := by
  rcases h with hline | hless
  · exact (Stamp.line_inj hline).1.le
  · exact hless.le

theorem line_ne_of_newest_lt (h : s.newest < now.newest) : s.line ≠ now.line := fun hline ↦
  h.ne (Stamp.line_inj hline).1

theorem Earlier.newer (h : Earlier s now) (hnewer : now.newest < after.newest) : Earlier s after :=
  Or.inr (h.newest_le.trans_lt hnewer)

theorem Settled.newer (h : Settled now refs home) (hnewer : now.newest < after.newest) :
    Behind after home := fun stamp hholds ↦
  have hless := (h stamp hholds).1.trans_lt hnewer
  ⟨hless.le, line_ne_of_newest_lt hless⟩

theorem Behind.newer (h : Behind now home) (hnewer : now.newest < after.newest) :
    Behind after home := fun stamp hholds ↦
  have hless := (h stamp hholds).1.trans_lt hnewer
  ⟨hless.le, line_ne_of_newest_lt hless⟩

/-- What is copied into a home that keeps another stamp's line is no matter. -/
theorem Behind.settled (h : Behind now home) (refs left : Refs) :
    Settled now refs { home with refs := left } := fun stamp hholds ↦
  ⟨(h stamp hholds).1, fun hline ↦ absurd hline (h stamp hholds).2⟩

theorem mirrors_fetched (home : Home) (advertised : Refs) :
    Mirrors (home.fetched advertised).refs advertised := fun _ ↦ ⟨rfl, rfl⟩

theorem isHeldBy_iff : s.isHeldBy home = true ↔ s.readable = true ∧ Holds home s := by
  simp [Stamp.isHeldBy, Holds, and_assoc, and_left_comm]

/-- Assumes: a home that is not at a stamp that was read before. It is at no stamp of now. -/
theorem Settled.behind (h : Settled s taken home) (hearlier : Earlier s now)
    (hread : s.readable = true) (hheld : s.isHeldBy home = false) : Behind now home := by
  intro stamp hholds
  have hnewest := (h stamp hholds).1
  refine ⟨hnewest.trans hearlier.newest_le, ?_⟩
  rcases hearlier with hline | hless
  · intro hsame
    have hkept : Holds home s := ⟨hholds.1, hholds.2.trans (by rw [hsame, hline])⟩
    rw [isHeldBy_iff.mpr ⟨hread, hkept⟩] at hheld
    cases hheld
  · exact line_ne_of_newest_lt (hnewest.trans_lt hless)

/-- Assumes: a stamp that was read before, and a home that has the copies of its refs if it is the
stamp now. Recording it there keeps the home settled. -/
theorem Settled.write (h : Settled now refs home) (hearlier : Earlier s now)
    (hmirrors : s.line = now.line → Mirrors home.refs refs) : Settled now refs (s.write home) := by
  unfold Stamp.write
  split_ifs with hwritten
  · intro stamp hholds
    have hline : s.line = stamp.line := Option.some.inj hholds.2
    refine ⟨(Stamp.line_inj hline).1 ▸ hearlier.newest_le, fun hnow ↦ hmirrors (hline.trans hnow)⟩
  · exact h

end

section

variable {w w' : World} {event : Event}

theorem past_change (h : Kept w) (area : Area) (write : Write) (dir : GitDir)
    (hdir : (w.checkout.change (w.clock + 1) area write).dir = some dir ∨
      (w.checkout.change (w.clock + 1) area write).commonDir = some dir) :
    ∀ time ∈ dir.times, time ≤ w.clock + 1 := by
  have hkept : ∀ old, w.checkout.dir = some old ∨ w.checkout.commonDir = some old →
      dir = old ∨ dir = old.write (w.clock + 1) write → ∀ time ∈ dir.times, time ≤ w.clock + 1 := by
    intro old hold hsame time htime
    have hpast := h.past old hold
    rcases hsame with rfl | rfl
    · exact Nat.le_succ_of_le (hpast time htime)
    · rcases write_times htime with rfl | hin
      · exact le_rfl
      · exact Nat.le_succ_of_le (hpast time hin)
  generalize hcheckout : w.checkout = checkout at hdir hkept
  cases checkout with
  | gone => rcases hdir with hnone | hnone <;> cases hnone
  | clone old =>
    refine hkept old (Or.inl rfl) (Or.inr ?_)
    rcases hdir with hsome | hsome <;> exact (Option.some.inj hsome).symm
  | worktree own common =>
    cases area with
    | own =>
      rcases hdir with hsome | hsome
      · exact hkept own (Or.inl rfl) (Or.inr (Option.some.inj hsome).symm)
      · exact hkept common (Or.inr rfl) (Or.inl (Option.some.inj hsome).symm)
    | common =>
      rcases hdir with hsome | hsome
      · exact hkept own (Or.inl rfl) (Or.inl (Option.some.inj hsome).symm)
      · exact hkept common (Or.inr rfl) (Or.inr (Option.some.inj hsome).symm)

/-- What a command counts on lasts while the checkout's stamp gets newer, where a create between its
fetch and its stamp sees the refs it fetched. -/
theorem Doing.newer {now after : Stamp} {refs refs' : Refs} {homes : HomeId → Home}
    {process : Process} (h : Doing now refs homes process) (hnewer : now.newest < after.newest)
    (hsame : refs' = refs ∨ (∀ home advertised, process ≠ .creating home advertised) ∧
      ∀ home, process ≠ .created home) : Doing after refs' homes process := by
  cases process with
  | idle => trivial
  | surveying s taken todo => exact ⟨h.1.newer hnewer, h.2⟩
  | fetching home advertised s taken todo =>
    obtain ⟨hearlier, hnodup, htodo, hbehind, _⟩ := h
    exact ⟨hearlier.newer hnewer, hnodup, htodo, hbehind.newer hnewer, fun hline ↦
      absurd hline (line_ne_of_newest_lt (hearlier.newest_le.trans_lt hnewer))⟩
  | recording home s taken todo =>
    obtain ⟨hearlier, hnodup, htodo, _⟩ := h
    exact ⟨hearlier.newer hnewer, hnodup, htodo, fun hline ↦
      absurd hline (line_ne_of_newest_lt (hearlier.newest_le.trans_lt hnewer))⟩
  | creating home advertised =>
    rcases hsame with rfl | ⟨hnot, _⟩
    · exact h
    · exact absurd rfl (hnot home advertised)
  | created home =>
    rcases hsame with rfl | ⟨_, hnot⟩
    · exact h
    · exact absurd rfl (hnot home)
  | stamped home s =>
    exact ⟨h.1.newer hnewer, fun hline ↦
      absurd hline (line_ne_of_newest_lt (h.1.newest_le.trans_lt hnewer))⟩

/-- Assumes: a change the stamps tell. It keeps what the runs keep. -/
theorem Kept.change (h : Kept w) (area : Area) (write : Write) (htold : Told w (.change area write)) :
    Kept { w with clock := w.clock + 1, checkout := w.checkout.change (w.clock + 1) area write } := by
  have hpast : ∀ dir, w.checkout.dir = some dir → ∀ time ∈ dir.times, time < w.clock + 1 :=
    fun dir hdir time htime ↦ Nat.lt_succ_of_le (h.past dir (Or.inl hdir) time htime)
  refine ⟨past_change h area write, ?_, ?_⟩
  · intro home
    rcases stamp_change hpast area write (htold.imp_right And.left) with ⟨hstamp, hrefs⟩ | hnewer
    · simpa only [hstamp, hrefs] using h.settled home
    · exact ((h.settled home).newer hnewer).settled _ _
  · rcases stamp_change hpast area write (htold.imp_right And.left) with ⟨hstamp, hrefs⟩ | hnewer
    · simpa only [hstamp, hrefs] using h.doing
    · exact h.doing.newer hnewer (htold.imp_right And.right)

/-- Assumes: one home as it is after a step, settled, and what the command counts on then. Every other
home is as it was. -/
theorem Kept.set (h : Kept w) {home : HomeId} {after : Home} {process : Process}
    (hsettled : Settled (stamp w.checkout) w.checkout.refs after)
    (hdoing : Doing (stamp w.checkout) w.checkout.refs (w.set home after process).homes process) :
    Kept (w.set home after process) := by
  refine ⟨h.past, fun other ↦ ?_, hdoing⟩
  by_cases hother : other = home
  · simpa [World.set, hother] using hsettled
  · simpa [World.set, hother] using h.settled other

@[simp] theorem World.set_self (w : World) (home : HomeId) (after : Home) (process : Process) :
    (w.set home after process).homes home = after := if_pos rfl

theorem settled_set {s : Stamp} {taken : Refs} {home : HomeId} {todo : List HomeId} {after : Home}
    {process : Process} (hnodup : (home :: todo).Nodup)
    (h : ∀ other ∈ todo, Settled s taken (w.homes other)) :
    ∀ other ∈ todo, Settled s taken ((w.set home after process).homes other) := by
  intro other hother
  have hne : other ≠ home := fun hsame ↦ (List.nodup_cons.mp hnodup).1 (hsame ▸ hother)
  simpa [World.set, hne] using h other hother

/-- One step the stamps tell keeps what the runs keep. -/
theorem Kept.step (h : Kept w) (htold : Told w event) (hstep : Step w event w') : Kept w' := by
  have hdoing := h.doing
  cases hstep with
  | change area write => exact h.change area write htold
  | survey homes hnodup hidle =>
    exact ⟨h.past, h.settled, Or.inl rfl, hnodup, fun home _ ↦ h.settled home⟩
  | skip hprocess hskip =>
    rw [hprocess] at hdoing
    obtain ⟨hearlier, hnodup, htodo⟩ := hdoing
    exact ⟨h.past, h.settled, hearlier, (List.nodup_cons.mp hnodup).2,
      (List.forall_mem_cons.mp htodo).2⟩
  | advertise hprocess hread hheld =>
    rw [hprocess] at hdoing
    obtain ⟨hearlier, hnodup, htodo⟩ := hdoing
    obtain ⟨hhome, hrest⟩ := List.forall_mem_cons.mp htodo
    exact ⟨h.past, h.settled, hearlier, hnodup, hrest, hhome.behind hearlier hread hheld,
      fun _ ↦ rfl⟩
  | @fetch s taken advertised home todo hprocess =>
    rw [hprocess] at hdoing
    obtain ⟨hearlier, hnodup, htodo, hbehind, hrefs⟩ := hdoing
    refine h.set (hbehind.settled _ _) ⟨hearlier, hnodup, settled_set hnodup htodo, fun hline ↦ ?_⟩
    rw [World.set_self, ← hrefs hline]
    exact mirrors_fetched _ _
  | refuse left hprocess =>
    rw [hprocess] at hdoing
    obtain ⟨hearlier, hnodup, htodo, hbehind, _⟩ := hdoing
    exact h.set (hbehind.settled _ _)
      ⟨hearlier, (List.nodup_cons.mp hnodup).2, settled_set hnodup htodo⟩
  | record hprocess =>
    rw [hprocess] at hdoing
    obtain ⟨hearlier, hnodup, htodo, hmirrors⟩ := hdoing
    exact h.set ((h.settled _).write hearlier hmirrors)
      ⟨hearlier, (List.nodup_cons.mp hnodup).2, settled_set hnodup htodo⟩
  | tear text htext hprocess =>
    rw [hprocess] at hdoing
    obtain ⟨hearlier, hnodup, htodo, _⟩ := hdoing
    refine h.set (fun stamp hholds ↦ ?_)
      ⟨hearlier, (List.nodup_cons.mp hnodup).2, settled_set hnodup htodo⟩
    exact absurd (Option.some.inj hholds.2) (Stamp.ne_line_of_torn htext.1 htext.2 stamp)
  | create home refs hidle =>
    refine h.set (fun stamp hholds ↦ ?_) ⟨by rw [World.set_self], rfl⟩
    cases hholds.2
  | @createFetch home advertised hprocess =>
    rw [hprocess] at hdoing
    obtain ⟨hnone, rfl⟩ := hdoing
    refine h.set (fun stamp hholds ↦ ?_) ?_
    · cases hnone.symm.trans hholds.2
    · rw [Doing, World.set_self]
      exact mirrors_fetched _ _
  | createStamp hprocess =>
    rw [hprocess] at hdoing
    exact ⟨h.past, h.settled, Or.inl rfl, fun _ ↦ hdoing⟩
  | createRecord hprocess =>
    rw [hprocess] at hdoing
    exact h.set ((h.settled _).write hdoing.1 hdoing.2) trivial
  | finish => exact ⟨h.past, h.settled, trivial⟩

theorem Begins.kept (h : Begins w) : Kept w := by
  refine ⟨h.past, fun home stamp hholds ↦ ?_, ?_⟩
  · cases (h.held home).symm.trans hholds.2
  · rw [h.idle]
    trivial

theorem Run.kept (hrun : Run Told w w') (h : Kept w) : Kept w' := by
  induction hrun with
  | refl => exact h
  | step _ htold hstep ih => exact ih.step htold hstep

end

/-- Assumes: a run that begins before any command, and each of whose changes either moves no ref, or is
made in a checkout that is no linked worktree and while no create is between its fetch and its stamp.
A home a survey skips because it is at the stamp has the copies of the refs as they were when the stamp
was read. -/
theorem skipped_mirrors {first w : World} {s : Stamp} {taken : Refs} {home : HomeId}
    {todo : List HomeId} (hbegins : Begins first) (hrun : Run Told first w)
    (hprocess : w.process = .surveying s taken (home :: todo))
    (hheld : s.isHeldBy (w.homes home) = true) : Mirrors (w.homes home).refs taken := by
  have hdoing := (hrun.kept hbegins.kept).doing
  rw [hprocess] at hdoing
  obtain ⟨_, _, htodo⟩ := hdoing
  exact (htodo home List.mem_cons_self s (isHeldBy_iff.mp hheld).2).2 rfl

/-- A repository with one branch, `main`. -/
def oneBranch : GitDir :=
  ⟨1, none, some (.directory 1 [("heads", .directory 1 [("main", .file 1 (.oid "a"))])])⟩

/-- A checkout before any command. -/
def before (checkout : Checkout) : World := ⟨1, checkout, fun _ ↦ ⟨true, none, fun _ ↦ none⟩, .idle⟩

theorem begins_before {checkout : Checkout} (h : ∀ dir, checkout.dir = some dir ∨
    checkout.commonDir = some dir → ∀ time ∈ dir.times, time ≤ 1) : Begins (before checkout) :=
  ⟨fun _ ↦ rfl, rfl, h⟩

theorem begins_clone : Begins (before (.clone oneBranch)) := by
  refine begins_before fun dir hdir ↦ ?_
  obtain rfl : oneBranch = dir := by
    rcases hdir with h | h <;> exact Option.some.inj h
  decide

/-- A survey that finds a home of a clone at its stamp skips it, and the home has what it would fetch. -/
theorem skipped_mirrors_clone : ∃ w s taken, Run Told (before (.clone oneBranch)) w ∧
    w.process = .surveying s taken ["h"] ∧ s.isHeldBy (w.homes "h") = true ∧
      Mirrors (w.homes "h").refs taken := by
  have hrun : Run Told (before (.clone oneBranch)) _ :=
    ((((((Run.refl).step (by trivial) (.survey ["h"] (List.nodup_singleton _) rfl)).step
      (by trivial) (.advertise rfl rfl rfl)).step (by trivial) (.fetch rfl)).step
      (by trivial) (.record rfl)).step (by trivial) .finish).step
      (by trivial) (.survey ["h"] (List.nodup_singleton _) rfl)
  refine ⟨_, _, _, hrun, rfl, ?_, ?_⟩
  · exact isHeldBy_iff.mpr ⟨rfl, rfl, rfl⟩
  · exact skipped_mirrors begins_clone hrun rfl (isHeldBy_iff.mpr ⟨rfl, rfl, rfl⟩)

/-- In a linked worktree `main` moves and the stamp does not: the next survey skips a home whose copy
of `main` is the old one. -/
theorem linked_skipped_stale : ∃ first w s taken, Begins first ∧ Run (fun _ _ ↦ True) first w ∧
    w.process = .surveying s taken ["h"] ∧ s.isHeldBy (w.homes "h") = true ∧
      ¬ Mirrors (w.homes "h").refs taken := by
  have hrun : Run (fun _ _ ↦ True) (before (.worktree ⟨1, none, none⟩ oneBranch)) _ :=
    (((((((Run.refl).step trivial (.survey ["h"] (List.nodup_singleton _) rfl)).step
      trivial (.advertise rfl rfl rfl)).step trivial (.fetch rfl)).step
      trivial (.record rfl)).step trivial .finish).step trivial
      (.change .common (.refs ["heads"] (.put "main" (.oid "b"))))).step
      trivial (.survey ["h"] (List.nodup_singleton _) rfl)
  refine ⟨_, _, _, _, begins_before fun dir hdir ↦ ?_, hrun, rfl, ?_, fun hmirrors ↦ ?_⟩
  · rcases hdir with h | h <;> cases h <;> decide
  · exact isHeldBy_iff.mpr ⟨rfl, rfl, rfl⟩
  · exact absurd (hmirrors ["main"]).2 (by decide)

/-- A create reads its stamp after its fetch, so what is written between the two is in the stamp and not
in the home. -/
theorem created_skipped_stale : ∃ w s taken,
    Run (fun _ _ ↦ True) (before (.clone oneBranch)) w ∧
      w.process = .surveying s taken ["h"] ∧ s.isHeldBy (w.homes "h") = true ∧
        ¬ Mirrors (w.homes "h").refs taken := by
  have hrun : Run (fun _ _ ↦ True) (before (.clone oneBranch)) _ :=
    ((((((Run.refl).step trivial (.create "h" (fun _ ↦ none) rfl)).step trivial
      (.change .own (.refs ["heads"] (.put "main" (.oid "b"))))).step trivial
      (.createFetch rfl)).step trivial (.createStamp rfl)).step trivial (.createRecord rfl)).step
      trivial (.survey ["h"] (List.nodup_singleton _) rfl)
  refine ⟨_, _, _, hrun, rfl, ?_, fun hmirrors ↦ ?_⟩
  · exact isHeldBy_iff.mpr ⟨rfl, rfl, rfl⟩
  · exact absurd (hmirrors ["main"]).2 (by decide)

end Nodal.Context
