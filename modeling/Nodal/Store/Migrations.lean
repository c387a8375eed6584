import Mathlib.Order.Nat
import Nodal.Foundation.Contract

/-!
# The schema of a registry that many processes open

`store/migrations.rs`: every open reads the version the file carries, and one that finds it behind applies
what is missing inside an `IMMEDIATE` transaction, where it reads the version again. Processes of several
releases may open one file, each with its own length of the one list of migrations, be answered busy or with
an error by any statement, and be killed between any two of them.

Whatever they do, the file holds the migrations up to its version, each applied once and in order, its
version never goes back, and each open that ended answered what is true of the file (`opened`).
-/

set_option autoImplicit false

namespace Nodal.Store.Migrations

open Foundation Attempt

/-- One numbered step from an older schema to the next. -/
structure Migration where
  version : ℕ
  name : String
  deriving DecidableEq

/-- Every migration, in order. Appending is the only permitted edit, so an older release has a prefix. -/
structure Sequence where
  all : List Migration
  consecutive : ∀ index, (h : index < all.length) → all[index].version = index + 1

/-- The list as it stands. -/
def MIGRATIONS : Sequence where
  all := [⟨1, "init"⟩, ⟨2, "journal"⟩, ⟨3, "ports"⟩, ⟨4, "trash"⟩, ⟨5, "tether"⟩,
    ⟨6, "objective epistemic"⟩, ⟨7, "step output"⟩, ⟨8, "trash pruned"⟩, ⟨9, "project remote"⟩,
    ⟨10, "unit base commit"⟩, ⟨11, "lock actor"⟩, ⟨12, "base provenance"⟩, ⟨13, "unit slug open"⟩,
    ⟨14, "lock session"⟩, ⟨15, "trash rested"⟩, ⟨16, "event verdict"⟩, ⟨17, "lock pid started"⟩]
  consecutive := by decide

/-- What a database file holds: its `user_version`, and the batches that made its schema. -/
structure Database where
  version : ℕ
  schema : List Migration
  deriving DecidableEq

inductive Error
  | store
  | storeTooNew (found supported : ℕ)
  | storeMigration (version : ℕ) (name : String)
  deriving DecidableEq

/-! ### The registry -/

/-- The file, and who is inside a transaction and what it would commit. -/
structure Registry where
  file : Database
  writing : Option (ℕ × Database)

inductive Statement
  | version
  | begin
  | executeBatch (migration : Migration)
  | setVersion (version : ℕ)
  | commit
  | rollback

/-- A version, and otherwise whether the statement succeeded. -/
@[reducible] def Statement.Answer : Statement → Type
  | version => Option ℕ
  | rollback => Unit
  | begin | executeBatch _ | setVersion _ | commit => Bool

/-- Whether it may succeed; a batch that fails leaves whatever it came to. -/
@[reducible] def Statement.Choice : Statement → Type
  | executeBatch _ => Option Database
  | rollback => Unit
  | version | begin | setVersion _ | commit => Bool

namespace Registry

/-- What a process would commit, when it is inside a transaction. -/
def held (r : Registry) (i : ℕ) : Option Database :=
  r.writing.bind fun (j, draft) ↦ if j = i then some draft else none

def into (r : Registry) (i : ℕ) (draft : Database) : Registry := { r with writing := some (i, draft) }

/-- A write: into one's own transaction, refused beside another's, and at once where there is none. -/
def write (r : Registry) (i : ℕ) (f : Database → Database) : Bool × Registry :=
  match r.writing with
  | none => (true, { r with file := f r.file })
  | some (j, draft) => if j = i then (true, r.into i (f draft)) else (false, r)

/-- The end of a transaction that does not commit. -/
def release (r : Registry) (i : ℕ) : Registry := { r with writing := r.writing.filter (·.1 ≠ i) }

/-- What a statement of a process answers and does. -/
def perform (i : ℕ) : (s : Statement) → s.Choice → Registry → s.Answer × Registry
  | .version, read, r => (if read then some ((r.held i).getD r.file).version else none, r)
  | .begin, granted, r =>
    if granted && r.writing.isNone then (true, r.into i r.file) else (false, r)
  | .executeBatch migration, none, r =>
    r.write i fun database ↦ { database with schema := database.schema ++ [migration] }
  | .executeBatch _, some left, r => (false, (r.write i fun _ ↦ left).2)
  | .setVersion version, kept, r =>
    if kept then r.write i fun database ↦ { database with version } else (false, r)
  | .commit, kept, r =>
    match r.held i with
    | some draft => if kept then (true, ⟨draft, none⟩) else (false, r)
    | none => (false, r)
  | .rollback, _, r => ((), r.release i)

end Registry

/-! ### The runner -/

abbrev Run : Type → Type := Attempt Statement Statement.Answer Error

/-- The schema version a database is currently at. -/
def version : Run ℕ := do
  match (← call Statement.version : Option ℕ) with
  | some version => pure version
  | none => throw .store

/-- The batches in order, up to the first that fails. -/
def executeAll : List Migration → Run Unit
  | [] => pure ()
  | migration :: rest => do
    if ← call (Statement.executeBatch migration) then executeAll rest
    else throw (.storeMigration migration.version migration.name)

/-- What is done inside the transaction. -/
def upgrade (migrations : List Migration) (SCHEMA_VERSION : ℕ) : Run Unit := do
  let applied ← version
  if SCHEMA_VERSION < applied then throw (.storeTooNew applied SCHEMA_VERSION)
  else
    executeAll (migrations.filter (applied < ·.version))
    if ← call (Statement.setVersion SCHEMA_VERSION) then
      if ← call Statement.commit then pure () else throw .store
    else throw .store

/-- Bring a registry up to `SCHEMA_VERSION`, and answer the version it was at. -/
def run (migrations : List Migration) (SCHEMA_VERSION : ℕ) : Run ℕ := do
  let found ← version
  if found = SCHEMA_VERSION then pure found
  else if SCHEMA_VERSION < found then throw (.storeTooNew found SCHEMA_VERSION)
  else if ← call Statement.begin then
    match ← (upgrade migrations SCHEMA_VERSION).outcome with
    | .ok () => pure found
    | .error error => do
      -- A transaction that is dropped rolls back.
      call Statement.rollback
      throw error
  else throw .store

/-- Opens by processes whose releases have so many migrations of the list. -/
def machine (migrations : Sequence) (release : ℕ → ℕ) :
    Machine ℕ Unit Registry Statement Statement.Answer Statement.Choice (Except Error ℕ) where
  program i _ := (run (migrations.all.take (release i)) (release i)).run
  enter i _ r :=
    -- A new connection is in no transaction.
    if release i ≤ migrations.all.length ∧ r.held i = none then some r else none
  leave i r := r.release i
  perform := Registry.perform

/-! ### What is kept -/

/-- The migrations up to the version, each once and in order. -/
structure Database.Sound (migrations : Sequence) (d : Database) : Prop where
  version : d.version ≤ migrations.all.length
  schema : d.schema = migrations.all.take d.version

/-- What is true of the file when an open of a process has ended. -/
def Answered (release : ℕ → ℕ) (i : ℕ) : Except Error ℕ → Registry → Prop
  | .ok found, r => found ≤ release i ∧ release i ≤ r.file.version
  | .error (.storeTooNew found supported), r =>
    supported = release i ∧ supported < found ∧ found ≤ r.file.version
  | .error _, _ => True

/-- What the others do to the file while one is open. -/
structure Registry.Rely (i : ℕ) (r r' : Registry) : Prop where
  version : r.file.version ≤ r'.file.version
  held : r'.held i = r.held i
  file : r.held i ≠ none → r'.file = r.file

def contract (migrations : Sequence) : Contract ℕ Registry Statement Statement.Choice where
  inv r := r.file.Sound migrations
  rely := Registry.Rely
  rely_refl _ _ := ⟨le_rfl, rfl, fun _ ↦ rfl⟩
  rely_trans _ _ _ _ h h' := ⟨h.version.trans h'.version, h'.held.trans h.held,
    fun hheld ↦ (h'.file (h.held ▸ hheld)).trans (h.file hheld)⟩
  assume _ _ _ _ := True
  pre i
    | .executeBatch _, r | .setVersion _, r => r.held i ≠ none
    | .commit, r => ∀ draft, r.held i = some draft →
        draft.Sound migrations ∧ r.file.version ≤ draft.version
    | .version, _ | .begin, _ | .rollback, _ => True

namespace Registry

variable {r r' : Registry} {i j : ℕ} {draft : Database} {f : Database → Database}

theorem held_eq_some : r.held i = some draft ↔ r.writing = some (i, draft) := by
  rcases h : r.writing with _ | ⟨j, other⟩ <;> simp [held, h]

/-- Nobody else is inside a transaction. -/
def Only (r : Registry) (i : ℕ) : Prop := ∀ j, j ≠ i → r.held j = none

theorem only_of_held (h : r.held i = some draft) : r.Only i := by
  intro j hji
  simp [held, held_eq_some.mp h, hji.symm]

theorem only_of_none (h : r.writing = none) : r.Only i := fun j _ ↦ by simp [held, h]

/-- Where only one is inside a transaction, it may do what keeps the version from going back. -/
theorem Only.rely (h : r.Only i) (h' : r'.Only i) (hji : j ≠ i)
    (hversion : r.file.version ≤ r'.file.version) : Rely j r r' :=
  ⟨hversion, (h' j hji).trans (h j hji).symm, fun hheld ↦ absurd (h j hji) hheld⟩

theorem held_into : (r.into i draft).held i = some draft := held_eq_some.mpr rfl

theorem write_held (h : r.held i = some draft) : r.write i f = (true, r.into i (f draft)) := by
  simp [write, held_eq_some.mp h]

theorem held_release : (r.release i).held j = if j = i then none else r.held j := by
  rcases h : r.writing with _ | ⟨k, draft⟩
  · simp [held, release, h]
  · by_cases hi : k = i <;> grind [held, release]

theorem release_rely (hji : j ≠ i) : Rely j r (r.release i) :=
  ⟨le_rfl, held_release.trans (if_neg hji), fun _ ↦ rfl⟩

/-- Nobody touches the file while one is inside a transaction. -/
theorem Rely.file_eq (hrely : Rely i r r') (h : r.held i = some draft) : r'.file = r.file :=
  hrely.file (by simp [h])

end Registry

theorem take_append_filter (migrations : Sequence) {applied supported : ℕ} (h : applied ≤ supported) :
    migrations.all.take applied ++ (migrations.all.take supported).filter (applied < ·.version) =
      migrations.all.take supported := by
  have hthere : ∀ migration ∈ migrations.all.take applied, ¬applied < migration.version := by
    intro migration hmem
    obtain ⟨index, hindex, rfl⟩ := List.mem_iff_getElem.mp hmem
    have hbelow := hindex.trans_le (List.length_take_le applied migrations.all)
    rw [List.getElem_take, migrations.consecutive]
    omega
  have hmissing : ∀ migration ∈ (migrations.all.take supported).drop applied,
      applied < migration.version := by
    intro migration hmem
    obtain ⟨index, hindex, rfl⟩ := List.mem_iff_getElem.mp hmem
    rw [List.getElem_drop, List.getElem_take, migrations.consecutive]
    omega
  have hsplit : migrations.all.take applied ++ (migrations.all.take supported).drop applied =
      migrations.all.take supported := by
    rw [← min_eq_left h, ← List.take_take, min_eq_left h, List.take_append_drop]
  rw [← hsplit, List.filter_append, List.filter_eq_nil_iff.mpr (by simpa using hthere),
    List.filter_eq_self.mpr (by simpa using hmissing), List.nil_append]

/-! ### An open beside others -/

section Safety

variable {migrations : Sequence} {release : ℕ → ℕ} {r : Registry} {i : ℕ} {draft : Database}

/-- The version of one's own transaction, or of the file. -/
theorem safe_version {α : Type} {f : ℕ → Run α} {Q : Except Error α → Registry → Prop}
    (hfail : ∀ t, Registry.Rely i r t → Q (.error .store) t)
    (hread : ∀ t, Registry.Rely i r t → t.file.Sound migrations → Safe (machine migrations release)
      (contract migrations) i Q (f ((t.held i).getD t.file).version).run t) :
    Safe (machine migrations release) (contract migrations) i Q (version >>= f).run r := by
  intro t hrely ht
  refine ⟨trivial, fun choice _ ↦ ?_⟩
  cases choice with
  | false => exact fun u hu _ ↦ hfail u ((contract migrations).rely_trans i hrely hu)
  | true => exact hread t hrely ht

theorem Answered.mono {r' : Registry} {result : Except Error ℕ} (h : Answered release i result r)
    (hversion : r.file.version ≤ r'.file.version) : Answered release i result r' := by
  rcases result with (_ | ⟨found, supported⟩ | ⟨version, name⟩) | found
  · trivial
  · exact ⟨h.1, h.2.1, h.2.2.trans hversion⟩
  · trivial
  · exact ⟨h.1, h.2.trans hversion⟩

theorem safe_executeAll (batches : List Migration) (h : r.held i = some draft) :
    Safe (machine migrations release) (contract migrations) i (fun result r' ↦
      match result with
      | .ok _ => r'.held i = some { draft with schema := draft.schema ++ batches } ∧ r'.file = r.file
      | .error error => ∃ version name, error = .storeMigration version name)
      (executeAll batches).run r := by
  induction batches generalizing r draft with
  | nil =>
    intro t hrely _
    rw [List.append_nil]
    exact ⟨hrely.held.trans h, hrely.file_eq h⟩
  | cons migration batches ih =>
    intro t hrely _
    have ht : t.held i = some draft := hrely.held.trans h
    have hfile : t.file = r.file := hrely.file_eq h
    refine ⟨by simp [contract, ht], fun choice _ ↦ ?_⟩
    rcases choice with _ | left
    · have hstep : (machine migrations release).perform i (.executeBatch migration) none t =
          (true, t.into i { draft with schema := draft.schema ++ [migration] }) :=
        @Registry.write_held t i draft (fun database ↦ ⟨database.version, database.schema ++ [migration]⟩) ht
      rw [hstep]
      refine Safe.mono (fun result u hu ↦ ?_) (ih Registry.held_into)
      rcases result with error | _
      · exact hu
      · rw [List.append_assoc, List.singleton_append] at hu
        exact ⟨hu.1, hu.2.trans hfile⟩
    · exact fun u _ _ ↦ ⟨_, _, rfl⟩

/-- What a transaction leaves: it has committed, or it has failed and is still open. -/
def Upgraded (release : ℕ → ℕ) (i : ℕ) : Except Error Unit → Registry → Prop
  | .ok _, r => r.held i = none ∧ release i ≤ r.file.version
  | .error error, r => Answered release i (.error error) r

theorem safe_upgrade (hrelease : release i ≤ migrations.all.length) (h : r.held i = some r.file) :
    Safe (machine migrations release) (contract migrations) i (Upgraded release i)
      (upgrade (migrations.all.take (release i)) (release i)).run r := by
  refine safe_version (fun _ _ ↦ trivial) fun t hrely ht ↦ ?_
  have hfile : t.file = r.file := hrely.file_eq h
  have hheld : t.held i = some t.file := hfile ▸ hrely.held.trans h
  rw [hheld, Option.getD_some]
  by_cases hnew : release i < t.file.version
  · rw [if_pos hnew]
    exact fun u hu _ ↦ ⟨rfl, hnew, hu.version⟩
  rw [if_neg hnew]
  refine safe_attempt_bind ((safe_executeAll _ hheld).mono fun result u hu ↦ ?_)
  rcases result with error | _
  · obtain ⟨version, name, rfl⟩ := hu
    exact fun _ _ _ ↦ trivial
  obtain ⟨huheld, hufile⟩ := hu
  -- The whole list of the release is in the transaction.
  rw [ht.schema, take_append_filter migrations (not_lt.mp hnew)] at huheld
  intro v hv _
  have hvheld := hv.held.trans huheld
  refine ⟨by simp [contract, hvheld], fun kept _ ↦ ?_⟩
  cases kept with
  | false => exact fun _ _ _ ↦ trivial
  | true =>
    have hstep : (machine migrations release).perform i (.setVersion (release i)) true v =
        (true, v.into i ⟨release i, migrations.all.take (release i)⟩) :=
      @Registry.write_held v i _ (fun database ↦ ⟨release i, database.schema⟩) hvheld
    rw [hstep]
    intro w hw _
    have hwheld := hw.held.trans Registry.held_into
    have hwfile : w.file = t.file :=
      (hw.file_eq Registry.held_into).trans ((hv.file_eq huheld).trans hufile)
    refine ⟨fun draft hdraft ↦ ?_, fun kept _ ↦ ?_⟩
    · obtain rfl := Option.some.inj (hwheld.symm.trans hdraft)
      exact ⟨⟨hrelease, rfl⟩, hwfile ▸ not_lt.mp hnew⟩
    · have hstep : (machine migrations release).perform i .commit kept w =
          if kept then (true, ⟨⟨release i, migrations.all.take (release i)⟩, none⟩) else (false, w) := by
        simp [machine, Registry.perform, hwheld]
      rw [hstep]
      cases kept with
      | false => exact fun _ _ _ ↦ trivial
      | true => exact fun x hx _ ↦ ⟨hx.held.trans rfl, hx.version⟩

/-- What an open that ended leaves. -/
def Ended (release : ℕ → ℕ) (i : ℕ) (result : Except Error ℕ) (r : Registry) : Prop :=
  r.held i = none ∧ Answered release i result r

theorem safe_run (hrelease : release i ≤ migrations.all.length) (h : r.held i = none) :
    Safe (machine migrations release) (contract migrations) i (Ended release i)
      (run (migrations.all.take (release i)) (release i)).run r := by
  refine safe_version (fun t hrely ↦ ⟨hrely.held.trans h, trivial⟩) fun t hrely ht ↦ ?_
  have hheld : t.held i = none := hrely.held.trans h
  rw [hheld, Option.getD_none]
  by_cases hsame : t.file.version = release i
  · rw [if_pos hsame]
    exact fun u hu _ ↦ ⟨hu.held.trans hheld, hsame.le, hsame ▸ hu.version⟩
  rw [if_neg hsame]
  by_cases hnew : release i < t.file.version
  · rw [if_pos hnew]
    exact fun u hu _ ↦ ⟨hu.held.trans hheld, rfl, hnew, hu.version⟩
  rw [if_neg hnew]
  intro u hu _
  refine ⟨trivial, fun granted _ ↦ ?_⟩
  have hstep : (machine migrations release).perform i .begin granted u =
      if granted && u.writing.isNone then (true, u.into i u.file) else (false, u) := rfl
  rw [hstep]
  split
  · refine safe_outcome_bind ((safe_upgrade hrelease Registry.held_into).mono fun result v hv ↦ ?_)
    rcases result with error | _
    · refine fun w hw _ ↦ ⟨trivial, fun _ _ x hx _ ↦ ⟨?_, Answered.mono hv (hw.version.trans hx.version)⟩⟩
      exact hx.held.trans (Registry.held_release.trans (if_pos rfl))
    · exact fun w hw _ ↦ ⟨hw.held.trans hv.1, not_lt.mp hnew, hv.2.trans hw.version⟩
  · exact fun v hv _ ↦ ⟨hv.held.trans (hu.held.trans hheld), trivial⟩

end Safety

/-- A statement that may be performed keeps the file, and what the others count on. -/
theorem perform_keeps {migrations : Sequence} {r : Registry} {i : ℕ} {s : Statement} (choice : s.Choice)
    (hinv : r.file.Sound migrations) (hpre : (contract migrations).pre i s r) :
    (Registry.perform i s choice r).2.file.Sound migrations ∧
      ∀ j, j ≠ i → Registry.Rely j r (Registry.perform i s choice r).2 := by
  have hsame : r.file.Sound migrations ∧ ∀ j, j ≠ i → Registry.Rely j r r :=
    ⟨hinv, fun j _ ↦ (contract migrations).rely_refl j r⟩
  have hinto (draft : Database) (h : r.Only i) : (r.into i draft).file.Sound migrations ∧
      ∀ j, j ≠ i → Registry.Rely j r (r.into i draft) :=
    ⟨hinv, fun j hji ↦ h.rely (Registry.only_of_held Registry.held_into) hji le_rfl⟩
  have hwrite (f : Database → Database) (h : r.held i ≠ none) :
      (r.write i f).2.file.Sound migrations ∧ ∀ j, j ≠ i → Registry.Rely j r (r.write i f).2 := by
    obtain ⟨draft, hdraft⟩ := Option.ne_none_iff_exists'.mp h
    rw [Registry.write_held hdraft]
    exact hinto _ (Registry.only_of_held hdraft)
  cases s with
  | version => exact hsame
  | begin =>
    by_cases hgranted : (choice && r.writing.isNone) = true
    · rw [show Registry.perform i .begin choice r = (true, r.into i r.file) from if_pos hgranted]
      have hnone := Option.isNone_iff_eq_none.mp (Bool.and_eq_true_iff.mp hgranted).2
      exact hinto _ (Registry.only_of_none hnone)
    · rw [show Registry.perform i .begin choice r = (false, r) from if_neg hgranted]
      exact hsame
  | executeBatch migration =>
    cases choice with
    | none => exact hwrite _ hpre
    | some left => exact hwrite _ hpre
  | setVersion version =>
    cases choice with
    | false => exact hsame
    | true => exact hwrite (fun database ↦ { database with version }) hpre
  | commit =>
    rcases hheld : r.held i with _ | draft
    · simpa [Registry.perform, hheld] using hsame
    · cases choice with
      | false => simpa [Registry.perform, hheld] using hsame
      | true =>
        obtain ⟨hsound, hversion⟩ := hpre draft hheld
        have hstep : (Registry.perform i .commit true r).2 = ⟨draft, none⟩ := by
          simp [Registry.perform, hheld]
        rw [hstep]
        exact ⟨hsound, fun j hji ↦
          (Registry.only_of_held hheld).rely (Registry.only_of_none rfl) hji hversion⟩
  | rollback => exact ⟨hinv, fun j hji ↦ Registry.release_rely hji⟩

theorem enter_eq_some {migrations : Sequence} {release : ℕ → ℕ} {r world : Registry} {i : ℕ}
    (h : (machine migrations release).enter i () r = some world) :
    (release i ≤ migrations.all.length ∧ r.held i = none) ∧ world = r := by
  simpa [machine, eq_comm] using h

theorem sound (migrations : Sequence) (release : ℕ → ℕ) : Sound (machine migrations release)
    (contract migrations) (Ended release) fun _ _ ↦ True where
  assume _ _ := trivial
  act {_ _ choice effect _} _ _ hinv hpre :=
    have hkeeps := perform_keeps (choice effect) hinv hpre
    ⟨hkeeps.1, fun j _ hji _ ↦ Or.inl (hkeeps.2 j hji)⟩
  enter _ _ hworld hinv := by
    obtain ⟨⟨hrelease, hheld⟩, rfl⟩ := enter_eq_some hworld
    exact ⟨hinv, safe_run hrelease hheld, fun j _ _ _ ↦ Or.inl ((contract migrations).rely_refl j _)⟩
  leave _ _ hinv := ⟨hinv, fun j _ hji _ ↦ Or.inl (Registry.release_rely hji)⟩

/-! ### A whole history -/

/-- The registry, and what each open has left to do. -/
abbrev Stage : Type := Config ℕ Registry Statement Statement.Answer (Except Error ℕ)

/-- One step of a history. -/
abbrev Happening : Type := Label ℕ Unit Statement Statement.Choice

variable {migrations : Sequence} {release : ℕ → ℕ}

theorem next_version_le {c c' : Stage} {label : Happening}
    (hc : Guarded (machine migrations release) (contract migrations) (Ended release) c)
    (hnext : (machine migrations release).next c label = some c') :
    c.world.file.version ≤ c'.world.file.version := by
  cases label with
  | enter i job =>
    obtain ⟨-, world, hworld, rfl⟩ := Machine.next_enter_eq_some.mp hnext
    rw [(enter_eq_some hworld).2]
  | act i choice =>
    obtain ⟨effect, rest, hrunning, rfl⟩ := Machine.next_act_eq_some.mp hnext
    have hpre := (hc.2 i _ hrunning c.world ((contract migrations).rely_refl i _) hc.1).1
    exact ((perform_keeps (choice effect) hc.1 hpre).2 (i + 1) (Nat.succ_ne_self i)).version
  | leave i =>
    obtain ⟨_, -, rfl⟩ := Machine.next_leave_eq_some.mp hnext
    exact (Registry.release_rely (Nat.succ_ne_self i)).version

/-- From a sound file that nobody has open, whatever happens: the version never goes back, the file holds the
migrations up to it, and an open that ended is in no transaction and answered what is true. -/
theorem opened {start c c' : Stage} {first second : List Happening}
    (hfile : start.world.file.Sound migrations) (hidle : ∀ i, start.running i = none)
    (hfirst : (machine migrations release).exec start first = some c)
    (hsecond : (machine migrations release).exec c second = some c') :
    c.world.file.version ≤ c'.world.file.version ∧ c'.world.file.Sound migrations ∧
      ∀ i result, c'.running i = some (.done result) →
        c'.world.held i = none ∧ Answered release i result c'.world := by
  have hstart : Guarded (machine migrations release) (contract migrations) (Ended release) start :=
    ⟨hfile, fun i p hp ↦ by simp [hidle i] at hp⟩
  have hc := (sound migrations release).guarded_exec (Machine.along_of_labels fun _ _ ↦ trivial) hfirst
    hstart
  obtain ⟨hguarded, hversion⟩ := Machine.exec_induction
    (fun _ label _ _ hnext (h : Guarded _ _ (Ended release) _ ∧ c.world.file.version ≤ _) ↦
      ⟨(sound migrations release).guarded_next trivial hnext h.1, h.2.trans (next_version_le h.1 hnext)⟩)
    (Machine.along_of_labels fun _ _ ↦ trivial) hsecond ⟨hc, le_rfl⟩
  refine ⟨hversion, hguarded.1, fun i result hresult ↦ ?_⟩
  exact hguarded.2 i _ hresult c'.world ((contract migrations).rely_refl i _) hguarded.1

/-- An empty file that nobody has open. -/
def created : Stage := ⟨⟨⟨0, []⟩, none⟩, fun _ ↦ none⟩

/-- What the outside chooses where every statement succeeds. -/
def granted : (s : Statement) → s.Choice
  | .executeBatch _ => none
  | .rollback => ()
  | .version | .begin | .setVersion _ | .commit => true

/-- One process of the release as it stands, and others of one that had two migrations. -/
def mixed : Machine ℕ Unit Registry Statement Statement.Answer Statement.Choice (Except Error ℕ) :=
  machine MIGRATIONS (if · = 0 then 17 else 2)

/-- The old release waits for the lock in vain, and comes back when the new one has committed. -/
def waiting : List Happening :=
  [.enter 0 (), .enter 1 (), .act 1 granted, .act 0 granted, .act 0 granted, .act 1 granted]

def afterwards : List Happening :=
  List.replicate 20 (.act 0 granted) ++ [.leave 1, .enter 1 (), .act 1 granted]

theorem opened_mixed : ∃ c c', mixed.exec created waiting = some c ∧ mixed.exec c afterwards = some c' ∧
    c'.world.file.version = 17 ∧ c'.world.file.Sound MIGRATIONS := by
  have hruns : (mixed.exec created waiting).any
      (fun c ↦ (mixed.exec c afterwards).any (·.world.file.version = 17)) = true := by decide +kernel
  obtain ⟨c, hfirst, hc⟩ := (Option.any_eq_true ..).mp hruns
  obtain ⟨c', hsecond, hversion⟩ := (Option.any_eq_true ..).mp hc
  exact ⟨c, c', hfirst, hsecond, of_decide_eq_true hversion,
    (opened ⟨Nat.zero_le _, rfl⟩ (fun _ ↦ rfl) hfirst hsecond).2.1⟩

end Nodal.Store.Migrations
