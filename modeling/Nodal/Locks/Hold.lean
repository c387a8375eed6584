import Mathlib.Algebra.Group.Int.Defs
import Mathlib.Algebra.GroupWithZero.Nat
import Mathlib.Data.Int.Notation
import Mathlib.Logic.Function.Basic
import Mathlib.Tactic.Common

/-!
# A hold and the row that records it

`model/lock.rs`, `model/timestamp.rs`, `store/locks.rs`: a `Lock` says who may write a unit, and the
registry keeps one row of it for each unit. A hold lapses by either of two clocks, the absolute
expiry it carries and the idle window since its last entry.

Two statements write the row. `take` is conditional and one statement, so no other process acts
between its test and its write; the deadline of the idle window is handed to it. `handOver` writes
whatever the row says.

A row keeps whole seconds, and every comparison is with an instant of a row, so an instant here is
whole seconds as well.
-/

set_option autoImplicit false

namespace Nodal.Locks

/-- The identifier of a unit, by the text of its ULID. -/
abbrev UnitId := String

/-- The name of a host. -/
abbrev HostName := String

/-- Whether an actor is a person or a program acting on its own. -/
inductive ActorKind
  | human
  | agent
  deriving DecidableEq, Repr

/-- Who did something. -/
structure Actor where
  kind : ActorKind
  name : String
  deriving DecidableEq, Repr

/-! ### Instants -/

/-- A UTC instant, in seconds since the epoch, within the years an instant can carry. -/
structure Timestamp where
  unixSeconds : ℤ
  supported : -377705116800 ≤ unixSeconds ∧ unixSeconds ≤ 253402300799
  deriving DecidableEq, Repr

namespace Timestamp

/-- The first instant of 1970. -/
def epoch : Timestamp :=
  ⟨0, by decide⟩

/-- Build from whole seconds since the epoch. -/
def fromUnixSeconds (seconds : ℤ) : Option Timestamp :=
  if h : -377705116800 ≤ seconds ∧ seconds ≤ 253402300799 then some ⟨seconds, h⟩ else none

instance : LE Timestamp := ⟨fun a b ↦ a.unixSeconds ≤ b.unixSeconds⟩

instance decidableLe (a b : Timestamp) : Decidable (a ≤ b) :=
  inferInstanceAs (Decidable (a.unixSeconds ≤ b.unixSeconds))

theorem le_iff {a b : Timestamp} : a ≤ b ↔ a.unixSeconds ≤ b.unixSeconds := Iff.rfl

end Timestamp

/-- The arithmetic of a 64-bit integer that stops at its ends. -/
def saturate (n : ℤ) : ℤ := max (-2 ^ 63) (min n (2 ^ 63 - 1))

theorem saturate_eq {n : ℤ} (h : -2 ^ 63 ≤ n ∧ n ≤ 2 ^ 63 - 1) : saturate n = n := by
  unfold saturate
  omega

/-! ### Holds -/

/-- The process a hold was taken by: its identifier, and when that identifier began. -/
structure Holding where
  pid : ℕ
  startedAt : Option Timestamp
  deriving DecidableEq, Repr

/-- The single-writer claim on a unit. -/
structure Lock where
  unitId : UnitId
  host : HostName
  actor : Option Actor
  process : Option Holding
  session : Option ℕ
  takenAt : Timestamp
  refreshedAt : Timestamp
  expiresAt : Timestamp
  deriving DecidableEq, Repr

namespace Lock

variable {lock row : Lock} {now : Timestamp} {idleHours : UInt32} {actor : Actor} {host : HostName}
  {session : Option ℕ}

/-- The identifier of the process the hold was taken by. -/
def pid (lock : Lock) : Option ℕ := lock.process.map Holding.pid

/-- The instant the idle window runs out, in seconds since the epoch. -/
def idleDeadline (lock : Lock) (idleHours : UInt32) : ℤ :=
  saturate (lock.refreshedAt.unixSeconds + saturate (idleHours.toNat * 3600))

/-- Whether the lock has lapsed, by either clock. -/
def HasLapsed (lock : Lock) (now : Timestamp) (idleHours : UInt32) : Prop :=
  lock.expiresAt ≤ now ∨ lock.idleDeadline idleHours ≤ now.unixSeconds

instance : Decidable (lock.HasLapsed now idleHours) :=
  inferInstanceAs (Decidable (_ ∨ _))

/-- Whether anybody holds this lock: a row that records no actor is held by nobody. -/
def HoldsAnyone (lock : Lock) (now : Timestamp) (idleHours : UInt32) : Prop :=
  lock.actor.isSome = true ∧ ¬lock.HasLapsed now idleHours

instance : Decidable (lock.HoldsAnyone now idleHours) :=
  inferInstanceAs (Decidable (_ ∧ _))

/-- Whether `actor` on `host` is the one holding this lock. -/
def IsHeldBy (lock : Lock) (actor : Actor) (host : HostName) : Prop :=
  lock.host = host ∧ lock.actor = some actor

instance : Decidable (lock.IsHeldBy actor host) :=
  inferInstanceAs (Decidable (_ ∧ _))

/-- Whether the hold was taken from the lineage `session` names. -/
def wasTakenFrom (lock : Lock) (session : Option ℕ) : Bool :=
  match lock.session, session with
  | some recorded, some asking => recorded == asking
  | _, _ => false

theorem wasTakenFrom_iff :
    lock.wasTakenFrom session = true ↔ ∃ sid, lock.session = some sid ∧ session = some sid := by
  unfold wasTakenFrom
  cases lock.session with
  | none => simp
  | some recorded =>
    cases session with
    | none => simp
    | some asking =>
      simp only [beq_iff_eq, Option.some.injEq]
      constructor
      · rintro rfl
        exact ⟨recorded, rfl, rfl⟩
      · rintro ⟨sid, rfl, rfl⟩
        rfl

/-- No window reaches the end of a 64-bit integer, so a deadline is a sum. -/
theorem idleDeadline_eq :
    lock.idleDeadline idleHours = lock.refreshedAt.unixSeconds + idleHours.toNat * 3600 := by
  have hhours := idleHours.toNat_lt
  have hsupported := lock.refreshedAt.supported
  unfold idleDeadline
  rw [saturate_eq (n := idleHours.toNat * 3600) (by omega), saturate_eq (by omega)]

/-- A window of an hour or more is open when it is started. -/
theorem lt_idleDeadline (h : 1 ≤ idleHours) : lock.refreshedAt.unixSeconds <
    lock.idleDeadline idleHours := by
  have hpos : 1 ≤ idleHours.toNat := h
  rw [idleDeadline_eq]
  omega

end Lock

/-! ### The two writes of a row -/

/-- A line of a unit's log that records a hand-off: who wrote it, what it says, what it refers to. -/
structure Handoff where
  actor : Actor
  body : String
  refs : List (String × String)
  deriving DecidableEq, Repr

/-- The rows of the `lock` table, by the unit each is about, and the hand-offs on each unit's log,
the newest first. -/
structure Registry where
  locks : UnitId → Option Lock
  keyed : ∀ {unit lock}, locks unit = some lock → lock.unitId = unit
  log : UnitId → List Handoff

theorem Registry.keyed_none {unit : UnitId} {lock : Lock} (h : (none : Option Lock) = some lock) :
    lock.unitId = unit :=
  (Option.some_ne_none _ h.symm).elim

/-- The match of the conditional write: the same actor on the same host, from a lineage that the row
does not contradict. -/
def Lock.Matches (row lock : Lock) : Prop :=
  row.host = lock.host ∧ row.actor = lock.actor ∧
    (row.session = none ∨ row.session = lock.session)

instance {row lock : Lock} : Decidable (row.Matches lock) :=
  inferInstanceAs (Decidable (_ ∧ _ ∧ _))

/-- The `WHERE` clause of the conditional write. -/
def Lock.Yields (row lock : Lock) (now : Timestamp) (idleDeadline : ℤ) : Prop :=
  row.expiresAt ≤ now ∨ idleDeadline ≤ now.unixSeconds ∨ row.actor = none ∨ row.Matches lock

instance {row lock : Lock} {now : Timestamp} {idleDeadline : ℤ} :
    Decidable (row.Yields lock now idleDeadline) :=
  inferInstanceAs (Decidable (_ ∨ _ ∨ _ ∨ _))

namespace Registry

variable {r : Registry} {lock row : Lock} {now : Timestamp} {idleDeadline : ℤ} {unit : UnitId}

/-- Write the row of a unit. -/
def put (r : Registry) (lock : Lock) : Registry :=
  { r with
    locks := Function.update r.locks lock.unitId (some lock)
    keyed := by
      intro unit row h
      by_cases hunit : unit = lock.unitId
      · subst hunit
        rw [Function.update_self] at h
        rw [← Option.some.inj h]
      · rw [Function.update_of_ne hunit] at h
        exact r.keyed h }

/-- Take the write on a unit, or refresh a hold. `false` where the row does not yield. -/
def take (r : Registry) (lock : Lock) (now : Timestamp) (idleDeadline : ℤ) : Bool × Registry :=
  match r.locks lock.unitId with
  | none => (true, r.put lock)
  | some row =>
    if row.Yields lock now idleDeadline then
      (true, r.put { lock with takenAt := if row.Matches lock then row.takenAt else lock.takenAt })
    else (false, r)

/-- Move the hold, whoever held it and whatever the clock says. -/
def handOver (r : Registry) (lock : Lock) : Registry := r.put lock

/-- Write a hand-off on the log of a unit. -/
def note (r : Registry) (unit : UnitId) (line : Handoff) : Registry :=
  { r with log := Function.update r.log unit (line :: r.log unit) }

@[simp] theorem locks_put_self : (r.put lock).locks lock.unitId = some lock :=
  Function.update_self ..

@[simp] theorem log_put : (r.put lock).log = r.log := rfl

@[simp] theorem locks_note {line : Handoff} : (r.note unit line).locks = r.locks := rfl

@[simp] theorem log_note_self {line : Handoff} :
    (r.note unit line).log unit = line :: r.log unit :=
  Function.update_self ..

/-- The hold a take leaves: the one it was given, which began when the row's did if they match. -/
def taken (held : Option Lock) (lock : Lock) : Lock :=
  { lock with takenAt := match held with
      | some row => if row.Matches lock then row.takenAt else lock.takenAt
      | none => lock.takenAt }

/-- A take does what its statement says: it writes the row where there is none or it yields. -/
theorem take_eq_true (h : ∀ row, r.locks lock.unitId = some row → row.Yields lock now idleDeadline) :
    r.take lock now idleDeadline = (true, r.put (taken (r.locks lock.unitId) lock)) := by
  unfold take
  split
  · next hnone => simp [hnone, taken]
  · next row hrow => simp [hrow, taken, h row hrow]

theorem take_eq_false (hrow : r.locks lock.unitId = some row)
    (h : ¬row.Yields lock now idleDeadline) : r.take lock now idleDeadline = (false, r) := by
  simp [take, hrow, h]

/-- Everything a take can do. -/
theorem take_cases (r : Registry) (lock : Lock) (now : Timestamp) (idleDeadline : ℤ) :
    ((∀ row, r.locks lock.unitId = some row → row.Yields lock now idleDeadline) ∧
      r.take lock now idleDeadline = (true, r.put (taken (r.locks lock.unitId) lock))) ∨
    ∃ row, r.locks lock.unitId = some row ∧ ¬row.Yields lock now idleDeadline ∧
      r.take lock now idleDeadline = (false, r) := by
  by_cases h : ∀ row, r.locks lock.unitId = some row → row.Yields lock now idleDeadline
  · exact .inl ⟨h, take_eq_true h⟩
  · obtain ⟨row, hrow⟩ := not_forall.mp h
    obtain ⟨hrow, hyields⟩ := Classical.not_imp.mp hrow
    exact .inr ⟨row, hrow, hyields, take_eq_false hrow hyields⟩

end Registry

end Nodal.Locks
