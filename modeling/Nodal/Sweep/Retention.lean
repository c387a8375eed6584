import Nodal.Locks.Entry
import Nodal.Sweep.Retire

/-!
# How long a window lasts

`model/trash.rs` and `runtime/lock.rs` each put an end to a window that starts at an instant: the
retention of a home, in days, and the absolute end of a hold, in hours. The seconds are added in an
integer that stops at its ends, and the sum is made an instant again, which the calendar allows up to
the last second of the year 9999. A sum past that second is answered with the start of the window.

So a window ends later when it is longer, and later than it starts, exactly as long as its end is in
the calendar (`longer_iff`). A window that is longer than that is over at once (`forever_is_over`).
-/

set_option autoImplicit false

namespace Nodal.Retention

open Locks

/-! ### Instants with their fraction of a second -/

/-- A UTC instant: its whole seconds and the nanoseconds after them. -/
structure Instant where
  whole : Timestamp
  nanosecond : Fin 1000000000
  deriving DecidableEq

namespace Instant

/-- Whole seconds since the epoch, the form the store keeps. -/
def unixSeconds (instant : Instant) : ℤ := instant.whole.unixSeconds

instance : LE Instant :=
  ⟨fun a b ↦ a.unixSeconds < b.unixSeconds ∨
    a.unixSeconds = b.unixSeconds ∧ a.nanosecond.val ≤ b.nanosecond.val⟩

instance : LT Instant :=
  ⟨fun a b ↦ a.unixSeconds < b.unixSeconds ∨
    a.unixSeconds = b.unixSeconds ∧ a.nanosecond.val < b.nanosecond.val⟩

instance (a b : Instant) : Decidable (a ≤ b) :=
  inferInstanceAs (Decidable (_ ∨ _))

theorem le_iff {a b : Instant} : a ≤ b ↔ a.unixSeconds < b.unixSeconds ∨
    a.unixSeconds = b.unixSeconds ∧ a.nanosecond.val ≤ b.nanosecond.val := Iff.rfl

theorem lt_iff {a b : Instant} : a < b ↔ a.unixSeconds < b.unixSeconds ∨
    a.unixSeconds = b.unixSeconds ∧ a.nanosecond.val < b.nanosecond.val := Iff.rfl

/-- Build from whole seconds since the epoch. -/
def fromUnixSeconds (seconds : ℤ) : Option Instant :=
  (Timestamp.fromUnixSeconds seconds).map fun whole ↦ ⟨whole, 0⟩

/-- The instant a number of seconds after another, and that other instant where the calendar has none. -/
def ahead (instant : Instant) (seconds : ℤ) : Instant :=
  (fromUnixSeconds (saturate (instant.unixSeconds + seconds))).getD instant

/-- The calendar has the instant a number of seconds after another. -/
def Fits (instant : Instant) (seconds : ℕ) : Prop :=
  instant.unixSeconds + seconds ≤ 253402300799

instance (instant : Instant) (seconds : ℕ) : Decidable (instant.Fits seconds) :=
  inferInstanceAs (Decidable (_ ≤ _))

/-- What is left of it where instants are whole seconds. -/
theorem ahead_whole (instant : Instant) (seconds : ℤ) : (instant.ahead seconds).whole =
    (Timestamp.fromUnixSeconds (saturate (instant.whole.unixSeconds + seconds))).getD
      instant.whole := by
  unfold ahead fromUnixSeconds unixSeconds
  cases Timestamp.fromUnixSeconds (saturate (instant.whole.unixSeconds + seconds)) with
  | none => rfl
  | some whole => rfl

variable {a b : Instant} {seconds fewer more : ℕ}

theorem saturate_ahead (hseconds : seconds < 2 ^ 62) :
    saturate (a.unixSeconds + seconds) = a.unixSeconds + seconds := by
  have hsupported := a.whole.supported
  apply saturate_eq
  unfold unixSeconds
  omega

/-- A window that ends in the calendar ends on the second. -/
theorem ahead_of_fits (hseconds : seconds < 2 ^ 62) (hfits : a.Fits seconds) :
    (a.ahead seconds).unixSeconds = a.unixSeconds + seconds ∧ (a.ahead seconds).nanosecond = 0 := by
  have hsupported : -377705116800 ≤ a.unixSeconds + seconds ∧
      a.unixSeconds + seconds ≤ 253402300799 := by
    have := a.whole.supported
    unfold Fits unixSeconds at *
    omega
  unfold ahead fromUnixSeconds Timestamp.fromUnixSeconds
  rw [saturate_ahead hseconds, dif_pos hsupported]
  exact ⟨rfl, rfl⟩

/-- A window that does not ends where it starts. -/
theorem ahead_of_not_fits (hseconds : seconds < 2 ^ 62) (hfits : ¬a.Fits seconds) :
    a.ahead seconds = a := by
  unfold ahead fromUnixSeconds Timestamp.fromUnixSeconds
  rw [saturate_ahead hseconds, dif_neg fun hsupported ↦ hfits hsupported.2]
  rfl

/-- A window that starts no later and is no longer fits where the other does. -/
theorem Fits.of_le (hfits : b.Fits more) (hstart : a ≤ b) (hlength : fewer ≤ more) :
    a.Fits fewer := by
  rw [le_iff] at hstart
  unfold Fits at *
  omega

end Instant

/-! ### The two windows -/

/-- The instant a retention of `days` from `start` runs out. -/
def expiry (start : Instant) (days : UInt32) : Instant :=
  start.ahead (saturate (days.toNat * (24 * 60 * 60)))

/-- How far ahead a fresh hold's absolute expiry sits. -/
def absoluteExpiry (now : Instant) (idleHours : UInt32) : Instant :=
  now.ahead (saturate ((min (idleHours.toNat * absoluteWindows) (2 ^ 32 - 1) : ℕ) * 3600))

/-- On whole seconds it is the end the sweep of merged units computes. -/
theorem expiry_whole (start : Instant) (days : UInt32) :
    (expiry start days).whole = Sweep.expiry start.whole days :=
  start.ahead_whole _

/-- On whole seconds it is the end an entry writes. -/
theorem absoluteExpiry_whole (now : Instant) (idleHours : UInt32) :
    (absoluteExpiry now idleHours).whole = Locks.absoluteExpiry now.whole idleHours :=
  now.ahead_whole _

/-- How many seconds a retention is asked to last. -/
def retained (days : UInt32) : ℕ := days.toNat * 86400

/-- How many seconds a hold is asked to last. -/
def held (idleHours : UInt32) : ℕ := min (idleHours.toNat * absoluteWindows) (2 ^ 32 - 1) * 3600

theorem retained_lt (days : UInt32) : retained days < 2 ^ 62 := by
  have := days.toNat_lt
  unfold retained
  omega

theorem held_lt (idleHours : UInt32) : held idleHours < 2 ^ 62 := by
  unfold held
  omega

theorem expiry_eq (start : Instant) (days : UInt32) :
    expiry start days = start.ahead (retained days) := by
  have hseconds : saturate (days.toNat * (24 * 60 * 60)) = retained days := by
    have := days.toNat_lt
    rw [saturate_eq (by omega), retained]
    omega
  rw [expiry, hseconds]

theorem absoluteExpiry_eq (now : Instant) (idleHours : UInt32) :
    absoluteExpiry now idleHours = now.ahead (held idleHours) := by
  have hseconds : saturate ((min (idleHours.toNat * absoluteWindows) (2 ^ 32 - 1) : ℕ) * 3600) =
      held idleHours := by
    rw [saturate_eq (by omega), held]
    omega
  rw [absoluteExpiry, hseconds]

/-! ### Longer windows end later -/

/-- Whether `gc` may remove now what expires at an instant. -/
def HasExpired (expires now : Instant) : Prop :=
  expires.unixSeconds ≤ now.unixSeconds

instance (expires now : Instant) : Decidable (HasExpired expires now) :=
  inferInstanceAs (Decidable (_ ≤ _))

/-- Of two windows the one that starts no earlier and is asked for as much or more ends no earlier, and
where it is asked for anything it ends after it starts and has not expired there. -/
structure Longer (ends : Instant → UInt32 → Instant) (earlier later : Instant)
    (fewer more : UInt32) : Prop where
  monotone : ends earlier fewer ≤ ends later more
  lasts : 1 ≤ more → later < ends later more
  notAtOnce : 1 ≤ more → ¬HasExpired (ends later more) later

section Windows

variable {ends : Instant → UInt32 → Instant} {length : UInt32 → ℕ} {earlier later : Instant}
  {fewer more : UInt32}

/-- Windows of some length keep the law exactly where the longer one fits. Assumes: a length grows with
what is asked for, is not zero where that is not, and is one the sum of seconds can hold. -/
theorem longer_iff_fits (hends : ∀ start asked, ends start asked = start.ahead (length asked))
    (hbound : ∀ asked, length asked < 2 ^ 62)
    (hlength : ∀ {fewer more : UInt32}, fewer ≤ more → length fewer ≤ length more)
    (hpositive : ∀ asked, 1 ≤ asked → 0 < length asked) (hzero : length 0 = 0)
    (hstart : earlier ≤ later) (hasked : fewer ≤ more) :
    Longer ends earlier later fewer more ↔ later.Fits (length more) := by
  constructor
  · intro hlonger
    by_contra hfits
    have hsome : 1 ≤ more := by
      by_contra hnone
      have hmore : more = 0 := by grind
      apply hfits
      rw [hmore, hzero]
      simpa [Instant.Fits, Instant.unixSeconds] using later.whole.supported.2
    apply hlonger.notAtOnce hsome
    rw [hends, Instant.ahead_of_not_fits (hbound more) hfits]
    exact le_refl later.unixSeconds
  · intro hfits
    obtain ⟨hmore, hmore'⟩ := Instant.ahead_of_fits (hbound more) hfits
    obtain ⟨hfewer, hfewer'⟩ :=
      Instant.ahead_of_fits (hbound fewer) (hfits.of_le hstart (hlength hasked))
    have hgrows := hlength hasked
    refine ⟨?_, fun hsome ↦ ?_, fun hsome ↦ ?_⟩
    · rw [hends, hends, Instant.le_iff, hmore, hfewer, hmore', hfewer']
      rw [Instant.le_iff] at hstart
      omega
    · have := hpositive more hsome
      rw [hends, Instant.lt_iff, hmore]
      omega
    · have := hpositive more hsome
      rw [hends, HasExpired, hmore]
      omega

end Windows

/-- A longer retention ends later, and a longer hold, exactly where the end is in the calendar. -/
theorem longer_iff {earlier later : Instant} {fewer more : UInt32} (hstart : earlier ≤ later)
    (hasked : fewer ≤ more) :
    (Longer expiry earlier later fewer more ↔ later.Fits (retained more)) ∧
      (Longer absoluteExpiry earlier later fewer more ↔ later.Fits (held more)) := by
  constructor
  · refine longer_iff_fits expiry_eq retained_lt (fun h ↦ ?_) (fun asked h ↦ ?_) rfl hstart hasked
    · rw [UInt32.le_iff_toNat_le] at h
      unfold retained
      omega
    · rw [UInt32.le_iff_toNat_le] at h
      unfold retained
      have : (1 : UInt32).toNat = 1 := rfl
      omega
  · refine longer_iff_fits absoluteExpiry_eq held_lt (fun h ↦ ?_) (fun asked h ↦ ?_) rfl hstart
      hasked
    · rw [UInt32.le_iff_toNat_le] at h
      unfold held absoluteWindows
      omega
    · rw [UInt32.le_iff_toNat_le] at h
      unfold held absoluteWindows
      have : (1 : UInt32).toNat = 1 := rfl
      omega

/-- Nine in the morning on 7 September 2026. -/
def september : Instant := ⟨⟨1788771600, by decide⟩, 0⟩

theorem longer_month :
    (Longer expiry september september 7 30 ↔ september.Fits (retained 30)) ∧
      (Longer absoluteExpiry september september 7 30 ↔ september.Fits (held 30)) :=
  longer_iff (by decide) (by decide)

/-- The longest retention there is ends before a retention of one day does, and at once. -/
theorem forever_is_over : september ≤ september ∧ (1 : UInt32) ≤ 4294967295 ∧
    ¬Longer expiry september september 1 4294967295 ∧
    ¬expiry september 1 ≤ expiry september 4294967295 ∧
    HasExpired (expiry september 4294967295) september := by
  refine ⟨by decide, by decide, fun hlonger ↦ ?_, by decide, by decide⟩
  exact hlonger.notAtOnce (by decide) (by decide)

end Nodal.Retention
