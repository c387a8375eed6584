import Nodal.Locks.Visit

/-!
# A lapsed hold

The lapse of a hold is decided twice: over the row that was read, and in the `WHERE` clause of the
take over a deadline that is handed to it. `take` says the deadline is that of the holder's idle
window. `enter` hands it the one of the hold it is about to write, which has only just begun.

`lapsed_entered_iff` says when the two decisions agree: a hold that has lapsed lets another entry in
where its absolute expiry has passed, and otherwise only where it is the entry's own actor on its
own host, from a session the row does not state or that is proven gone.
-/

set_option autoImplicit false

namespace Nodal.Locks

/-- An entry succeeds and leaves the row naming the one who entered. -/
def Enters (unit : WorkUnit) (v : Visit) (r : Registry) : Prop :=
  (∃ entered, (visit unit v r).1 = .ok entered) ∧
    ∃ row, (visit unit v r).2.locks unit.id = some row ∧ Names v.entry row

section Windows

variable {unit : WorkUnit} {v : Visit} {row : Lock}

/-- The window an entry would start is open. -/
theorem lt_deadline (hhours : 1 ≤ v.entry.idleHours) :
    v.entry.now.unixSeconds < v.deadline unit :=
  @Lock.lt_idleDeadline (v.entry.claim unit.id) v.entry.idleHours hhours

/-- A held row yields to a claim that starts an open window only where its absolute expiry has passed
or it is the holder's own. -/
theorem yields_claim_iff (hactor : row.actor.isSome = true) (hhours : 1 ≤ v.entry.idleHours) :
    row.Yields (v.entry.claim unit.id) v.entry.now (v.deadline unit) ↔
      row.expiresAt ≤ v.entry.now ∨ row.Matches (v.entry.claim unit.id) := by
  have hopen : v.entry.now.unixSeconds < v.deadline unit := lt_deadline hhours
  have hsome : row.actor ≠ none := Option.isSome_iff_ne_none.mp hactor
  constructor
  · rintro (hexpired | hidle | hnone | hmatches)
    · exact .inl hexpired
    · omega
    · exact (hsome hnone).elim
    · exact .inr hmatches
  · rintro (hexpired | hmatches)
    · exact .inl hexpired
    · exact .inr (.inr (.inr hmatches))

end Windows

/-- A lapsed hold lets another entry in exactly where its absolute expiry has passed, or where it is
the entry's own actor on its own host from a session that is unstated or proven gone. -/
theorem lapsed_entered_iff {unit : WorkUnit} {v : Visit} {r : Registry} {row : Lock}
    (hrow : r.locks unit.id = some row) (hactor : row.actor.isSome = true)
    (hhours : 1 ≤ v.entry.idleHours) (hlapsed : row.HasLapsed v.entry.now v.entry.idleHours)
    (hother : ¬Names v.entry row) (htake : v.entry.take = false) :
    Enters unit v r ↔ row.expiresAt ≤ v.entry.now ∨
      row.IsHeldBy v.entry.actor v.entry.host ∧
        (row.session = none ∨ v.lineage row = .gone) := by
  have hunstated : row.Matches (v.entry.claim unit.id) →
      row.IsHeldBy v.entry.actor v.entry.host ∧ row.session = none := by
    rintro ⟨hhost, hsame, hnone | hsession⟩
    · exact ⟨⟨hhost, hsame⟩, hnone⟩
    · exact (hother ⟨hsame, hhost, hsession⟩).elim
  have hreached : ∀ {row' : Lock}, r.locks unit.id = some row' → Reached unit v row' →
      row' = row ∧ ¬row.expiresAt ≤ v.entry.now ∧ ¬row.Matches (v.entry.claim unit.id) := by
    intro row' hrow' hreached
    obtain rfl : row = row' := Option.some.inj (hrow.symm.trans hrow')
    rcases hreached with hholds | hyields
    · exact (hholds.2 hlapsed).elim
    · rw [yields_claim_iff hactor hhours, not_or] at hyields
      exact ⟨rfl, hyields⟩
  have houtcome : Outcome unit v r (visit unit v r) := visit_outcome
  unfold Enters
  generalize visit unit v r = result at houtcome
  cases houtcome with
  | took hfree =>
    have hyields := (hfree row hrow).2
    rw [yields_claim_iff hactor hhours] at hyields
    refine iff_of_true ⟨⟨.took, rfl⟩, named_of_put locks_recordedFrom rfl names_taken⟩ ?_
    exact hyields.imp_right fun hmatches ↦ ⟨(hunstated hmatches).1, .inl (hunstated hmatches).2⟩
  | refreshed row' hrow' hreach hheld hlineage =>
    obtain ⟨rfl, hexpires, hmatches⟩ := hreached hrow' hreach
    have hstated : row'.session ≠ none := fun hnone ↦ hmatches ⟨hheld.1, hheld.2, .inl hnone⟩
    obtain ⟨sid, hsid⟩ := Option.ne_none_iff_exists'.mp hstated
    refine iff_of_false (fun ⟨_, row, hafter, hnames⟩ ↦ hother ⟨hheld.2, hheld.1, ?_⟩) ?_
    · -- A refresh writes the session that the row records.
      have hrefresh := Option.some.inj ((locks_refresh hrow').symm.trans hafter)
      rw [← hnames.2.2, ← hrefresh]
      simp [Registry.taken, Entry.refresh, hsid]
    · rintro (hexpired | ⟨_, hnone | hgone⟩)
      · exact hexpires hexpired
      · exact hstated hnone
      · simp [hgone] at hlineage
  | provenDead row' hrow' hreach hheld hgone =>
    obtain ⟨rfl, _, _⟩ := hreached hrow' hreach
    exact iff_of_true ⟨⟨.takenOver, rfl⟩, named_of_put locks_recorded rfl names_claim⟩
      (.inr ⟨hheld, .inr hgone⟩)
  | asked row' hrow' hreach hchallenges hasked => simp [htake] at hasked
  | refused row' error hrow' hreach hchallenges hasked =>
    obtain ⟨rfl, hexpires, hmatches⟩ := hreached hrow' hreach
    refine iff_of_false (fun h ↦ by simp at h) ?_
    rintro (hexpired | ⟨hheld, hnone | hgone⟩)
    · exact hexpires hexpired
    · exact hmatches ⟨hheld.1, hheld.2, .inl hnone⟩
    · simp [hchallenges hheld] at hgone

/-! ### A window that has run out and refuses -/

/-- A person at a terminal. -/
def person (name : String) : Actor := ⟨.human, name⟩

/-- A unit to enter. -/
def someUnit : WorkUnit := ⟨"01J9X2K4Q7QW8QG4M2N5B3T6HP", "api"⟩

/-- An entry from the laptop without `--take`, under a window of eight hours. -/
def entering (name : String) (session : Option ℕ) (now : Timestamp) : Entry where
  actor := person name
  host := "laptop"
  session := session
  process := ⟨4120, none⟩
  take := false
  now := now
  idleHours := 8

/-- A process table that nobody may read. -/
def unreadable : (effect : Effect) → effect.Choice
  | .sessionIsLive _ | .presences _ => none
  | .get _ | .take _ _ _ | .handOver _ | .note _ _ => ()

/-- A registry with one row. -/
def oneRow (lock : Lock) : Registry :=
  Registry.put ⟨fun _ ↦ none, @Registry.keyed_none, fun _ ↦ []⟩ lock

/-- The hold that ada took when the clock began. -/
def adasHold : Lock := (entering "ada" (some 4100) .epoch).claim someUnit.id

/-- The entry of bo, eight hours later. -/
def bosEntry : Entry := entering "bo" (some 4200) ⟨28800, by decide⟩

/-- A hold whose idle window has run out can refuse another actor: its absolute expiry has not
passed. -/
theorem lapsed_refused : (oneRow adasHold).locks someUnit.id = some adasHold ∧
    adasHold.actor.isSome = true ∧ 1 ≤ bosEntry.idleHours ∧
    adasHold.HasLapsed bosEntry.now bosEntry.idleHours ∧ ¬Names bosEntry adasHold ∧
    bosEntry.take = false ∧ ¬Enters someUnit ⟨bosEntry, unreadable⟩ (oneRow adasHold) := by
  have hrefused : (visit someUnit ⟨bosEntry, unreadable⟩ (oneRow adasHold)).1.isOk = false := by
    decide +kernel
  refine ⟨by decide, by decide, by decide, by decide, by decide, by decide, fun h ↦ ?_⟩
  obtain ⟨⟨entered, hentered⟩, _⟩ := h
  rw [hentered] at hrefused
  cases hrefused

/-- `lapsed_entered_iff` sixteen hours later, when the absolute expiry has passed as well. -/
theorem lapsed_entered_iff_expired :
    Enters someUnit ⟨entering "bo" (some 4200) ⟨57600, by decide⟩, unreadable⟩ (oneRow adasHold) :=
  (@lapsed_entered_iff _ _ _ adasHold (by decide) (by decide) (by decide) (by decide) (by decide)
    (by decide)).mpr (.inl (by decide))

end Nodal.Locks
