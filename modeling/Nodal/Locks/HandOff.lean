import Nodal.Locks.Visit

/-!
# What the log says of a hold

A hold moves along five paths: a free take, a lapsed take, a take that did not succeed and was
settled after all, a holder that is proven gone, and `--take`. `log_accounts` says that the unit's
log accounts for all of them: over any sequence of entries, one after the other, it gains one line
for each entry that moved the hold from a recorded actor to another holder, with the ground that the
entry rested on, and none for the others.
-/

set_option autoImplicit false

namespace Nodal.Locks

/-! ### Moves and grounds -/

/-- The row's holder changed from a recorded actor to one that differs in actor, host or stated
session. -/
def Moves (before after : Option Lock) : Prop :=
  ∃ old new, before = some old ∧ after = some new ∧ old.actor.isSome = true ∧
    (new.actor ≠ old.actor ∨ new.host ≠ old.host ∨
      ∃ left here, old.session = some left ∧ new.session = some here ∧ left ≠ here)

/-- The entry's own actor on its own host held the row from another session, and a reading of the
whole table finds no process in that one. -/
def ProvenGone (v : Visit) (row : Lock) : Prop :=
  row.IsHeldBy v.entry.actor v.entry.host ∧ ∃ left here, row.session = some left ∧
    v.entry.session = some here ∧ left ≠ here ∧ v.reading left = some false

/-- The ground on which an entry that was answered so moved a hold. -/
def RestsOn (v : Visit) (row : Lock) (answer : Except Error Entered) : Moved → Prop
  | .leaseExpired => row.HasLapsed v.entry.now v.entry.idleHours ∧ answer = .ok .took
  | .provenDead => ProvenGone v row ∧ answer = .ok .takenOver
  | .asked => v.entry.take = true ∧ ¬ProvenGone v row ∧ answer = .ok .takenOver

section Lineages

variable {unit : WorkUnit} {v : Visit} {r : Registry} {row new : Lock}

/-- A lineage is a second one, or gone, only where both sides state a session and a reading was
made. -/
theorem lineage_of_reading (found : Bool)
    (h : v.lineage row = if found then .second else .gone) :
    ∃ left here, row.session = some left ∧ v.entry.session = some here ∧ left ≠ here ∧
      v.reading left = some found := by
  unfold Visit.lineage lineage at h
  cases hleft : row.session with
  | none => cases found <;> simp [hleft, Lock.wasTakenFrom] at h
  | some left =>
  cases hhere : v.entry.session with
  | none => cases found <;> simp [hleft, hhere, Lock.wasTakenFrom] at h
  | some here =>
  simp only [hleft, hhere, Lock.wasTakenFrom, Option.bind_some, beq_iff_eq] at h
  refine ⟨left, here, rfl, rfl, ?_⟩
  by_cases hsame : left = here
  · cases found <;> simp [hsame] at h
  · refine ⟨hsame, ?_⟩
    simp only [hsame, if_false] at h
    cases hreading : v.reading left with
    | none => cases found <;> simp [hreading] at h
    | some live => cases live <;> cases found <;> simp [hreading] at h ⊢

theorem not_moves_self {held : Option Lock} : ¬Moves held held := by
  rintro ⟨old, new, rfl, hnew, _, hactor | hhost | ⟨left, here, hleft, hhere, hne⟩⟩
  · exact hactor (by rw [Option.some.inj hnew])
  · exact hhost (by rw [Option.some.inj hnew])
  · rw [Option.some.inj hnew] at hleft
    exact hne (Option.some.inj (hleft.symm.trans hhere))

theorem movesTheHold_iff {entry : Entry} : movesTheHold row entry = true ↔
    ¬row.IsHeldBy entry.actor entry.host ∨
      ∃ left here, row.session = some left ∧ entry.session = some here ∧ left ≠ here := by
  unfold movesTheHold
  split
  · next hheld =>
    simp only [hheld, not_true_eq_false, false_or]
    cases row.session <;> cases entry.session <;> simp
  · next hother => simp [hother]

/-- The guard on the log is the change of the row, where the row names who entered. -/
theorem moves_iff (hactor : row.actor.isSome = true) (hnames : Names v.entry new) :
    Moves (some row) (some new) ↔ movesTheHold row v.entry = true := by
  obtain ⟨hnew, hhost, hsession⟩ := hnames
  rw [movesTheHold_iff]
  constructor
  · rintro ⟨_, _, ⟨⟩, ⟨⟩, _, hne | hne | hstated⟩
    · exact .inl fun hheld ↦ hne (hnew.trans hheld.2.symm)
    · exact .inl fun hheld ↦ hne (hhost.trans hheld.1.symm)
    · exact .inr (hsession ▸ hstated)
  · intro h
    refine ⟨row, new, rfl, rfl, hactor, ?_⟩
    rcases h with hother | hstated
    · by_cases hsame : new.actor = row.actor
      · exact .inr (.inl fun heq ↦ hother ⟨heq.symm.trans hhost, hsame.symm.trans hnew⟩)
      · exact .inl hsame
    · exact .inr (.inr (hsession ▸ hstated))

end Lineages

/-! ### One entry -/

section Step

variable {unit : WorkUnit} {v : Visit} {r : Registry} {row new : Lock} {why : Moved}

/-- What one entry adds to the log of its unit, by what it did to the row: a line for a move, with
the ground it rested on, and nothing otherwise. -/
def Accounted (unit : WorkUnit) (v : Visit) (r : Registry) (answer : Except Error Entered)
    (after : Registry) : Prop :=
  (Moves (r.locks unit.id) (after.locks unit.id) →
    ∃ row why, r.locks unit.id = some row ∧ RestsOn v row answer why ∧
      after.log unit.id = handOffLine row v.entry why :: r.log unit.id) ∧
  (¬Moves (r.locks unit.id) (after.locks unit.id) → after.log unit.id = r.log unit.id)

/-- A hold that was written with its hand-off recorded is accounted for. -/
theorem accounted_recorded {answer : Except Error Entered} {written : Registry}
    (hrow : r.locks unit.id = some row) (hactor : row.actor.isSome = true)
    (hwritten : written.locks unit.id = some new) (hnames : Names v.entry new)
    (hlog : written.log = r.log) (hrests : RestsOn v row answer why) :
    Accounted unit v r answer (written.recorded unit.id row v.entry why) := by
  unfold Accounted
  rw [locks_recorded, hwritten, hrow, moves_iff hactor hnames]
  unfold Registry.recorded
  constructor
  · intro hmoves
    refine ⟨row, why, rfl, hrests, ?_⟩
    rw [if_pos hmoves, Registry.log_note_self, hlog]
  · intro hmoves
    rw [if_neg hmoves, hlog]

/-- An entry that leaves the holder as it was, and the log, is accounted for. -/
theorem accounted_kept {answer : Except Error Entered} {after : Registry}
    (hkept : ¬Moves (r.locks unit.id) (after.locks unit.id)) (hlog : after.log = r.log) :
    Accounted unit v r answer after :=
  ⟨fun hmoves ↦ (hkept hmoves).elim, fun _ ↦ by rw [hlog]⟩

/-- Every entry is accounted for. -/
theorem visit_accounted : Accounted unit v r (visit unit v r).1 (visit unit v r).2 := by
  have houtcome : Outcome unit v r (visit unit v r) := visit_outcome
  have hclaimed : (r.put (v.entry.claim unit.id)).locks unit.id = some (v.entry.claim unit.id) :=
    Registry.locks_put_self
  have hactor : ∀ {row : Lock}, Reached unit v row → row.actor.isSome = true := by
    rintro row (hholds | hyields)
    · exact hholds.1
    · exact Option.isSome_iff_ne_none.mpr fun hnone ↦ hyields (.inr (.inr (.inl hnone)))
  generalize visit unit v r = result at houtcome
  cases houtcome with
  | took hfree =>
    unfold Registry.recordedFrom
    cases hheld : (r.locks unit.id).filter fun held ↦ held.actor.isSome with
    | none =>
      refine accounted_kept (fun ⟨old, _, hold, _, hactor, _⟩ ↦ ?_) rfl
      rw [hold, Option.filter_some, if_pos hactor] at hheld
      cases hheld
    | some lapsed =>
      obtain ⟨hrow, hactor⟩ := Option.filter_eq_some_iff.mp hheld
      refine accounted_recorded hrow hactor Registry.locks_put_self names_taken rfl ⟨?_, rfl⟩
      exact by_contra fun hlive ↦ (hfree lapsed hrow).1 ⟨hactor, hlive⟩
  | refreshed row hrow hreached hheld hlineage =>
    refine accounted_kept ?_ rfl
    rw [locks_refresh hrow, hrow]
    -- The refresh keeps the actor, the host and any session that the row states.
    rintro ⟨_, _, ⟨⟩, ⟨⟩, _, hne | hne | ⟨left, here, hleft, hhere, hne⟩⟩
    · exact hne hheld.2.symm
    · exact hne hheld.1.symm
    · rw [Registry.taken, Entry.refresh, hleft, Option.some_or] at hhere
      exact hne (Option.some.inj hhere)
  | provenDead row hrow hreached hheld hgone =>
    exact accounted_recorded hrow (hactor hreached) hclaimed names_claim rfl
      ⟨⟨hheld, lineage_of_reading false hgone⟩, rfl⟩
  | asked row hrow hreached hchallenges htake =>
    refine accounted_recorded hrow (hactor hreached) hclaimed names_claim rfl ⟨htake, ?_, rfl⟩
    rintro ⟨hheld, left, _, hleft, _, _, hgone⟩
    obtain ⟨left', _, hleft', _, _, hlive⟩ := lineage_of_reading true (hchallenges hheld)
    obtain rfl : left = left' := Option.some.inj (hleft.symm.trans hleft')
    simp [hlive] at hgone
  | refused row error hrow hreached hchallenges htake => exact accounted_kept not_moves_self rfl

end Step

/-! ### Entries one after the other -/

/-- The registry after entries on one unit, one after the other. -/
def visits (unit : WorkUnit) (r : Registry) : List Visit → Registry
  | [] => r
  | v :: vs => visits unit (visit unit v r).2 vs

/-- The lines that account for a sequence of entries: one for each that moved the hold, in their
order, with the ground it rested on. -/
inductive Accounts (unit : WorkUnit) : Registry → List Visit → List Handoff → Prop
  | nil (r : Registry) : Accounts unit r [] []
  | moved {r : Registry} {v : Visit} {vs : List Visit} {lines : List Handoff} (row : Lock)
    (why : Moved) (hrow : r.locks unit.id = some row)
    (hmoves : Moves (r.locks unit.id) ((visit unit v r).2.locks unit.id))
    (hrests : RestsOn v row (visit unit v r).1 why)
    (hrest : Accounts unit (visit unit v r).2 vs lines) :
    Accounts unit r (v :: vs) (handOffLine row v.entry why :: lines)
  | kept {r : Registry} {v : Visit} {vs : List Visit} {lines : List Handoff}
    (hkept : ¬Moves (r.locks unit.id) ((visit unit v r).2.locks unit.id))
    (hrest : Accounts unit (visit unit v r).2 vs lines) : Accounts unit r (v :: vs) lines

/-- Over any sequence of entries, the unit's log gains exactly the lines that account for it. -/
theorem log_accounts (unit : WorkUnit) (r : Registry) (vs : List Visit) :
    ∃ lines, Accounts unit r vs lines ∧
      (visits unit r vs).log unit.id = lines.reverse ++ r.log unit.id := by
  induction vs generalizing r with
  | nil => exact ⟨[], .nil r, rfl⟩
  | cons v vs ih =>
    obtain ⟨lines, hlines, hlog⟩ := ih (visit unit v r).2
    obtain ⟨hmoved, hkept⟩ : Accounted unit v r (visit unit v r).1 (visit unit v r).2 :=
      visit_accounted
    by_cases hmoves : Moves (r.locks unit.id) ((visit unit v r).2.locks unit.id)
    · obtain ⟨row, why, hrow, hrests, hline⟩ := hmoved hmoves
      refine ⟨handOffLine row v.entry why :: lines, .moved row why hrow hmoves hrests hlines, ?_⟩
      rw [visits, hlog, hline, List.reverse_cons, List.append_assoc, List.singleton_append]
    · refine ⟨lines, .kept hmoves hlines, ?_⟩
      rw [visits, hlog, hkept hmoves]

end Nodal.Locks
