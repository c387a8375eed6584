import Nodal.Locks.Entry

/-!
# An entry with nobody beside it

`visit` is one entry that runs from its first statement to its last while nobody else writes the
row. `visit_outcome` says everything it can do, with what each case rests on: it takes a row that
yields, it refreshes its own, it is given the hold of a lineage that is proven gone, it takes the
hold it asked for, or it is refused and leaves the registry as it was.
-/

set_option autoImplicit false

namespace Nodal.Locks

open Nodal.Foundation Nodal.Foundation.Attempt

/-- An entry, and what it finds in the process table. -/
structure Visit where
  entry : Entry
  choice : (effect : Effect) → effect.Choice

namespace Visit

/-- What the entry would read of a session. -/
def reading (visit : Visit) (sid : ℕ) : Option Bool := visit.choice (.sessionIsLive sid)

/-- Which lineage the entry makes of a holder. -/
def lineage (visit : Visit) (holder : Lock) : Lineage :=
  Locks.lineage holder visit.entry.session (holder.session.bind visit.reading)

/-- The deadline the entry would take a free or lapsed hold with. -/
abbrev deadline (visit : Visit) (unit : WorkUnit) : ℤ :=
  (visit.entry.claim unit.id).idleDeadline visit.entry.idleHours

end Visit

/-- What the entry ends with, and the registry it leaves. -/
def visit (unit : WorkUnit) (v : Visit) (r : Registry) : Except Error Entered × Registry :=
  (machine Unit).solo () v.choice (enter unit v.entry).run r

/-- The registry with the hand-off on the unit's log, where the hold moved. -/
def Registry.recorded (r : Registry) (unit : UnitId) (previous : Lock) (entry : Entry)
    (why : Moved) : Registry :=
  if movesTheHold previous entry then r.note unit (handOffLine previous entry why) else r

/-- The registry with the hand-off on the unit's log, where somebody held it. -/
def Registry.recordedFrom (r : Registry) (unit : UnitId) (previous : Option Lock) (entry : Entry)
    (why : Moved) : Registry :=
  match previous.filter fun previous ↦ previous.actor.isSome with
  | some previous => r.recorded unit previous entry why
  | none => r

section Solo

variable {unit : WorkUnit} {v : Visit} {r : Registry} {previous holder : Lock} {why : Moved}

theorem solo_take {β : Type} {lock : Lock} {now : Timestamp} {idleDeadline : ℤ} {taken : Bool}
    {after : Registry} {f : Bool → Enter β} (h : r.take lock now idleDeadline = (taken, after)) :
    (machine Unit).solo () v.choice (call (Effect.take lock now idleDeadline) >>= f).run r =
      (machine Unit).solo () v.choice (f taken).run after :=
  Machine.solo_call_bind
    (show (machine Unit).perform () (.take lock now idleDeadline) (v.choice _) r = _ from h)

theorem solo_recordHandOff :
    (machine Unit).solo () v.choice (recordHandOff unit.id previous v.entry why).run r =
      (.ok (), r.recorded unit.id previous v.entry why) := by
  unfold recordHandOff Registry.recorded
  by_cases hmoves : movesTheHold previous v.entry = true
  · simp only [hmoves, if_true]
    rfl
  · simp only [hmoves]
    rfl

theorem solo_takeOver :
    (machine Unit).solo () v.choice (takeOver unit previous v.entry why).run r =
      (.ok .takenOver,
        (r.put (v.entry.claim unit.id)).recorded unit.id previous v.entry why) := by
  unfold takeOver
  exact (Machine.solo_call_bind rfl).trans (Machine.solo_attempt_ok solo_recordHandOff)

theorem solo_refuse {α : Type} : ∃ error,
    (machine Unit).solo () v.choice (refuse unit holder v.entry : Enter α).run r =
      (.error error, r) := by
  have hline : ∃ line, (machine Unit).solo () v.choice (holdLine holder v.entry).run r =
      (.ok line, r) := by
    unfold holdLine
    split
    · exact ⟨_, rfl⟩
    · exact ⟨_, rfl⟩
  obtain ⟨line, hline⟩ := hline
  exact ⟨_, Machine.solo_attempt_ok hline⟩

theorem solo_readingOf : ∃ reading,
    (machine Unit).solo () v.choice (readingOf holder v.entry.session).run r = (.ok reading, r) ∧
      lineage holder v.entry.session reading = v.lineage holder := by
  unfold readingOf Visit.lineage lineage
  split
  · exact ⟨none, rfl, rfl⟩
  · cases holder.session with
    | none => exact ⟨none, rfl, rfl⟩
    | some sid =>
      cases v.entry.session with
      | none => exact ⟨none, rfl, rfl⟩
      | some here => exact ⟨v.reading sid, rfl, rfl⟩

end Solo

/-! ### Everything an entry can do -/

/-- The row an entry settles against: it holds the unit, or it did not yield to the entry's take. -/
def Reached (unit : WorkUnit) (v : Visit) (row : Lock) : Prop :=
  row.HoldsAnyone v.entry.now v.entry.idleHours ∨
    ¬row.Yields (v.entry.claim unit.id) v.entry.now (v.deadline unit)

/-- An entry that is not the holder's own: another actor, or a second session that is live. -/
def Challenges (v : Visit) (row : Lock) : Prop :=
  row.IsHeldBy v.entry.actor v.entry.host → v.lineage row = .second

/-- What an entry ends with and the registry it leaves, by what each case rests on. -/
inductive Outcome (unit : WorkUnit) (v : Visit) (r : Registry) :
    Except Error Entered × Registry → Prop
  | took
    (hfree : ∀ row, r.locks unit.id = some row →
      ¬row.HoldsAnyone v.entry.now v.entry.idleHours ∧
        row.Yields (v.entry.claim unit.id) v.entry.now (v.deadline unit)) :
    Outcome unit v r (.ok .took,
      (r.put (Registry.taken (r.locks unit.id) (v.entry.claim unit.id))).recordedFrom unit.id
        (r.locks unit.id) v.entry .leaseExpired)
  | refreshed (row : Lock) (hrow : r.locks unit.id = some row) (hreached : Reached unit v row)
    (hheld : row.IsHeldBy v.entry.actor v.entry.host)
    (hlineage : v.lineage row = .same ∨ v.lineage row = .unreadable) :
    Outcome unit v r (.ok .refreshed,
      r.put (Registry.taken (some row) (v.entry.refresh row)))
  | provenDead (row : Lock) (hrow : r.locks unit.id = some row) (hreached : Reached unit v row)
    (hheld : row.IsHeldBy v.entry.actor v.entry.host) (hgone : v.lineage row = .gone) :
    Outcome unit v r (.ok .takenOver,
      (r.put (v.entry.claim unit.id)).recorded unit.id row v.entry .provenDead)
  | asked (row : Lock) (hrow : r.locks unit.id = some row) (hreached : Reached unit v row)
    (hchallenges : Challenges v row) (htake : v.entry.take = true) :
    Outcome unit v r (.ok .takenOver,
      (r.put (v.entry.claim unit.id)).recorded unit.id row v.entry .asked)
  | refused (row : Lock) (error : Error) (hrow : r.locks unit.id = some row)
    (hreached : Reached unit v row) (hchallenges : Challenges v row)
    (htake : v.entry.take = false) : Outcome unit v r (.error error, r)

section Cases

variable {unit : WorkUnit} {v : Visit} {r : Registry} {row : Lock}

theorem challenge_outcome (hrow : r.locks unit.id = some row) (hreached : Reached unit v row)
    (hchallenges : Challenges v row) :
    Outcome unit v r ((machine Unit).solo () v.choice (challenge unit row v.entry).run r) := by
  unfold challenge
  split
  · next htake =>
    rw [solo_takeOver]
    exact .asked row hrow hreached hchallenges htake
  · next htake =>
    obtain ⟨error, hrefuse⟩ : ∃ error, (machine Unit).solo () v.choice
        (refuse unit row v.entry : Enter Entered).run r = (.error error, r) := solo_refuse
    rw [hrefuse]
    exact .refused row error hrow hreached hchallenges (by simpa using htake)

/-- A refresh finds the row it was decided on. -/
theorem Lock.yields_refresh (hheld : row.IsHeldBy v.entry.actor v.entry.host) {deadline : ℤ} :
    row.Yields (v.entry.refresh row) v.entry.now deadline := by
  refine .inr (.inr (.inr ⟨hheld.1, hheld.2, ?_⟩))
  cases hsession : row.session with
  | none => exact .inl rfl
  | some sid => exact .inr (by simp [Entry.refresh, hsession])

theorem renew_outcome (hrow : r.locks unit.id = some row) (hreached : Reached unit v row)
    (hheld : row.IsHeldBy v.entry.actor v.entry.host)
    (hlineage : v.lineage row = .same ∨ v.lineage row = .unreadable) :
    Outcome unit v r ((machine Unit).solo () v.choice (renew unit row v.entry).run r) := by
  have hunit : r.locks (v.entry.refresh row).unitId = some row :=
    (congrArg r.locks (r.keyed hrow)).trans hrow
  have htake : r.take (v.entry.refresh row) v.entry.now (row.idleDeadline v.entry.idleHours) =
      (true, r.put (Registry.taken (some row) (v.entry.refresh row))) := by
    rw [← hunit]
    refine Registry.take_eq_true fun other hother ↦ ?_
    obtain rfl : row = other := Option.some.inj (hunit.symm.trans hother)
    exact Lock.yields_refresh hheld
  have hsolo : (machine Unit).solo () v.choice (renew unit row v.entry).run r =
      (.ok .refreshed, r.put (Registry.taken (some row) (v.entry.refresh row))) := by
    unfold renew
    exact solo_take htake
  rw [hsolo]
  exact .refreshed row hrow hreached hheld hlineage

theorem settle_outcome (hrow : r.locks unit.id = some row) (hreached : Reached unit v row) :
    Outcome unit v r ((machine Unit).solo () v.choice (settle unit row v.entry).run r) := by
  unfold settle
  split
  · next hheld =>
    obtain ⟨reading, hreading, hlineage⟩ : ∃ reading,
        (machine Unit).solo () v.choice (readingOf row v.entry.session).run r = (.ok reading, r) ∧
          lineage row v.entry.session reading = v.lineage row := solo_readingOf
    rw [Machine.solo_attempt_ok hreading, hlineage]
    cases hv : v.lineage row with
    | same => exact renew_outcome hrow hreached hheld (.inl hv)
    | unreadable => exact renew_outcome hrow hreached hheld (.inr hv)
    | gone =>
      rw [solo_takeOver]
      exact .provenDead row hrow hreached hheld hv
    | second => exact challenge_outcome hrow hreached fun _ ↦ hv
  · next hother => exact challenge_outcome hrow hreached fun hheld ↦ (hother hheld).elim

theorem takeFree_outcome (hnobody : ∀ row, r.locks unit.id = some row →
      ¬row.HoldsAnyone v.entry.now v.entry.idleHours) :
    Outcome unit v r
      ((machine Unit).solo () v.choice (takeFree unit (r.locks unit.id) v.entry).run r) := by
  unfold takeFree
  dsimp only
  rcases r.take_cases (v.entry.claim unit.id) v.entry.now (v.deadline unit) with
    ⟨hyields, htake⟩ | ⟨row, hrow, hyields, htake⟩
  · have houtcome := Outcome.took (v := v) fun row hrow ↦ ⟨hnobody row hrow, hyields row hrow⟩
    unfold Registry.recordedFrom at houtcome
    rw [solo_take htake]
    cases hlapsed : (r.locks unit.id).filter fun held ↦ held.actor.isSome with
    | none =>
      rw [hlapsed] at houtcome
      exact houtcome
    | some lapsed =>
      rw [hlapsed] at houtcome
      change Outcome unit v r ((machine Unit).solo () v.choice
        (recordHandOff unit.id lapsed v.entry .leaseExpired >>= fun _ ↦ pure .took : Enter Entered).run _)
      rw [Machine.solo_attempt_ok solo_recordHandOff]
      exact houtcome
  · have hget : (machine Unit).perform () (.get unit.id) () r = (some row, r) :=
      congrArg (·, r) hrow
    rw [solo_take htake]
    change Outcome unit v r ((machine Unit).solo () v.choice (call (Effect.get unit.id) >>= _).run r)
    rw [Machine.solo_call_bind hget]
    exact settle_outcome hrow (.inr hyields)

/-- Whatever an entry does with nobody beside it is one of the cases of `Outcome`. -/
theorem visit_outcome : Outcome unit v r (visit unit v r) := by
  have hget : (machine Unit).perform () (.get unit.id) () r = (r.locks unit.id, r) := rfl
  unfold visit enter
  rw [Machine.solo_call_bind hget]
  cases hfilter : (r.locks unit.id).filter fun held ↦
      held.HoldsAnyone v.entry.now v.entry.idleHours with
  | some holder =>
    obtain ⟨hrow, hholds⟩ := Option.filter_eq_some_iff.mp hfilter
    exact settle_outcome hrow (.inl (of_decide_eq_true hholds))
  | none =>
    refine takeFree_outcome fun row hrow hholds ↦ ?_
    simp [hrow, hholds] at hfilter

end Cases

/-! ### The row an entry leaves -/

/-- A row names the actor, the host and the session of an entry. -/
def Names (entry : Entry) (row : Lock) : Prop :=
  row.actor = some entry.actor ∧ row.host = entry.host ∧ row.session = entry.session

instance {entry : Entry} {row : Lock} : Decidable (Names entry row) :=
  inferInstanceAs (Decidable (_ ∧ _ ∧ _))

section Writes

variable {unit : WorkUnit} {v : Visit} {r : Registry} {row : Lock} {why : Moved}

@[simp] theorem locks_recorded {previous : Lock} {entry : Entry} :
    (r.recorded unit.id previous entry why).locks = r.locks := by
  unfold Registry.recorded
  split
  · rfl
  · rfl

@[simp] theorem locks_recordedFrom {previous : Option Lock} {entry : Entry} :
    (r.recordedFrom unit.id previous entry why).locks = r.locks := by
  unfold Registry.recordedFrom
  split
  · exact locks_recorded
  · rfl

theorem names_claim {entry : Entry} : Names entry (entry.claim unit.id) := ⟨rfl, rfl, rfl⟩

theorem names_taken {entry : Entry} {held : Option Lock} :
    Names entry (Registry.taken held (entry.claim unit.id)) := ⟨rfl, rfl, rfl⟩

/-- The row an entry has written is the one that is read of its unit. -/
theorem named_of_put {lock : Lock} {after : Registry} (hafter : after.locks = (r.put lock).locks)
    (hunit : lock.unitId = unit.id) (hnames : Names v.entry lock) :
    ∃ row, after.locks unit.id = some row ∧ Names v.entry row :=
  ⟨lock, by rw [hafter, ← hunit, Registry.locks_put_self], hnames⟩

/-- The row after a refresh. -/
theorem locks_refresh {entry : Entry} (hrow : r.locks unit.id = some row) :
    (r.put (Registry.taken (some row) (entry.refresh row))).locks unit.id =
      some (Registry.taken (some row) (entry.refresh row)) := by
  rw [← r.keyed hrow]
  exact Registry.locks_put_self

end Writes

end Nodal.Locks
