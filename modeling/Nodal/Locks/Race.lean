import Nodal.Foundation.Contract
import Nodal.Locks.Lapsed

/-!
# Entries that race for one unit

Any number of entries without `--take` on one unit at one instant, interleaved at every statement.
An entry reads the row, may read the process table, and then writes with one of two statements: a
take, which tests the row it writes, or a hand-over, which does not.

What makes two of them winners is something that states nothing or is not read: an entry that states
no session, a process table that cannot be read, a window of no hours (`two_entries_answered`).
Apart from those, and where at most one of them finds the row's session gone and none of them is in
that session, the takes exclude one another: a row that names one of them, and has not lapsed, yields
to none of the others. `one_entry_answered` says so of every interleaving.
-/

set_option autoImplicit false

namespace Nodal.Locks

open Nodal.Foundation Nodal.Foundation.Attempt

/-- Entries without `--take` on one unit, at one instant and under one idle window. Each states its
session, no two are of one lineage, and a hold taken at that instant has not lapsed yet. -/
structure Contest (ι : Type) where
  unit : WorkUnit
  now : Timestamp
  idleHours : UInt32
  entry : ι → Entry
  now_eq : ∀ i, (entry i).now = now
  idleHours_eq : ∀ i, (entry i).idleHours = idleHours
  take_eq : ∀ i, (entry i).take = false
  stated : ∀ i, (entry i).session.isSome = true
  apart : ∀ i j, (entry i).actor = (entry j).actor → (entry i).host = (entry j).host →
    (entry i).session = (entry j).session → i = j
  opens : 1 ≤ idleHours
  lasts : ¬absoluteExpiry now idleHours ≤ now

namespace Contest

variable {ι : Type} (G : Contest ι) (g : ι)

/-- A hold that the clock has not released. -/
def Live (row : Lock) : Prop := ¬row.HasLapsed G.now G.idleHours

/-- The row names an entry, and its hold is live. -/
def Won (i : ι) (held : Option Lock) : Prop :=
  ∃ row, held = some row ∧ Names (G.entry i) row ∧ G.Live row

/-- A row that records an actor and whose absolute expiry has not passed. -/
def Kept (row : Lock) : Prop := row.actor.isSome = true ∧ ¬row.expiresAt ≤ G.now

/-- A row that records a session which none of the entries is in. -/
def Foreign (row : Lock) : Prop :=
  ∃ sid, row.session = some sid ∧ ∀ j, (G.entry j).session ≠ some sid

/-- A row that an entry may come to settle against: it has not lapsed, or it is of another lineage
than the entry's claim. -/
def Facing (i : ι) (row : Lock) : Prop :=
  G.Kept row ∧ (G.Live row ∨ ¬row.Matches ((G.entry i).claim G.unit.id))

/-- What a reading of the process table may find: the recorded session at work, or, by one entry,
gone where none of the entries is in it. -/
def Finds (i : ι) (sid : ℕ) (found : Option Bool) : Prop :=
  found = some true ∨ i = g ∧ found = some false ∧ ∀ j, (G.entry j).session ≠ some sid

/-- What an entry writes: a hold that names it and is live. -/
def Writes (i : ι) (lock : Lock) : Prop :=
  lock.unitId = G.unit.id ∧ Names (G.entry i) lock ∧ G.Live lock

/-- What each entry may count on and what it owes. Another entry changes the row only by winning it,
and not where this one has won it, nor where this one may be handed it. -/
def contract : Contract ι Registry Effect Effect.Choice where
  inv _ := True
  rely i r r' := r'.locks G.unit.id = r.locks G.unit.id ∨
    (∃ j, j ≠ i ∧ G.Won j (r'.locks G.unit.id)) ∧ ¬G.Won i (r.locks G.unit.id) ∧
      (i = g → ∀ row, r.locks G.unit.id = some row → G.Foreign row → ¬G.Kept row)
  rely_refl _ _ := .inl rfl
  rely_trans i r s t h h' := by
    rcases h with heq | ⟨hwon, hnot, hkept⟩
    · rwa [heq] at h'
    · rcases h' with heq | ⟨hwon', _, _⟩
      · exact .inr ⟨heq ▸ hwon, hnot, hkept⟩
      · exact .inr ⟨hwon', hnot, hkept⟩
  assume i effect choice _ :=
    match effect with
    | .sessionIsLive sid => G.Finds g i sid choice
    | _ => True
  pre i effect r :=
    match effect with
    | .take lock now idleDeadline =>
      G.Writes i lock ∧ now = G.now ∧ G.now.unixSeconds < idleDeadline
    | .handOver lock => G.Writes i lock ∧ i = g ∧ ∀ j, j ≠ i → ¬G.Won j (r.locks G.unit.id)
    | _ => True

/-- An entry that is answered with a success has won the row. -/
def Answered (i : ι) (result : Except Error Entered) (r : Registry) : Prop :=
  ∀ entered, result = .ok entered → G.Won i (r.locks G.unit.id)

/-- What an entry still does keeps the contract. -/
abbrev SafeEntry {β : Type} (i : ι) (Q : β → Registry → Prop)
    (p : Program Effect Effect.Answer β) (r : Registry) : Prop :=
  Safe (machine ι) (G.contract g) i Q p r

variable {G g} {i j : ι} {r r' : Registry} {row lock : Lock} {now : Timestamp} {idleDeadline : ℤ}

/-! ### What a row that was won excludes -/

theorem Won.unique {held : Option Lock} (hi : G.Won i held) (hj : G.Won j held) : i = j := by
  obtain ⟨row, rfl, ⟨hactor, hhost, hsession⟩, _⟩ := hi
  obtain ⟨_, ⟨⟩, ⟨hactor', hhost', hsession'⟩, _⟩ := hj
  exact G.apart i j (Option.some.inj (hactor.symm.trans hactor')) (hhost.symm.trans hhost')
    (hsession.symm.trans hsession')

theorem Won.kept (hrow : G.Won j (some row)) : G.Kept row ∧ G.Live row := by
  obtain ⟨_, ⟨⟩, hnames, hlive⟩ := hrow
  exact ⟨⟨by rw [hnames.1]; rfl, fun hexpired ↦ hlive (.inl hexpired)⟩, hlive⟩

/-- A row that records an actor and has not expired yields to an entry's write only where it is of
the entry's lineage. -/
theorem Kept.matches (hkept : G.Kept row) (hdeadline : G.now.unixSeconds < idleDeadline)
    (hyields : row.Yields lock G.now idleDeadline) : row.Matches lock := by
  rcases hyields with hexpired | hidle | hnone | hmatches
  · exact (hkept.2 hexpired).elim
  · omega
  · exact (Option.isSome_iff_ne_none.mp hkept.1 hnone).elim
  · exact hmatches

/-- A row that one entry has won yields to no other. -/
theorem Won.not_yields (hwon : G.Won j (some row)) (hij : i ≠ j) (hwrites : G.Writes i lock)
    (hdeadline : G.now.unixSeconds < idleDeadline) : ¬row.Yields lock G.now idleDeadline := by
  intro hyields
  obtain ⟨hhost, hactor, hsession⟩ := hwon.kept.1.matches hdeadline hyields
  obtain ⟨_, ⟨⟩, hnames, hlive⟩ := hwon
  obtain ⟨hactor', hhost', hsession'⟩ := hwrites.2.1
  refine hij (G.apart i j ?_ ?_ ?_)
  · exact Option.some.inj (hactor'.symm.trans (hactor.symm.trans hnames.1))
  · exact hhost'.symm.trans (hhost.symm.trans hnames.2.1)
  · rcases hsession with hnone | hsame
    · have hstated := G.stated j
      rw [← hnames.2.2, hnone] at hstated
      cases hstated
    · exact hsession'.symm.trans (hsame.symm.trans hnames.2.2)

/-- A row of a session that none of the entries is in yields to none of them while it is kept. -/
theorem Foreign.not_yields (hforeign : G.Foreign row) (hkept : G.Kept row)
    (hwrites : G.Writes i lock) (hdeadline : G.now.unixSeconds < idleDeadline) :
    ¬row.Yields lock G.now idleDeadline := by
  intro hyields
  obtain ⟨sid, hsid, hnobody⟩ := hforeign
  rcases (hkept.matches hdeadline hyields).2.2 with hnone | hsame
  · rw [hsid] at hnone
    cases hnone
  · exact hnobody i (hwrites.2.1.2.2.symm.trans (hsame.symm.trans hsid))

/-! ### What the two writes do -/

/-- A take that succeeds wins the row. -/
theorem won_taken (hwrites : G.Writes i lock) (held : Option Lock) :
    G.Won i ((r.put (Registry.taken held lock)).locks G.unit.id) := by
  obtain ⟨hunit, hnames, hlive⟩ := hwrites
  refine ⟨Registry.taken held lock, ?_, hnames, hlive⟩
  rw [← hunit]
  exact Registry.locks_put_self

theorem won_handOver (hwrites : G.Writes i lock) : G.Won i ((r.handOver lock).locks G.unit.id) :=
  won_taken hwrites none

/-- What an entry owes is what the others count on. -/
theorem rely_perform {effect : Effect} (choice : effect.Choice)
    (hpre : (G.contract g).pre i effect r) (hji : j ≠ i) :
    (G.contract g).rely j r (perform effect choice r).2 := by
  cases effect with
  | get _ | sessionIsLive _ | presences _ | note _ _ => exact .inl rfl
  | take lock now idleDeadline =>
    obtain ⟨hwrites, rfl, hdeadline⟩ := hpre
    change (G.contract g).rely j r (r.take lock G.now idleDeadline).2
    rcases r.take_cases lock G.now idleDeadline with ⟨hyields, htake⟩ | ⟨_, _, _, htake⟩
    · rw [hwrites.1] at hyields
      rw [htake]
      refine .inr ⟨⟨i, hji.symm, won_taken hwrites _⟩, fun hwon ↦ ?_, fun _ row hrow hforeign hkept ↦
        hforeign.not_yields hkept hwrites hdeadline (hyields row hrow)⟩
      obtain ⟨row, hrow, hrest⟩ := hwon
      exact Won.not_yields ⟨row, rfl, hrest⟩ hji.symm hwrites hdeadline (hyields row hrow)
    · rw [htake]
      exact .inl rfl
  | handOver lock =>
    obtain ⟨hwrites, hg, hnobody⟩ := hpre
    exact .inr ⟨⟨i, hji.symm, won_handOver hwrites⟩, hnobody j hji, fun hjg ↦
      (hji (hjg.trans hg.symm)).elim⟩

/-- A row that was won stays won, whoever acts next. -/
theorem won_perform {effect : Effect} {choice : effect.Choice}
    (hpre : (G.contract g).pre i effect r) (hwon : G.Won j (r.locks G.unit.id)) :
    G.Won j ((perform effect choice r).2.locks G.unit.id) := by
  by_cases hji : j = i
  · subst hji
    cases effect with
    | get _ | sessionIsLive _ | presences _ | note _ _ => exact hwon
    | take lock now idleDeadline =>
      obtain ⟨hwrites, rfl, hdeadline⟩ := hpre
      change G.Won j ((r.take lock G.now idleDeadline).2.locks G.unit.id)
      rcases r.take_cases lock G.now idleDeadline with ⟨_, htake⟩ | ⟨_, _, _, htake⟩
      · rw [htake]
        exact won_taken hwrites _
      · rwa [htake]
    | handOver lock => exact won_handOver hpre.1
  · rcases rely_perform (g := g) choice hpre hji with hsame | ⟨_, hnot, _⟩
    · rwa [hsame]
    · exact (hnot hwon).elim

/-! ### What the others leave of a row that was read -/

/-- Whatever an entry has found to face, it finds again after the others have written. -/
theorem facing_rely (hrely : (G.contract g).rely i r r')
    (hfaced : ∃ row, r.locks G.unit.id = some row ∧ G.Facing i row) :
    ∃ row, r'.locks G.unit.id = some row ∧ G.Facing i row := by
  rcases hrely with hsame | ⟨⟨j, _, row, hrow, hrest⟩, _, _⟩
  · rwa [hsame]
  · obtain ⟨hkept, hlive⟩ := Won.kept (G := G) ⟨row, rfl, hrest⟩
    exact ⟨row, hrow, hkept, .inl hlive⟩

/-- A row of a foreign session that one entry may be handed stays as that entry has read it. -/
theorem foreign_rely (hrely : (G.contract g).rely g r r') (hrow : r.locks G.unit.id = some row)
    (hkept : G.Kept row) (hforeign : G.Foreign row) : r'.locks G.unit.id = some row := by
  rcases hrely with hsame | ⟨_, _, hyields⟩
  · rwa [hsame]
  · exact (hyields rfl row hrow hforeign hkept).elim

theorem won_rely (hrely : (G.contract g).rely i r r') (hwon : G.Won i (r.locks G.unit.id)) :
    G.Won i (r'.locks G.unit.id) := by
  rcases hrely with hsame | ⟨_, hnot, _⟩
  · rwa [hsame]
  · exact (hnot hwon).elim

/-! ### What an entry would write -/

theorem live_of_refreshed (hrefreshed : lock.refreshedAt = G.now)
    (hexpires : lock.expiresAt = absoluteExpiry G.now G.idleHours) : G.Live lock := by
  have hopen := @Lock.lt_idleDeadline lock _ G.opens
  rw [hrefreshed] at hopen
  rintro (hexpired | hidle)
  · exact G.lasts (hexpires ▸ hexpired)
  · omega

theorem writes_claim : G.Writes i ((G.entry i).claim G.unit.id) :=
  ⟨rfl, names_claim, live_of_refreshed (G.now_eq i) (by rw [Entry.claim, G.now_eq, G.idleHours_eq])⟩

/-! ### The program of an entry -/

theorem safe_error {β : Type} {error : Error} {Q : Except Error β → Registry → Prop}
    (hQ : ∀ t, Q (.error error) t) : G.SafeEntry g i Q (.done (.error error)) r :=
  fun t _ _ ↦ hQ t

theorem safe_won {entered : Entered} (hwon : G.Won i (r.locks G.unit.id)) :
    G.SafeEntry g i (G.Answered i) (.done (.ok entered)) r :=
  fun _ hrely _ _ _ ↦ won_rely hrely hwon

/-- What is recorded of a hand-off does not touch the row. -/
theorem safe_recordHandOff {entered : Entered} {previous : Lock} {why : Moved}
    (hwon : G.Won i (r.locks G.unit.id)) :
    G.SafeEntry g i (G.Answered i)
      (recordHandOff G.unit.id previous (G.entry i) why >>= fun _ ↦ pure entered : Enter Entered).run
      r := by
  unfold recordHandOff
  split
  · intro t hrely _
    exact ⟨trivial, fun _ _ ↦ safe_won (won_rely hrely hwon)⟩
  · exact safe_won hwon

theorem safe_refuse {unit : WorkUnit} {entry : Entry} :
    G.SafeEntry g i (G.Answered i) (refuse unit row entry : Enter Entered).run r := by
  have herror : ∀ {error t}, G.SafeEntry g i (G.Answered i)
      (.done (.error error : Except Error Entered)) t := safe_error fun _ _ h ↦ by cases h
  unfold refuse holdLine
  split
  · exact herror
  · exact fun t _ _ ↦ ⟨trivial, fun _ _ ↦ herror⟩

theorem safe_contested : G.SafeEntry g i (G.Answered i) (contested G.unit (G.entry i)).run r := by
  intro t _ _
  refine ⟨trivial, fun choice _ ↦ ?_⟩
  have hanswer : ((machine ι).perform i (.get G.unit.id) choice t).1 = t.locks G.unit.id := rfl
  rw [hanswer]
  cases t.locks G.unit.id with
  | none => exact safe_error fun _ _ h ↦ by cases h
  | some won =>
    change G.SafeEntry g i (G.Answered i) (if (G.entry i).take then
      takeOver G.unit won (G.entry i) .asked else refuse G.unit won (G.entry i) :
        Enter Entered).run t
    rw [G.take_eq]
    exact safe_refuse

/-- A take of what an entry may write, and what follows it. -/
theorem safe_take {β : Type} {Q : β → Registry → Prop}
    {next : Bool → Program Effect Effect.Answer β} (hwrites : G.Writes i lock)
    (hnow : now = G.now) (hdeadline : G.now.unixSeconds < idleDeadline)
    (hwon : ∀ t, G.Won i (t.locks G.unit.id) → G.SafeEntry g i Q (next true) t)
    (hlost : ∀ t, (∃ row, t.locks G.unit.id = some row ∧ G.Kept row ∧ ¬row.Matches lock) →
      G.SafeEntry g i Q (next false) t) :
    G.SafeEntry g i Q (.perform (.take lock now idleDeadline) next) r := by
  subst hnow
  intro t _ _
  refine ⟨⟨hwrites, rfl, hdeadline⟩, fun _ _ ↦ ?_⟩
  change G.SafeEntry g i Q (next (t.take lock G.now idleDeadline).1)
    (t.take lock G.now idleDeadline).2
  rcases t.take_cases lock G.now idleDeadline with ⟨_, htake⟩ | ⟨row, hrow, hyields, htake⟩
  · rw [htake]
    exact hwon _ (won_taken hwrites _)
  · rw [htake]
    rw [hwrites.1] at hrow
    refine hlost _ ⟨row, hrow, ⟨?_, fun hexpired ↦ hyields (.inl hexpired)⟩, fun hmatches ↦
      hyields (.inr (.inr (.inr hmatches)))⟩
    exact Option.isSome_iff_ne_none.mpr fun hnone ↦ hyields (.inr (.inr (.inl hnone)))

theorem safe_renew (hunit : row.unitId = G.unit.id) (hlive : G.Live row)
    (hsession : row.session.or (G.entry i).session = (G.entry i).session) :
    G.SafeEntry g i (G.Answered i) (renew G.unit row (G.entry i)).run r := by
  have hwrites : G.Writes i ((G.entry i).refresh row) :=
    ⟨hunit, ⟨rfl, rfl, hsession⟩, live_of_refreshed (G.now_eq i)
      (by rw [Entry.refresh, Entry.claim, G.now_eq, G.idleHours_eq])⟩
  have hdeadline : G.now.unixSeconds < row.idleDeadline (G.entry i).idleHours := by
    rw [G.idleHours_eq]
    exact Int.not_le.mp fun hidle ↦ hlive (.inr hidle)
  exact safe_take hwrites (G.now_eq i) hdeadline (fun _ hwon ↦ safe_won hwon)
    fun _ _ ↦ safe_contested

/-- What an entry knows of a row that its own actor holds, once it has the lineage. -/
def Knows (G : Contest ι) (g i : ι) (row : Lock) (t : Registry) : Lineage → Prop
  | .same | .unreadable =>
    G.Live row ∧ row.session.or (G.entry i).session = (G.entry i).session
  | .gone => i = g ∧ G.Foreign row ∧ t.locks G.unit.id = some row
  | .second => True

theorem safe_readingOf (hrow : r.locks G.unit.id = some row) (hfacing : G.Facing i row)
    (hheld : row.IsHeldBy (G.entry i).actor (G.entry i).host) :
    G.SafeEntry g i (fun result t ↦ ∃ reading, result = .ok reading ∧
        G.Knows g i row t (lineage row (G.entry i).session reading))
      (readingOf row (G.entry i).session).run r := by
  have hlive : row.session = none ∨ row.session = (G.entry i).session → G.Live row := fun h ↦
    hfacing.2.resolve_right fun hmatches ↦ hmatches ⟨hheld.1, hheld.2, h⟩
  rcases readingOf_cases row (G.entry i).session with
    ⟨hunread, hreading⟩ | ⟨sid, here, hother, hsid, hhere, hreading⟩
  · rw [hreading]
    refine fun t _ _ ↦ ⟨none, rfl, ?_⟩
    rcases hunread with hsame | hnone | hnone
    · obtain ⟨sid, hsid, hhere⟩ := Lock.wasTakenFrom_iff.mp hsame
      rw [lineage_same hsame]
      exact ⟨hlive (.inr (hsid.trans hhere.symm)), by rw [hsid, hhere, Option.some_or]⟩
    · rw [lineage_unstated hnone]
      exact ⟨hlive (.inl hnone), by rw [hnone, Option.none_or]⟩
    · have hstated := G.stated i
      rw [hnone] at hstated
      cases hstated
  · rw [hreading]
    refine fun t hrely _ ↦ ⟨trivial, fun choice hfinds u hrely' _ ↦ ⟨choice, rfl, ?_⟩⟩
    rcases hfinds with hfound | ⟨rfl, hfound, hnobody⟩
    · rw [hfound, lineage_found true hother hsid hhere]
      trivial
    · rw [hfound, lineage_found false hother hsid hhere]
      have hforeign : G.Foreign row := ⟨sid, hsid, hnobody⟩
      exact ⟨rfl, hforeign, foreign_rely hrely' (foreign_rely hrely hrow hfacing.1 hforeign)
        hfacing.1 hforeign⟩

/-- The hand-over of a row of a foreign session, which the entry has found gone. -/
theorem safe_handedOver (hkept : G.Kept row) (hforeign : G.Foreign row)
    (hrow : r.locks G.unit.id = some row) :
    G.SafeEntry g g (G.Answered g) (takeOver G.unit row (G.entry g) .provenDead).run r := by
  intro t hrely _
  refine ⟨⟨writes_claim, rfl, fun j _ hwon ↦ ?_⟩, fun _ _ ↦
    safe_recordHandOff (won_handOver writes_claim)⟩
  rw [foreign_rely hrely hrow hkept hforeign] at hwon
  obtain ⟨_, ⟨⟩, hnames, _⟩ := hwon
  obtain ⟨sid, hsid, hnobody⟩ := hforeign
  exact hnobody j (hnames.2.2.symm.trans hsid)

theorem safe_settle (hrow : r.locks G.unit.id = some row) (hfacing : G.Facing i row) :
    G.SafeEntry g i (G.Answered i) (settle G.unit row (G.entry i)).run r := by
  have hchallenge : ∀ {t}, G.SafeEntry g i (G.Answered i)
      (challenge G.unit row (G.entry i)).run t := by
    intro t
    rw [challenge, G.take_eq]
    exact safe_refuse
  unfold settle
  split
  · next hheld =>
    refine safe_attempt_bind ((safe_readingOf hrow hfacing hheld).mono ?_)
    rintro _ t ⟨reading, rfl, hknows⟩
    change G.SafeEntry g i _ (match lineage row (G.entry i).session reading with
      | .same | .unreadable => renew G.unit row (G.entry i)
      | .gone => takeOver G.unit row (G.entry i) .provenDead
      | .second => challenge G.unit row (G.entry i) : Enter Entered).run t
    cases hlineage : lineage row (G.entry i).session reading with
    | same | unreadable =>
      rw [hlineage] at hknows
      exact safe_renew (r.keyed hrow) hknows.1 hknows.2
    | gone =>
      rw [hlineage] at hknows
      obtain ⟨rfl, hforeign, hread⟩ := hknows
      exact safe_handedOver hfacing.1 hforeign hread
    | second => exact hchallenge
  · exact hchallenge

theorem safe_takeFree {held : Option Lock} :
    G.SafeEntry g i (G.Answered i) (takeFree G.unit held (G.entry i)).run r := by
  have hdeadline : G.now.unixSeconds <
      ((G.entry i).claim G.unit.id).idleDeadline (G.entry i).idleHours := by
    rw [G.idleHours_eq, ← G.now_eq i]
    exact @Lock.lt_idleDeadline ((G.entry i).claim G.unit.id) _ G.opens
  refine safe_take writes_claim (G.now_eq i) hdeadline (fun t hwon ↦ ?_) fun t hlost u hrely _ ↦ ?_
  · cases held.filter fun held ↦ held.actor.isSome with
    | none => exact safe_won hwon
    | some lapsed => exact safe_recordHandOff hwon
  · -- The row did not yield, or the others have won it since.
    obtain ⟨row, hrow, hkept, hmatches⟩ := hlost
    obtain ⟨won, hwon, hfacing⟩ := facing_rely hrely ⟨row, hrow, hkept, .inr hmatches⟩
    refine ⟨trivial, fun choice _ ↦ ?_⟩
    have hanswer : ((machine ι).perform i (.get G.unit.id) choice u).1 = u.locks G.unit.id := rfl
    rw [hanswer, hwon]
    exact safe_settle hwon hfacing

/-- Every entry keeps the contract, and wins the row where it is answered with a success. -/
theorem safe_enter : G.SafeEntry g i (G.Answered i) (enter G.unit (G.entry i)).run r := by
  intro t _ _
  refine ⟨trivial, fun choice _ ↦ ?_⟩
  have hanswer : ((machine ι).perform i (.get G.unit.id) choice t).1 = t.locks G.unit.id := rfl
  rw [hanswer]
  simp only [Program.bind, ExceptT.bindCont]
  cases hheld : (t.locks G.unit.id).filter fun held ↦
      held.HoldsAnyone (G.entry i).now (G.entry i).idleHours with
  | none => exact safe_takeFree
  | some holder =>
    obtain ⟨hrow, hholds⟩ := Option.filter_eq_some_iff.mp hheld
    obtain ⟨hactor, hlive⟩ := of_decide_eq_true hholds
    rw [G.now_eq, G.idleHours_eq] at hlive
    exact safe_settle hrow ⟨⟨hactor, fun hexpired ↦ hlive (.inl hexpired)⟩, .inl hlive⟩

/-! ### Runs -/

variable (G g) in
/-- A step of the contest: entries enter as themselves, and a reading finds what it may find. -/
def Fair (c : Config ι Registry Effect Effect.Answer (Except Error Entered)) :
    Label ι (WorkUnit × Entry) Effect Effect.Choice → Prop
  | .enter i job => job = (G.unit, G.entry i)
  | .act i choice =>
    match c.running i with
    | some (.perform (.sessionIsLive sid) _) => G.Finds g i sid (choice (.sessionIsLive sid))
    | _ => True
  | .leave _ => True

theorem sound [DecidableEq ι] : Sound (machine ι) (G.contract g) G.Answered (G.Fair g) where
  assume {c i choice effect rest} hfair hrunning := by
    simp only [Fair, hrunning] at hfair
    cases effect with
    | sessionIsLive sid => exact hfair
    | _ => trivial
  act _ _ _ hpre := ⟨trivial, fun j _ hji _ ↦ .inl (rely_perform _ hpre hji)⟩
  enter {c i job world} hfair _ hworld _ := by
    obtain rfl : job = (G.unit, G.entry i) := hfair
    obtain rfl : c.world = world := Option.some.inj hworld
    exact ⟨trivial, safe_enter, fun j _ _ _ ↦ .inl (.inl rfl)⟩
  leave _ _ _ := ⟨trivial, fun _ _ _ _ ↦ .inl (.inl rfl)⟩

/-- A row that was won stays won in every run. -/
theorem won_exec [DecidableEq ι] {c c' : Config ι Registry Effect Effect.Answer (Except Error Entered)}
    {labels : List (Label ι (WorkUnit × Entry) Effect Effect.Choice)}
    (hfair : (machine ι).Along (G.Fair g) c labels) (hexec : (machine ι).exec c labels = some c')
    (hguarded : Guarded (machine ι) (G.contract g) G.Answered c)
    (hwon : G.Won i (c.world.locks G.unit.id)) :
    Guarded (machine ι) (G.contract g) G.Answered c' ∧ G.Won i (c'.world.locks G.unit.id) := by
  have hstep : ∀ c label c', G.Fair g c label → (machine ι).next c label = some c' →
      Guarded (machine ι) (G.contract g) G.Answered c ∧ G.Won i (c.world.locks G.unit.id) →
      Guarded (machine ι) (G.contract g) G.Answered c' ∧ G.Won i (c'.world.locks G.unit.id) := by
    intro c label c' hlabel hnext ⟨hguarded, hwon⟩
    refine ⟨sound.guarded_next hlabel hnext hguarded, ?_⟩
    cases label with
    | enter j job =>
      obtain ⟨_, world, hworld, rfl⟩ := Machine.next_enter_eq_some.mp hnext
      obtain rfl : c.world = world := Option.some.inj hworld
      exact hwon
    | act j choice =>
      obtain ⟨effect, rest, hrunning, rfl⟩ := Machine.next_act_eq_some.mp hnext
      exact won_perform (hguarded.2 j _ hrunning c.world (.inl rfl) trivial).1 hwon
    | leave j =>
      obtain ⟨_, _, rfl⟩ := Machine.next_leave_eq_some.mp hnext
      exact hwon
  exact Machine.exec_induction hstep hfair hexec ⟨hguarded, hwon⟩

end Contest

/-- In every interleaving of entries on one unit at most one is answered with a success, and from
then on the row names that one. Assumes: the entries form a contest, nobody was entering before it,
and every reading of the process table finds the recorded session at work, or is made by the one
entry `g` and finds a session gone that none of them is in. -/
theorem one_entry_answered {ι : Type} [DecidableEq ι] {G : Contest ι} {g : ι}
    {c₀ c₁ c₂ : Config ι Registry Effect Effect.Answer (Except Error Entered)}
    {before after : List (Label ι (WorkUnit × Entry) Effect Effect.Choice)}
    (hidle : ∀ i, c₀.running i = none) (hfair : (machine ι).Along (G.Fair g) c₀ (before ++ after))
    (hbefore : (machine ι).exec c₀ before = some c₁)
    (hafter : (machine ι).exec c₁ after = some c₂) {i j : ι} {entered entered' : Entered}
    (hi : c₁.running i = some (.done (.ok entered)))
    (hj : c₂.running j = some (.done (.ok entered'))) :
    i = j ∧ ∃ row, c₂.world.locks G.unit.id = some row ∧ Names (G.entry i) row := by
  obtain ⟨hfirst, hthen⟩ := Machine.along_append.mp hfair
  have hstart : Guarded (machine ι) (G.contract g) G.Answered c₀ :=
    ⟨trivial, fun i p hp ↦ by simp [hidle i] at hp⟩
  have hguarded := Contest.sound.guarded_exec hfirst hbefore hstart
  have hwon : G.Won i (c₁.world.locks G.unit.id) :=
    hguarded.2 i _ hi c₁.world (.inl rfl) trivial entered rfl
  obtain ⟨hguarded', hwon'⟩ := Contest.won_exec (hthen c₁ hbefore) hafter hguarded hwon
  have hwonj : G.Won j (c₂.world.locks G.unit.id) :=
    hguarded'.2 j _ hj c₂.world (.inl rfl) trivial entered' rfl
  refine ⟨hwon'.unique hwonj, ?_⟩
  obtain ⟨row, hrow, hnames, _⟩ := hwon'
  exact ⟨row, hrow, hnames⟩

/-! ### What makes two winners -/

/-- A registry that holds no row. -/
def noRow : Registry := ⟨fun _ ↦ none, @Registry.keyed_none, fun _ ↦ []⟩

/-- Nobody is entering, and nobody holds anything. -/
def nobody : Config Bool Registry Effect Effect.Answer (Except Error Entered) :=
  ⟨noRow, fun _ ↦ none⟩

/-- Two entries, one after the other, of which the second makes so many steps. -/
def oneThenOther (entry : Bool → Entry) (steps : ℕ) :
    List (Label Bool (WorkUnit × Entry) Effect Effect.Choice) :=
  [.enter false (someUnit, entry false), .enter true (someUnit, entry true)] ++
    List.replicate 2 (.act false unreadable) ++ List.replicate steps (.act true unreadable)

/-- An entry has been answered with a success. -/
def succeeded (c : Config Bool Registry Effect Effect.Answer (Except Error Entered)) (i : Bool) :
    Bool :=
  match c.running i with
  | some (.done (.ok _)) => true
  | _ => false

/-- Two entries of different lineages without `--take`, at one instant, are both answered with a
success. -/
def BothSucceed (entry : Bool → Entry) : Prop :=
  (∀ i, (entry i).take = false) ∧ (entry false).now = (entry true).now ∧
    ((entry false).actor, (entry false).host, (entry false).session) ≠
      ((entry true).actor, (entry true).host, (entry true).session) ∧
    ∃ steps c, (machine Bool).exec nobody (oneThenOther entry steps) = some c ∧
      ∀ i, succeeded c i = true

/-- Two sessions of one actor. -/
def twoSessions (session : Bool → Option ℕ) (idleHours : UInt32) (i : Bool) : Entry :=
  { entering "ada" (session i) .epoch with idleHours }

/-- Two entries can both be answered: where the process table cannot be read, where one of them
states no session, and where the idle window is of no hours. -/
theorem two_entries_answered :
    BothSucceed (twoSessions (fun i ↦ some (if i then 4200 else 4100)) 8) ∧
    BothSucceed (twoSessions (fun i ↦ if i then some 4200 else none) 8) ∧
    BothSucceed (twoSessions (fun i ↦ some (if i then 4200 else 4100)) 0) := by
  have hboth : ∀ {entry : Bool → Entry} {steps : ℕ},
      ((machine Bool).exec nobody (oneThenOther entry steps)).map
        (fun c ↦ succeeded c false && succeeded c true) = some true →
      ∃ c, (machine Bool).exec nobody (oneThenOther entry steps) = some c ∧
        ∀ i, succeeded c i = true := by
    intro entry steps h
    obtain ⟨c, hc, hresult⟩ := Option.map_eq_some_iff.mp h
    rw [Bool.and_eq_true] at hresult
    exact ⟨c, hc, fun i ↦ by cases i <;> simp [hresult]⟩
  refine ⟨⟨by decide, rfl, by decide, 3, hboth ?_⟩, ⟨by decide, rfl, by decide, 2, hboth ?_⟩,
    ⟨by decide, rfl, by decide, 3, hboth ?_⟩⟩
  · decide +kernel
  · decide +kernel
  · decide +kernel

/-- Two entries by different actors that both read the row before either writes it. -/
def adaAndBo : Contest Bool where
  unit := someUnit
  now := .epoch
  idleHours := 8
  entry i := entering (if i then "bo" else "ada") (some (if i then 4200 else 4100)) .epoch
  now_eq _ := rfl
  idleHours_eq _ := rfl
  take_eq _ := rfl
  stated _ := rfl
  apart i j _ _ hsession := by cases i <;> cases j <;> first | rfl | cases hsession
  opens := by decide
  lasts := by decide

/-- A process table in which every session is at work. -/
def allLive : (effect : Effect) → effect.Choice
  | .sessionIsLive _ => some true
  | .presences _ => none
  | .get _ | .take _ _ _ | .handOver _ | .note _ _ => ()

/-- Both read, ada writes, bo writes in vain, reads again and is refused. -/
def bothRead : List (Label Bool (WorkUnit × Entry) Effect Effect.Choice) :=
  [.enter false (someUnit, adaAndBo.entry false), .enter true (someUnit, adaAndBo.entry true)] ++
    [false, true, false, true, true, true].map fun i ↦ .act i allLive

/-- `one_entry_answered` at that race. -/
theorem one_entry_answered_bothRead : ∃ c, (machine Bool).exec nobody bothRead = some c ∧
    (∀ j entered, c.running j = some (.done (.ok entered)) → false = j) ∧
    ∃ row, c.world.locks someUnit.id = some row ∧ Names (adaAndBo.entry false) row := by
  have hexec : ((machine Bool).exec nobody bothRead).map (fun c ↦ succeeded c false) =
      some true := by
    decide +kernel
  obtain ⟨c, hc, hsucceeded⟩ := Option.map_eq_some_iff.mp hexec
  obtain ⟨entered, hfirst⟩ : ∃ entered, c.running false = some (.done (.ok entered)) := by
    unfold succeeded at hsucceeded
    split at hsucceeded
    · next hrunning => exact ⟨_, hrunning⟩
    · cases hsucceeded
  have hfair : (machine Bool).Along (adaAndBo.Fair false) nobody (bothRead ++ []) := by
    refine Machine.Along.mono ?_ (Machine.along_of_labels (L := fun label ↦ match label with
      | .enter i job => job = (someUnit, adaAndBo.entry i)
      | .act _ choice => choice = allLive
      | .leave _ => True) ?_)
    · intro c label hlabel
      cases label with
      | enter i job => exact hlabel
      | act i choice =>
        obtain rfl : choice = allLive := hlabel
        simp only [Contest.Fair]
        split
        · exact .inl rfl
        · trivial
      | leave i => trivial
    · rw [List.append_nil]
      simp [bothRead]
  have hresult : ∀ j entered', c.running j = some (.done (.ok entered')) → false = j ∧ ∃ row,
      c.world.locks someUnit.id = some row ∧ Names (adaAndBo.entry false) row := fun _ _ hj ↦
    one_entry_answered (G := adaAndBo) (g := false) (fun _ ↦ rfl) hfair hc rfl hfirst hj
  exact ⟨c, hc, fun j entered' hj ↦ (hresult j entered' hj).1, (hresult false entered hfirst).2⟩

end Nodal.Locks
