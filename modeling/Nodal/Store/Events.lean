import Mathlib.Data.List.Sort
import Nodal.Foundation.Text

/-!
# A reader that follows a unit's log

`store/events.rs`: a process draws the identifier of an event from its clock and from random bits, and
inserts the event afterwards. The log of a unit is read in the order of the identifiers, and a reader catches
up by asking for what is above the last one it was given. So it is given every event of the unit once, and
those of a process in the order the process appended them, exactly in the runs where each event is above all
that the reader was given, and above all that its own process appended, when it is committed
(`caughtUp_iff`).
-/

set_option autoImplicit false

namespace Nodal.Store.Events

open Foundation

/-! ### Identifiers -/

/-- Crockford base-32. -/
def ALPHABET : List Char := "0123456789ABCDEFGHJKMNPQRSTVWXYZ".toList

def digit (n : ℕ) : Char := ALPHABET.getD n '0'

/-- A number in so many digits, the highest first. -/
def encode : ℕ → ℕ → Text
  | 0, _ => []
  | count + 1, n => digit (n / 32 ^ count) :: encode count (n % 32 ^ count)

/-- A ULID. -/
structure EventId where
  value : ℕ
  inRange : value < 2 ^ 128
  deriving DecidableEq

/-- The canonical text, which is what a row holds. -/
def EventId.text (id : EventId) : Text := encode 26 id.value

/-- A ULID of the milliseconds a clock says and of random bits. -/
def EventId.new (millis random : ℕ) : EventId where
  value := millis % 2 ^ 48 * 2 ^ 80 + random % 2 ^ 80
  inRange := by
    have hmillis := Nat.mod_lt millis (show 0 < 2 ^ 48 by decide)
    have hrandom := Nat.mod_lt random (show 0 < 2 ^ 80 by decide)
    omega

/-- The order of texts by their characters in turn. -/
def before : Text → Text → Bool
  | _, [] => false
  | [], _ :: _ => true
  | c :: first, d :: second => c.toNat < d.toNat || c.toNat = d.toNat && before first second

theorem digit_lt_iff {m n : ℕ} (hm : m < 32) (hn : n < 32) : (digit m).toNat < (digit n).toNat ↔ m < n := by
  have hsorted : ∀ m < 32, ∀ n < 32, (digit m).toNat < (digit n).toNat ↔ m < n := by decide +kernel
  exact hsorted m hm n hn

/-- Texts of the same length are in the order of their numbers. -/
theorem before_encode_iff {count m n : ℕ} (hm : m < 32 ^ count) (hn : n < 32 ^ count) :
    before (encode count m) (encode count n) = true ↔ m < n := by
  induction count generalizing m n with
  | zero =>
    rw [pow_zero, Nat.lt_one_iff] at hm hn
    rw [hm, hn]
    exact iff_of_false Bool.false_ne_true (Nat.lt_irrefl 0)
  | succ count ih =>
    have hpos : 0 < 32 ^ count := Nat.pow_pos (by decide)
    have hdigit {n : ℕ} (h : n < 32 ^ (count + 1)) : n / 32 ^ count < 32 := by
      rw [Nat.div_lt_iff_lt_mul hpos, ← pow_succ']
      exact h
    have hless := digit_lt_iff (hdigit hm) (hdigit hn)
    have hmore := digit_lt_iff (hdigit hn) (hdigit hm)
    have hrest := ih (Nat.mod_lt m hpos) (Nat.mod_lt n hpos)
    rw [encode, encode, before, Bool.or_eq_true, Bool.and_eq_true, decide_eq_true_eq, decide_eq_true_eq,
      hrest]
    have hm := Nat.div_add_mod m (32 ^ count)
    have hn := Nat.div_add_mod n (32 ^ count)
    have hmod := Nat.mod_lt m hpos
    have hmod' := Nat.mod_lt n hpos
    rcases Nat.lt_trichotomy (m / 32 ^ count) (n / 32 ^ count) with hlt | heq | hgt
    · have hmul := Nat.mul_le_mul_left (32 ^ count) (Nat.succ_le_of_lt hlt)
      rw [Nat.mul_succ] at hmul
      exact iff_of_true (Or.inl (hless.mpr hlt)) (by omega)
    · rw [heq] at hm hless ⊢
      have hirrefl := hless.not.mpr (Nat.lt_irrefl _)
      omega
    · have hmul := Nat.mul_le_mul_left (32 ^ count) (Nat.succ_le_of_lt hgt)
      rw [Nat.mul_succ] at hmul
      have hbelow := hmore.mpr hgt
      omega

theorem before_text_iff {first second : EventId} :
    before first.text second.text = true ↔ first.value < second.value :=
  before_encode_iff (first.inRange.trans_le (by decide)) (second.inRange.trans_le (by decide))

/-! ### The table -/

/-- A row of the table: its identifier, its unit, and the other columns. -/
structure Event (UnitId Line : Type) where
  id : EventId
  unit : UnitId
  line : Line
  deriving DecidableEq

variable {UnitId Line Process : Type} [DecidableEq UnitId]

/-- Append one event, unless its identifier is in the log already. -/
def append (log : List (Event UnitId Line)) (event : Event UnitId Line) :
    Option (List (Event UnitId Line)) :=
  if event.id ∈ log.map (·.id) then none else some (log ++ [event])

def orderById (rows : List (Event UnitId Line)) : List (Event UnitId Line) :=
  rows.insertionSort fun first second ↦ !before second.id.text first.id.text

/-- A unit's log in order. -/
def listForUnit (log : List (Event UnitId Line)) (unit : UnitId) : List (Event UnitId Line) :=
  orderById (log.filter (·.unit = unit))

/-- The events of a unit after one, in order. -/
def listSince (log : List (Event UnitId Line)) (unit : UnitId) (after : EventId) :
    List (Event UnitId Line) :=
  orderById (log.filter fun event ↦ event.unit = unit && before after.text event.id.text)

/-! ### Runs -/

/-- What is committed, what each process has drawn and not committed, what each has appended, and what the
reader has been given. -/
structure World (UnitId Line Process : Type) where
  log : List (Event UnitId Line)
  drawn : Process → List (Event UnitId Line)
  appended : Process → List (Event UnitId Line)
  given : List (Event UnitId Line)

inductive Action (UnitId Line Process : Type)
  /-- A process draws the identifier of the next event of its transaction. -/
  | draw (process : Process) (event : Event UnitId Line)
  | commit (process : Process)
  | rollback (process : Process)
  | read

def start : World UnitId Line Process := ⟨[], fun _ ↦ [], fun _ ↦ [], []⟩

/-- What the reader asks for: the log, or what is after the last event it was given. -/
def World.catchUp (w : World UnitId Line Process) (unit : UnitId) : List (Event UnitId Line) :=
  match w.given.getLast? with
  | none => listForUnit w.log unit
  | some last => listSince w.log unit last.id

/-- One step. A transaction with an append that fails is rolled back. -/
def step [DecidableEq Process] (unit : UnitId) (w : World UnitId Line Process) :
    Action UnitId Line Process → World UnitId Line Process
  | .draw process event =>
    { w with drawn := Function.update w.drawn process (w.drawn process ++ [event]) }
  | .commit process =>
    match (w.drawn process).foldlM append w.log with
    | none => { w with drawn := Function.update w.drawn process [] }
    | some log =>
      { w with
        log
        drawn := Function.update w.drawn process []
        appended := Function.update w.appended process (w.appended process ++ w.drawn process) }
  | .rollback process => { w with drawn := Function.update w.drawn process [] }
  | .read => { w with given := w.given ++ w.catchUp unit }

def run [DecidableEq Process] (unit : UnitId) (w : World UnitId Line Process)
    (actions : List (Action UnitId Line Process)) : World UnitId Line Process :=
  actions.foldl (step unit) w

/-- The reader has been given every event of the unit once, and those of a process in the order it appended
them. -/
structure CaughtUp (unit : UnitId) (w : World UnitId Line Process) : Prop where
  once : w.given.Perm (w.log.filter (·.unit = unit))
  inOrder : ∀ process, ((w.appended process).filter (·.unit = unit)).Sublist w.given

/-- A commit puts events of the unit above all that the reader was given and above all that the process has
appended, each above those drawn before it. -/
def Above (unit : UnitId) (w : World UnitId Line Process) : Action UnitId Line Process → Prop
  | .commit process => ((w.drawn process).foldlM append w.log).isSome = true →
    (∀ event ∈ w.drawn process, event.unit = unit →
      ∀ known ∈ w.given ++ (w.appended process).filter (·.unit = unit), known.id.value < event.id.value) ∧
    ((w.drawn process).filter (·.unit = unit)).Pairwise (·.id.value < ·.id.value)
  | _ => True

/-- Each step of a run is such. -/
def AllAbove [DecidableEq Process] (unit : UnitId) :
    World UnitId Line Process → List (Action UnitId Line Process) → Prop
  | _, [] => True
  | w, action :: actions => Above unit w action ∧ AllAbove unit (step unit w action) actions

/-! ### What a read answers -/

variable {log rows : List (Event UnitId Line)} {unit : UnitId} {event : Event UnitId Line}
  {w : World UnitId Line Process} {action : Action UnitId Line Process}

omit [DecidableEq UnitId] in
theorem mem_orderById : event ∈ orderById rows ↔ event ∈ rows := List.mem_insertionSort _

omit [DecidableEq UnitId] in
/-- Rows of different identifiers are answered by these, the least first. -/
theorem pairwise_orderById (h : (rows.map (·.id)).Nodup) :
    (orderById rows).Pairwise (·.id.value < ·.id.value) := by
  have hle (first second : Event UnitId Line) :
      (!before second.id.text first.id.text) = true ↔ first.id.value ≤ second.id.value := by
    rw [Bool.not_eq_true', ← Bool.not_eq_true, before_text_iff, Nat.not_lt]
  have htotal : Std.Total fun first second : Event UnitId Line ↦
      (!before second.id.text first.id.text) = true :=
    ⟨fun first second ↦ by rw [hle, hle]; exact Nat.le_total _ _⟩
  have htrans : IsTrans (Event UnitId Line) fun first second ↦
      (!before second.id.text first.id.text) = true :=
    ⟨fun first second third ↦ by rw [hle, hle, hle]; exact Nat.le_trans⟩
  have hsorted : (orderById rows).Pairwise fun first second ↦
      (!before second.id.text first.id.text) = true := List.pairwise_insertionSort _ rows
  have hne : (orderById rows).Pairwise (·.id ≠ ·.id) := by
    rw [← List.pairwise_map, ← List.nodup_iff_pairwise_ne]
    exact ((List.perm_insertionSort _ rows).map _).nodup_iff.mpr h
  refine (hsorted.and hne).imp fun {first second} hboth ↦ ?_
  refine Nat.lt_of_le_of_ne ((hle first second).mp hboth.1) fun hvalue ↦ hboth.2 ?_
  cases hfirst : first.id
  cases hsecond : second.id
  rw [hfirst, hsecond] at hvalue
  cases hvalue
  rfl

/-- What a run keeps, whatever its steps: identifiers are in the log once, what was appended and what was
given is there, and the reader was given the least identifiers first. -/
structure Kept (unit : UnitId) (w : World UnitId Line Process) : Prop where
  nodup : (w.log.map (·.id)).Nodup
  appended : ∀ process, ∀ event ∈ w.appended process, event ∈ w.log
  given : ∀ event ∈ w.given, event ∈ w.log ∧ event.unit = unit
  sorted : w.given.Pairwise (·.id.value < ·.id.value)

/-- What the reader was not given is above all that it was given, and each process appended the least
identifiers first. -/
structure Following (unit : UnitId) (w : World UnitId Line Process) : Prop where
  above : ∀ event ∈ w.log, event.unit = unit → event ∉ w.given →
    ∀ known ∈ w.given, known.id.value < event.id.value
  ordered : ∀ process, ((w.appended process).filter (·.unit = unit)).Pairwise (·.id.value < ·.id.value)

/-- A catch-up answers the events above all that the reader was given. -/
theorem Kept.mem_catchUp (h : Kept unit w) : event ∈ w.catchUp unit ↔
    (event ∈ w.log ∧ event.unit = unit) ∧ ∀ known ∈ w.given, known.id.value < event.id.value := by
  rw [World.catchUp]
  cases hlast : w.given.getLast? with
  | none =>
    rw [List.getLast?_eq_none_iff] at hlast
    show event ∈ listForUnit w.log unit ↔ _
    rw [hlast, listForUnit, mem_orderById, List.mem_filter, decide_eq_true_eq]
    exact (and_iff_left (List.forall_mem_nil _)).symm
  | some last =>
    show event ∈ listSince w.log unit last.id ↔ _
    rw [listSince, mem_orderById, List.mem_filter, Bool.and_eq_true, decide_eq_true_eq, before_text_iff,
      ← and_assoc]
    refine and_congr_right fun _ ↦ ?_
    obtain ⟨before, hgiven⟩ := List.getLast?_eq_some_iff.mp hlast
    have hsorted := h.sorted
    rw [hgiven] at hsorted ⊢
    rw [List.forall_mem_append, List.forall_mem_singleton]
    refine ⟨fun habove ↦ ⟨fun known hknown ↦ ?_, habove⟩, And.right⟩
    exact Nat.lt_trans ((List.pairwise_append.mp hsorted).2.2 known hknown last List.mem_cons_self) habove

theorem Kept.pairwise_catchUp (h : Kept unit w) : (w.catchUp unit).Pairwise (·.id.value < ·.id.value) := by
  rw [World.catchUp]
  cases w.given.getLast? with
  | none => exact pairwise_orderById (h.nodup.sublist (List.filter_sublist.map _))
  | some last => exact pairwise_orderById (h.nodup.sublist (List.filter_sublist.map _))

omit [DecidableEq UnitId] in
/-- A transaction is appended whole when none of its identifiers is there or comes twice. -/
theorem foldlM_append {events : List (Event UnitId Line)} : events.foldlM append log = some rows ↔
    rows = log ++ events ∧ (∀ event ∈ events, event.id ∉ log.map (·.id)) ∧ (events.map (·.id)).Nodup := by
  induction events generalizing log with
  | nil =>
    rw [List.foldlM_nil, List.append_nil]
    constructor
    · intro h
      exact ⟨(Option.some.inj h).symm, List.forall_mem_nil _, List.nodup_nil⟩
    · exact fun h ↦ congrArg some h.1.symm
  | cons event events ih =>
    rw [List.foldlM_cons, append, List.forall_mem_cons, List.map_cons, List.nodup_cons]
    by_cases hmem : event.id ∈ log.map (·.id)
    · rw [if_pos hmem]
      exact iff_of_false (fun h ↦ nomatch h) fun h ↦ h.2.1.1 hmem
    · rw [if_neg hmem]
      show events.foldlM append (log ++ [event]) = some rows ↔ _
      rw [ih, List.append_assoc, List.singleton_append]
      refine and_congr_right fun _ ↦ ?_
      simp only [List.map_append, List.map_singleton, List.mem_append, List.mem_singleton, not_or]
      constructor
      · rintro ⟨hfresh, hnodup⟩
        refine ⟨⟨hmem, fun later hlater ↦ (hfresh later hlater).1⟩, fun hagain ↦ ?_, hnodup⟩
        obtain ⟨later, hlater, hid⟩ := List.mem_map.mp hagain
        exact (hfresh later hlater).2 hid
      · rintro ⟨⟨-, hfresh⟩, hagain, hnodup⟩
        refine ⟨fun later hlater ↦ ⟨hfresh later hlater, fun hid ↦ hagain ?_⟩, hnodup⟩
        exact hid ▸ List.mem_map_of_mem hlater

/-! ### What a step keeps -/

variable [DecidableEq Process]

/-- What is appended is what its process has drawn. -/
def World.committed (w : World UnitId Line Process) (process : Process) : World UnitId Line Process where
  log := w.log ++ w.drawn process
  drawn := Function.update w.drawn process []
  appended := Function.update w.appended process (w.appended process ++ w.drawn process)
  given := w.given

omit [DecidableEq UnitId] in
theorem appended_committed (process other : Process) : (w.committed process).appended other =
    if other = process then w.appended process ++ w.drawn process else w.appended other := by
  rw [World.committed]
  split_ifs with hsame
  · rw [hsame]
    exact Function.update_self process _ _
  · exact Function.update_of_ne hsame _ _

/-- A commit appends what its process has drawn, or nothing. -/
theorem step_commit (process : Process) :
    (step unit w (.commit process) = { w with drawn := Function.update w.drawn process [] } ∧
      (w.drawn process).foldlM append w.log = none) ∨
    (step unit w (.commit process) = w.committed process ∧
      ((w.drawn process).foldlM append w.log).isSome = true ∧
      (∀ event ∈ w.drawn process, event.id ∉ w.log.map (·.id)) ∧
        ((w.drawn process).map (·.id)).Nodup) := by
  rw [step]
  cases hlog : (w.drawn process).foldlM append w.log with
  | none => exact Or.inl ⟨rfl, rfl⟩
  | some log =>
    obtain ⟨rfl, hfresh, hnodup⟩ := foldlM_append.mp hlog
    exact Or.inr ⟨rfl, rfl, hfresh, hnodup⟩

theorem Kept.step (h : Kept unit w) : Kept unit (step unit w action) := by
  cases action with
  | draw process event => exact ⟨h.nodup, h.appended, h.given, h.sorted⟩
  | rollback process => exact ⟨h.nodup, h.appended, h.given, h.sorted⟩
  | commit process =>
    rcases @step_commit _ _ _ _ unit w _ process with ⟨hstep, -⟩ | ⟨hstep, -, hfresh, hnodup⟩
    · rw [hstep]
      exact ⟨h.nodup, h.appended, h.given, h.sorted⟩
    · rw [hstep]
      refine ⟨?_, fun other event hevent ↦ ?_, fun event hevent ↦ ?_, h.sorted⟩
      · rw [World.committed, List.map_append, List.nodup_append]
        refine ⟨h.nodup, hnodup, fun id hid other hother heq ↦ ?_⟩
        obtain ⟨event, hevent, rfl⟩ := List.mem_map.mp hother
        exact hfresh event hevent (heq ▸ hid)
      · rw [appended_committed] at hevent
        split_ifs at hevent with hsame
        · exact List.mem_append.mpr ((List.mem_append.mp hevent).imp_left (h.appended process event))
        · exact List.mem_append_left _ (h.appended other event hevent)
      · exact ⟨List.mem_append_left _ (h.given event hevent).1, (h.given event hevent).2⟩
  | read =>
    refine ⟨h.nodup, h.appended, fun event hevent ↦ ?_, ?_⟩
    · rcases List.mem_append.mp hevent with hgiven | hnew
      · exact h.given event hgiven
      · exact (h.mem_catchUp.mp hnew).1
    · refine List.pairwise_append.mpr ⟨h.sorted, h.pairwise_catchUp, fun known hknown event hevent ↦ ?_⟩
      exact (h.mem_catchUp.mp hevent).2 known hknown

theorem following_committed_iff {process : Process} (h : Kept unit w)
    (hfresh : ∀ event ∈ w.drawn process, event.id ∉ w.log.map (·.id)) :
    Following unit (w.committed process) ↔ Following unit w ∧
      (∀ event ∈ w.drawn process, event.unit = unit →
        ∀ known ∈ w.given ++ (w.appended process).filter (·.unit = unit), known.id.value < event.id.value) ∧
      ((w.drawn process).filter (·.unit = unit)).Pairwise (·.id.value < ·.id.value) := by
  have hself : ((w.committed process).appended process).filter (·.unit = unit) =
      (w.appended process).filter (·.unit = unit) ++ (w.drawn process).filter (·.unit = unit) := by
    rw [appended_committed, if_pos rfl, List.filter_append]
  constructor
  · intro hf
    have hprocess := hf.ordered process
    rw [hself, List.pairwise_append] at hprocess
    refine ⟨⟨fun event hevent ↦ hf.above event (List.mem_append_left _ hevent), fun other ↦ ?_⟩,
      fun event hevent hunit known hknown ↦ ?_, hprocess.2.1⟩
    · by_cases hsame : other = process
      · rw [hsame]
        exact hprocess.1
      · have hother := hf.ordered other
        rwa [appended_committed, if_neg hsame] at hother
    · rcases List.mem_append.mp hknown with hgiven | happended
      · have hnew : event ∉ w.given := fun hmem ↦
          hfresh event hevent (List.mem_map_of_mem (h.given event hmem).1)
        exact hf.above event (List.mem_append_right _ hevent) hunit hnew known hgiven
      · exact hprocess.2.2 known happended event (List.mem_filter.mpr ⟨hevent, decide_eq_true hunit⟩)
  · rintro ⟨hf, hdrawn, hsorted⟩
    refine ⟨fun event hevent hunit hnew ↦ ?_, fun other ↦ ?_⟩
    · rcases List.mem_append.mp hevent with hlog | hhere
      · exact hf.above event hlog hunit hnew
      · exact fun known hknown ↦ hdrawn event hhere hunit known (List.mem_append_left _ hknown)
    · by_cases hsame : other = process
      · rw [hsame, hself, List.pairwise_append]
        refine ⟨hf.ordered process, hsorted, fun known hknown event hevent ↦ ?_⟩
        obtain ⟨hmem, hunit⟩ := List.mem_filter.mp hevent
        exact hdrawn event hmem (of_decide_eq_true hunit) known (List.mem_append_right _ hknown)
      · rw [appended_committed, if_neg hsame]
        exact hf.ordered other

/-- A step keeps the reader following exactly when it commits nothing below what is known. -/
theorem following_step_iff (h : Kept unit w) :
    Following unit (step unit w action) ↔ Following unit w ∧ Above unit w action := by
  cases action with
  | draw process event =>
    exact ⟨fun hf ↦ ⟨⟨hf.above, hf.ordered⟩, trivial⟩, fun hf ↦ ⟨hf.1.above, hf.1.ordered⟩⟩
  | rollback process =>
    exact ⟨fun hf ↦ ⟨⟨hf.above, hf.ordered⟩, trivial⟩, fun hf ↦ ⟨hf.1.above, hf.1.ordered⟩⟩
  | commit process =>
    rcases @step_commit _ _ _ _ unit w _ process with ⟨hstep, hnone⟩ | ⟨hstep, hsome, hfresh, -⟩
    · rw [hstep, Above, hnone]
      exact ⟨fun hf ↦ ⟨⟨hf.above, hf.ordered⟩, fun hsome ↦ nomatch hsome⟩,
        fun hf ↦ ⟨hf.1.above, hf.1.ordered⟩⟩
    · rw [hstep, Above, forall_prop_of_true hsome]
      exact following_committed_iff h hfresh
  | read =>
    refine ⟨fun hf ↦ ⟨⟨fun event hevent hunit hnew known hknown ↦ ?_, hf.ordered⟩, trivial⟩,
      fun hf ↦ ⟨fun event hevent hunit hnew ↦ ?_, hf.1.ordered⟩⟩
    · by_cases hgiven : event ∈ w.catchUp unit
      · exact (h.mem_catchUp.mp hgiven).2 known hknown
      · refine hf.above event hevent hunit ?_ known (List.mem_append_left _ hknown)
        exact fun hmem ↦ (List.mem_append.mp hmem).elim hnew hgiven
    · -- What is not in the reader's hands by now was above all that was, and is in its answer.
      obtain ⟨hnew, hmissed⟩ := not_or.mp (List.mem_append.not.mp hnew)
      exact absurd (h.mem_catchUp.mpr ⟨⟨hevent, hunit⟩, hf.1.above event hevent hunit hnew⟩) hmissed

/-- After one more read a reader that follows has caught up, and no other. -/
theorem caughtUp_read_iff (h : Kept unit w) : CaughtUp unit (step unit w .read) ↔ Following unit w := by
  have hafter : Kept unit (step unit w .read) := h.step
  have hstrict {events : List (Event UnitId Line)} (hsorted : events.Pairwise (·.id.value < ·.id.value)) :
      events.Nodup := by
    refine List.nodup_iff_pairwise_ne.mpr (hsorted.imp fun {first second} hlt heq ↦ ?_)
    rw [heq] at hlt
    exact Nat.lt_irrefl _ hlt
  constructor
  · intro hcaught
    refine ⟨fun event hevent hunit hnew ↦ ?_, fun process ↦ hafter.sorted.sublist (hcaught.inOrder process)⟩
    have hgiven : event ∈ w.given ++ w.catchUp unit :=
      hcaught.once.mem_iff.mpr (List.mem_filter.mpr ⟨hevent, decide_eq_true hunit⟩)
    exact (h.mem_catchUp.mp ((List.mem_append.mp hgiven).resolve_left hnew)).2
  · intro hf
    have hmem : ∀ event ∈ w.log, event.unit = unit → event ∈ w.given ++ w.catchUp unit := by
      intro event hevent hunit
      by_cases hgiven : event ∈ w.given
      · exact List.mem_append_left _ hgiven
      · refine List.mem_append_right _ (h.mem_catchUp.mpr ⟨⟨hevent, hunit⟩, ?_⟩)
        exact hf.above event hevent hunit hgiven
    constructor
    · refine (List.perm_ext_iff_of_nodup (hstrict hafter.sorted) ?_).mpr fun event ↦ ?_
      · exact (List.Nodup.of_map _ h.nodup).filter _
      · rw [List.mem_filter, decide_eq_true_eq]
        exact ⟨hafter.given event, fun hevent ↦ hmem event hevent.1 hevent.2⟩
    · intro process
      have hanti : Std.Antisymm fun first second : Event UnitId Line ↦ first.id.value < second.id.value :=
        ⟨fun _ _ hlt hgt ↦ absurd hgt (Nat.lt_asymm hlt)⟩
      refine List.sublist_of_subperm_of_pairwise (List.subperm_of_subset (hstrict (hf.ordered process)) ?_)
        (hf.ordered process) hafter.sorted
      intro event hevent
      obtain ⟨happended, hunit⟩ := List.mem_filter.mp hevent
      exact hmem event (h.appended process event happended) (of_decide_eq_true hunit)

omit [DecidableEq Process] in
theorem following_start : Following unit (start : World UnitId Line Process) :=
  ⟨List.forall_mem_nil _, fun _ ↦ List.Pairwise.nil⟩

omit [DecidableEq UnitId] [DecidableEq Process] in
theorem kept_start : Kept unit (start : World UnitId Line Process) :=
  ⟨List.nodup_nil, fun _ ↦ List.forall_mem_nil _, List.forall_mem_nil _, List.Pairwise.nil⟩

/-- Over a run, the reader is following in the end exactly when it was at the start and every commit is above
what is known then. -/
theorem following_run_iff {actions : List (Action UnitId Line Process)} (h : Kept unit w) :
    Kept unit (run unit w actions) ∧
      (Following unit (run unit w actions) ↔ Following unit w ∧ AllAbove unit w actions) := by
  induction actions generalizing w with
  | nil => exact ⟨h, (and_iff_left trivial).symm⟩
  | cons action actions ih =>
    have hstep : Kept unit (step unit w action) := h.step
    obtain ⟨hkept, hfollowing⟩ := ih hstep
    exact ⟨hkept, hfollowing.trans (by rw [following_step_iff h, AllAbove, and_assoc])⟩

/-- In a run with a last read, the reader has been given every event of the unit once and each process's in
its order exactly when every commit was above what the reader was given and its process had appended. -/
theorem caughtUp_iff (unit : UnitId) (actions : List (Action UnitId Line Process)) :
    CaughtUp unit (run unit start (actions ++ [.read])) ↔ AllAbove unit start actions := by
  have hstart : Kept unit (start : World UnitId Line Process) := kept_start
  obtain ⟨hkept, hfollowing⟩ := @following_run_iff _ _ _ _ _ _ _ actions hstart
  rw [run, List.foldl_append, List.foldl_cons, List.foldl_nil, ← run, caughtUp_read_iff hkept, hfollowing]
  exact and_iff_right following_start

/-- Two processes that draw their identifiers in one order and commit in the other, with a read between. -/
def crossed : List (Action Unit Unit Bool) :=
  [.draw false ⟨.new 1 0, (), ()⟩, .draw true ⟨.new 1 1, (), ()⟩, .commit true, .read, .commit false]

/-- The event that is committed last is never given. -/
theorem crossed_missed :
    (run () (start : World Unit Unit Bool) (crossed ++ [.read])).given = [⟨.new 1 1, (), ()⟩] ∧
      (run () (start : World Unit Unit Bool) (crossed ++ [.read])).log =
        [⟨.new 1 1, (), ()⟩, ⟨.new 1 0, (), ()⟩] ∧
      ¬CaughtUp () (run () (start : World Unit Unit Bool) (crossed ++ [.read])) := by
  have hgiven : (run () (start : World Unit Unit Bool) (crossed ++ [.read])).given =
      [⟨.new 1 1, (), ()⟩] := by
    decide +kernel
  have hlog : (run () (start : World Unit Unit Bool) (crossed ++ [.read])).log =
      [⟨.new 1 1, (), ()⟩, ⟨.new 1 0, (), ()⟩] := by
    decide +kernel
  refine ⟨hgiven, hlog, fun hcaught ↦ ?_⟩
  have hlength := hcaught.once.length_eq
  rw [hgiven, hlog] at hlength
  revert hlength
  decide

end Nodal.Store.Events
