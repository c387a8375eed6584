import Mathlib.Data.List.InsertIdx
import Nodal.Foundation.Common
import Nodal.Foundation.Grid
import Nodal.Foundation.Text

/-!
# Which lines of a file a rewrite changes

`recipe/change.rs`: a table of the longest common subsequences of every two suffixes is built from the end
and read forwards. What is read are the lines that are in no such subsequence, a `Reading` of the two files
from their tops side by side; applying it gives the new file, and no list that does so is shorter
(`lines_spec`).
-/

set_option autoImplicit false

namespace Nodal.Recipes.Rewrite

open Foundation

/-! ### The change of a file -/

/-- Whether a line leaves the file or arrives in it. -/
inductive Edit
  | removed
  | added
  deriving DecidableEq

/-- One line that a rewrite changes, with its number in the file it belongs to. -/
structure Change where
  edit : Edit
  at' : ℕ
  text : Text
  deriving DecidableEq

/-- What a cell is filled with, from those after it. -/
def cellOf (old new : List Text) (table : Grid ℕ) (i j : ℕ) : Option ℕ :=
  if old[i]? = new[j]? then (table.get? (i + 1) (j + 1)).map (· + 1)
  else do
    let below ← table.get? (i + 1) j
    let beside ← table.get? i (j + 1)
    return max below beside

/-- The length of the longest common subsequence of every two suffixes. -/
def commonTable (old new : List Text) : Option (Grid ℕ) :=
  countdown (fun i table ↦ countdown (fun j table ↦
    (cellOf old new table i j).bind (table.set? i j)) new.length table)
    old.length (.full (old.length + 1) (new.length + 1) 0)

/-- Whether the old line leaves where the two lines differ. -/
def leavesAt (old new : List Text) (table : Grid ℕ) (i j : ℕ) : Option Bool :=
  if j = new.length then some true
  else if i < old.length then do
    let below ← table.get? (i + 1) j
    let beside ← table.get? i (j + 1)
    return decide (beside ≤ below)
  else some false

/-- Read the table forwards, for as many passes as there is fuel. -/
def walk (old new : List Text) (table : Grid ℕ) : ℕ → ℕ → ℕ → List Change → Option (List Change)
  | 0, _, _, _ => none
  | fuel + 1, i, j, changes =>
    if i < old.length ∨ j < new.length then
      if i < old.length ∧ j < new.length ∧ old[i]? = new[j]? then
        walk old new table fuel (i + 1) (j + 1) changes
      else do
        if ← leavesAt old new table i j then
          walk old new table fuel (i + 1) j (changes ++ [⟨.removed, i + 1, ← old[i]?⟩])
        else walk old new table fuel i (j + 1) (changes ++ [⟨.added, j + 1, ← new[j]?⟩])
    else some changes

/-- Every line that leaves and every line that arrives. No answer is a read outside the table. -/
def lines (before after : Text) : Option (List Change) := do
  let old := Text.lines before
  let new := Text.lines after
  walk old new (← commonTable old new) (old.length + new.length + 1) 0 0 []

/-! ### What a change says -/

def removals (changes : List Change) : List ℕ :=
  (changes.filter fun change ↦ decide (change.edit = .removed)).map Change.at'

def additions (changes : List Change) : List Change :=
  changes.filter fun change ↦ decide (change.edit = .added)

/-- The lines of some, counted after a number of others, that do not leave. -/
def kept (removed : List ℕ) (i : ℕ) : List Text → List Text
  | [] => []
  | text :: rest => if i + 1 ∈ removed then kept removed (i + 1) rest else text :: kept removed (i + 1) rest

/-- Take the lines that leave from where they were, and put those that arrive where they will be. -/
def apply (changes : List Change) (old : List Text) : List Text :=
  (additions changes).foldl (fun lines change ↦ lines.insertIdx (change.at' - 1) change.text)
    (kept (removals changes) 0 old)

/-- Two files read from their tops side by side, the lines behind counted: a line of both is passed, and of
the others each is said once, those that leave before those that arrive in their place. -/
inductive Reading : ℕ → ℕ → Bool → List Text → List Text → List Change → Prop
  | done {i j : ℕ} {arriving : Bool} : Reading i j arriving [] [] []
  | both {i j : ℕ} {arriving : Bool} {text : Text} {old new : List Text} {changes : List Change}
    (h : Reading (i + 1) (j + 1) false old new changes) :
    Reading i j arriving (text :: old) (text :: new) changes
  | leaves {i j : ℕ} {text : Text} {old new : List Text} {changes : List Change}
    (h : Reading (i + 1) j false old new changes) :
    Reading i j false (text :: old) new (⟨.removed, i + 1, text⟩ :: changes)
  | arrives {i j : ℕ} {arriving : Bool} {text : Text} {old new : List Text} {changes : List Change}
    (h : Reading i (j + 1) true old new changes) :
    Reading i j arriving old (text :: new) (⟨.added, j + 1, text⟩ :: changes)

/-- The changes that are read of two suffixes. -/
def script (i j : ℕ) : List Text → List Text → List Change
  | [], [] => []
  | text :: old, [] => ⟨.removed, i + 1, text⟩ :: script (i + 1) j old []
  | [], text :: new => ⟨.added, j + 1, text⟩ :: script i (j + 1) [] new
  | text :: old, other :: new =>
    if text = other then script (i + 1) (j + 1) old new
    else if common (text :: old) new ≤ common old (other :: new) then
      ⟨.removed, i + 1, text⟩ :: script (i + 1) j old (other :: new)
    else ⟨.added, j + 1, other⟩ :: script i (j + 1) (text :: old) new
  termination_by old new => old.length + new.length

/-! ### The table holds what it is for -/

/-- The cells of a table that hold the length for their suffixes. -/
structure Filled (old new : List Text) (table : Grid ℕ) (done : ℕ → ℕ → Prop) : Prop where
  rows : table.rows = old.length + 1
  cols : table.cols = new.length + 1
  cell : ∀ i ≤ old.length, ∀ j ≤ new.length, done i j →
    table.cell i j = common (old.drop i) (new.drop j)

/-- One cell: those after it are filled, and now it is. -/
theorem filled_cell {old new : List Text} {table : Grid ℕ} {i j : ℕ} (hi : i < old.length)
    (hj : j < new.length) (h : Filled old new table fun i' j' ↦ i < i' ∨ i' = i ∧ j + 1 ≤ j' ∨ j' = new.length) :
    ∃ table', (cellOf old new table i j).bind (table.set? i j) = some table' ∧
      Filled old new table' fun i' j' ↦ i < i' ∨ i' = i ∧ j ≤ j' ∨ j' = new.length := by
  have hrow : i < table.rows := by
    rw [h.rows]
    omega
  have hbelow : i + 1 < table.rows := by
    rw [h.rows]
    omega
  have hcol : j < table.cols := by
    rw [h.cols]
    omega
  have hbeside : j + 1 < table.cols := by
    rw [h.cols]
    omega
  have hvalue : cellOf old new table i j = some (common (old.drop i) (new.drop j)) := by
    have hlines : old[i]? = new[j]? ↔ old[i] = new[j] := by
      rw [List.getElem?_eq_getElem hi, List.getElem?_eq_getElem hj, Option.some_inj]
    rw [cellOf, List.drop_eq_getElem_cons hi, List.drop_eq_getElem_cons hj]
    by_cases hsame : old[i] = new[j]
    · rw [if_pos (hlines.mpr hsame), hsame, common_cons_self, Grid.get?_eq hbelow hbeside,
        h.cell (i + 1) hi (j + 1) hj (.inl (Nat.lt_succ_self i))]
      rfl
    · rw [if_neg fun h ↦ hsame (hlines.mp h), common_cons_ne hsame, Grid.get?_eq hbelow hcol, Grid.get?_eq hrow hbeside,
        h.cell (i + 1) hi j hj.le (.inl (Nat.lt_succ_self i)),
        h.cell i hi.le (j + 1) hj (.inr (.inl ⟨rfl, le_rfl⟩)), ← List.drop_eq_getElem_cons hi,
        ← List.drop_eq_getElem_cons hj]
      rfl
  obtain ⟨table', hset, hrows, hcols, hhere, hother⟩ :=
    @Grid.set?_eq ℕ table i j (common (old.drop i) (new.drop j)) hrow hcol
  refine ⟨table', by rw [hvalue]; exact hset, hrows.trans h.rows, hcols.trans h.cols, ?_⟩
  intro i' hi' j' hj' hdone
  by_cases hcell : i' = i ∧ j' = j
  · rw [hcell.1, hcell.2, hhere]
  · rw [hother i' j' hcell]
    refine h.cell i' hi' j' hj' ?_
    omega

/-- The table is built without a read or a write outside it, and holds the lengths. -/
theorem commonTable_filled (old new : List Text) :
    ∃ table, commonTable old new = some table ∧ Filled old new table fun _ _ ↦ True := by
  have hstart : Filled old new (.full (old.length + 1) (new.length + 1) 0)
      fun i j ↦ old.length ≤ i ∨ j = new.length := by
    refine ⟨rfl, rfl, fun i _ j _ hedge ↦ ?_⟩
    rcases hedge with hi | rfl
    · rw [List.drop_eq_nil_of_le hi, common_nil_left]
      rfl
    · rw [List.drop_length, common_nil_right]
      rfl
  have hrow : ∀ i < old.length, ∀ table : Grid ℕ,
      (Filled old new table fun i' j ↦ i + 1 ≤ i' ∨ j = new.length) → ∃ table',
        countdown (fun j table ↦ (cellOf old new table i j).bind (table.set? i j)) new.length table =
            some table' ∧ Filled old new table' fun i' j ↦ i ≤ i' ∨ j = new.length := by
    intro i hi table h
    have hbegin : Filled old new table
        fun i' j' ↦ i < i' ∨ i' = i ∧ new.length ≤ j' ∨ j' = new.length := by
      refine ⟨h.rows, h.cols, fun i' hi' j' hj' hdone ↦ h.cell i' hi' j' hj' ?_⟩
      omega
    obtain ⟨table', hloop, hend⟩ := @countdown_of_step (Grid ℕ)
      (fun j table ↦ (cellOf old new table i j).bind (table.set? i j))
      (fun j table ↦ Filled old new table fun i' j' ↦ i < i' ∨ i' = i ∧ j ≤ j' ∨ j' = new.length)
      new.length (fun j hj table h ↦ filled_cell hi hj h) table hbegin
    refine ⟨table', hloop, hend.rows, hend.cols, fun i' hi' j' hj' hdone ↦ hend.cell i' hi' j' hj' ?_⟩
    omega
  obtain ⟨table, hloop, hend⟩ := @countdown_of_step (Grid ℕ) _
    (fun i table ↦ Filled old new table fun i' j ↦ i ≤ i' ∨ j = new.length) old.length hrow _ hstart
  exact ⟨table, hloop, hend.rows, hend.cols, fun i hi j hj _ ↦ hend.cell i hi j hj (.inl (Nat.zero_le _))⟩

/-! ### The walk reads a script -/

/-- The line that leaves is asked for only where the table has the cells. -/
theorem leavesAt_eq {old new : List Text} {table : Grid ℕ} (h : Filled old new table fun _ _ ↦ True)
    {i j : ℕ} (hi : i < old.length) (hj : j < new.length) : leavesAt old new table i j =
      some (decide (common (old.drop i) (new.drop (j + 1)) ≤ common (old.drop (i + 1)) (new.drop j))) := by
  have hrow : i + 1 < table.rows := by
    rw [h.rows]
    omega
  have hcol : j + 1 < table.cols := by
    rw [h.cols]
    omega
  rw [leavesAt, if_neg hj.ne, if_pos hi, Grid.get?_eq hrow (Nat.lt_of_succ_lt hcol),
    Grid.get?_eq (Nat.lt_of_succ_lt hrow) hcol, h.cell (i + 1) hi j hj.le trivial,
    h.cell i hi.le (j + 1) hj trivial]
  rfl

/-- With as much fuel as there are lines, the walk ends and adds the script of what is left. -/
theorem walk_eq {old new : List Text} {table : Grid ℕ} (h : Filled old new table fun _ _ ↦ True)
    (fuel : ℕ) {i j : ℕ} (hi : i ≤ old.length) (hj : j ≤ new.length)
    (hfuel : old.length - i + (new.length - j) < fuel) (changes : List Change) :
    walk old new table fuel i j changes = some (changes ++ script i j (old.drop i) (new.drop j)) := by
  induction fuel generalizing i j changes with
  | zero => omega
  | succ fuel ih =>
    rw [walk]
    rcases hi.lt_or_eq with hi | rfl
    · have hleft := List.drop_eq_getElem_cons hi
      have hold := List.getElem?_eq_getElem hi
      rw [if_pos (.inl hi)]
      rcases hj.lt_or_eq with hj | rfl
      · have hright := List.drop_eq_getElem_cons hj
        have hnew := List.getElem?_eq_getElem hj
        by_cases hsame : old[i] = new[j]
        · have hboth : i < old.length ∧ j < new.length ∧ old[i]? = new[j]? :=
            ⟨hi, hj, by rw [hold, hnew, hsame]⟩
          rw [if_pos hboth, ih hi hj (by omega), hleft, hright, script, if_pos hsame]
        · have hnot : ¬(i < old.length ∧ j < new.length ∧ old[i]? = new[j]?) := by
            rintro ⟨-, -, hlines⟩
            rw [hold, hnew, Option.some_inj] at hlines
            exact hsame hlines
          rw [if_neg hnot, leavesAt_eq h hi hj, hold, hnew]
          simp only [Option.bind_eq_bind, Option.bind_some, decide_eq_true_eq]
          rw [hleft, hright, script, if_neg hsame, ← hleft, ← hright]
          split_ifs
          · rw [ih hi hj.le (by omega), List.append_assoc, List.singleton_append]
          · rw [ih hi.le hj (by omega), List.append_assoc, List.singleton_append]
      · have hnot : ¬(i < old.length ∧ new.length < new.length ∧ old[i]? = new[new.length]?) :=
          fun hboth ↦ absurd hboth.2.1 (lt_irrefl _)
        have hleaves : leavesAt old new table i new.length = some true := if_pos rfl
        rw [if_neg hnot, hleaves, hold]
        simp only [Option.bind_eq_bind, Option.bind_some, if_true]
        rw [ih hi le_rfl (by omega), hleft, List.drop_length, script, List.append_assoc,
          List.singleton_append]
    · rcases hj.lt_or_eq with hj | rfl
      · have hright := List.drop_eq_getElem_cons hj
        have hnew := List.getElem?_eq_getElem hj
        have hnot : ¬(old.length < old.length ∧ j < new.length ∧ old[old.length]? = new[j]?) :=
          fun hboth ↦ absurd hboth.1 (lt_irrefl _)
        have hleaves : leavesAt old new table old.length j = some false := by
          rw [leavesAt, if_neg hj.ne, if_neg (lt_irrefl _)]
        rw [if_pos (.inr hj), if_neg hnot, hleaves, hnew]
        simp only [Option.bind_eq_bind, Option.bind_some, Bool.false_eq_true, if_false]
        rw [ih le_rfl hj (by omega), hright, List.drop_length, script, List.append_assoc,
          List.singleton_append]
      · have hnot : ¬(old.length < old.length ∨ new.length < new.length) := by omega
        rw [if_neg hnot, List.drop_length, List.drop_length, script, List.append_nil]

/-! ### What a script is -/

/-- A script has every line of both but twice those of the longest common subsequence. -/
theorem length_script (i j : ℕ) (old new : List Text) :
    (script i j old new).length + 2 * common old new = old.length + new.length := by
  induction i, j, old, new using script.induct with
  | case1 i j => simp [script]
  | case2 i j text old ih =>
    rw [script, List.length_cons, common_nil_right]
    rw [common_nil_right] at ih
    simp only [List.length_cons, List.length_nil] at ih ⊢
    omega
  | case3 i j text new ih =>
    rw [script, List.length_cons, common_nil_left]
    rw [common_nil_left] at ih
    simp only [List.length_cons, List.length_nil] at ih ⊢
    omega
  | case4 i j old text new ih =>
    rw [script, if_pos rfl, common_cons_self, List.length_cons, List.length_cons]
    omega
  | case5 i j text old other new hne hle ih =>
    rw [script, if_neg hne, if_pos hle, common_cons_ne hne, max_eq_left hle]
    simp only [List.length_cons] at ih ⊢
    omega
  | case6 i j text old other new hne hle ih =>
    rw [script, if_neg hne, if_neg hle, common_cons_ne hne, max_eq_right (Nat.le_of_not_le hle)]
    simp only [List.length_cons] at ih ⊢
    omega

/-- A script is a reading. Where lines are arriving, passing over the old line would lose one of the
longest common subsequence, so no line leaves before the next that both files hold. -/
theorem script_reading (i j : ℕ) (arriving : Bool) (old new : List Text)
    (h : arriving = true → ∀ text rest, old = text :: rest → common rest new < common old new) :
    Reading i j arriving old new (script i j old new) := by
  induction i, j, old, new using script.induct generalizing arriving with
  | case1 i j =>
    rw [script]
    exact .done
  | case2 i j text old ih =>
    cases arriving with
    | false =>
      rw [script]
      exact .leaves (ih false (by simp))
    | true =>
      have hless := h rfl text old rfl
      rw [common_nil_right, common_nil_right] at hless
      exact absurd hless (lt_irrefl _)
  | case3 i j text new ih =>
    rw [script]
    exact .arrives (ih true (by simp))
  | case4 i j old text new ih =>
    rw [script, if_pos rfl]
    exact .both (ih false (by simp))
  | case5 i j text old other new hne hle ih =>
    cases arriving with
    | false =>
      rw [script, if_neg hne, if_pos hle]
      exact .leaves (ih false (by simp))
    | true =>
      have hless := h rfl text old rfl
      rw [common_cons_ne hne, max_eq_left hle] at hless
      exact absurd hless (lt_irrefl _)
  | case6 i j text old other new hne hle ih =>
    rw [script, if_neg hne, if_neg hle]
    refine .arrives (ih true ?_)
    rintro - first rest hcons
    cases hcons
    exact (common_le_cons_right other old new).trans_lt (Nat.lt_of_not_le hle)

/-! ### What a reading is -/

section Reading

variable {i j : ℕ} {arriving : Bool} {old new : List Text} {changes : List Change}

/-- Every change that is read is of a line past those behind. -/
theorem Reading.past (h : Reading i j arriving old new changes) : ∀ change ∈ changes,
    (change.edit = .removed → i < change.at') ∧ (change.edit = .added → j < change.at') := by
  induction h with
  | done => exact List.forall_mem_nil _
  | both h ih =>
    intro change hchange
    obtain ⟨hremoved, hadded⟩ := ih change hchange
    exact ⟨fun hedit ↦ Nat.lt_of_succ_lt (hremoved hedit), fun hedit ↦ Nat.lt_of_succ_lt (hadded hedit)⟩
  | @leaves i j text old new changes h ih =>
    intro change hchange
    rcases List.mem_cons.mp hchange with rfl | hlater
    · exact ⟨fun _ ↦ Nat.lt_succ_self i, fun hedit ↦ (by cases hedit)⟩
    · obtain ⟨hremoved, hadded⟩ := ih change hlater
      exact ⟨fun hedit ↦ Nat.lt_of_succ_lt (hremoved hedit), hadded⟩
  | @arrives i j arriving text old new changes h ih =>
    intro change hchange
    rcases List.mem_cons.mp hchange with rfl | hlater
    · exact ⟨fun hedit ↦ (by cases hedit), fun _ ↦ Nat.lt_succ_self j⟩
    · obtain ⟨hremoved, hadded⟩ := ih change hlater
      exact ⟨hremoved, fun hedit ↦ Nat.lt_of_succ_lt (hadded hedit)⟩

/-- The lines of each file are read in their order, and each once. -/
theorem Reading.ordered (h : Reading i j arriving old new changes) :
    changes.Pairwise fun first later ↦ first.edit = later.edit → first.at' < later.at' := by
  induction h with
  | done => exact List.Pairwise.nil
  | both _ ih => exact ih
  | leaves h ih =>
    exact List.pairwise_cons.mpr ⟨fun later hlater hedit ↦ (h.past later hlater).1 hedit.symm, ih⟩
  | arrives h ih =>
    exact List.pairwise_cons.mpr ⟨fun later hlater hedit ↦ (h.past later hlater).2 hedit.symm, ih⟩

theorem Reading.removals_past (h : Reading i j arriving old new changes) :
    ∀ n ∈ removals changes, i < n := by
  intro n hn
  obtain ⟨change, hchange, rfl⟩ := List.mem_map.mp hn
  obtain ⟨hmem, hedit⟩ := List.mem_filter.mp hchange
  exact (h.past change hmem).1 (of_decide_eq_true hedit)

/-- A number of a line before some does not matter for them. -/
theorem kept_cons_of_le {n i : ℕ} (h : n ≤ i) (removed : List ℕ) (lines : List Text) :
    kept (n :: removed) i lines = kept removed i lines := by
  induction lines generalizing i with
  | nil => rfl
  | cons text lines ih =>
    have hne : i + 1 ≠ n := by omega
    have hmem : i + 1 ∈ n :: removed ↔ i + 1 ∈ removed := by rw [List.mem_cons, or_iff_right hne]
    simp only [kept, ih (Nat.le_succ_of_le h), hmem]

theorem insertIdx_length (before after : List Text) (text : Text) :
    (before ++ after).insertIdx before.length text = before ++ text :: after := by
  induction before with
  | nil => rfl
  | cons first before ih => exact congrArg (List.cons first) ih

/-- What is read, applied to the lines of the old file after some that are done, gives those of the new. -/
theorem Reading.applied (h : Reading i j arriving old new changes) (before : List Text)
    (hbefore : before.length = j) :
    (additions changes).foldl (fun lines change ↦ lines.insertIdx (change.at' - 1) change.text)
      (before ++ kept (removals changes) i old) = before ++ new := by
  induction h generalizing before with
  | done => rfl
  | @both i j arriving text old new changes h ih =>
    have hstays : i + 1 ∉ removals changes := fun hmem ↦
      absurd (h.removals_past (i + 1) hmem) (lt_irrefl _)
    have hrest := ih (before ++ [text]) (by simp [hbefore])
    rw [kept, if_neg hstays]
    simpa using hrest
  | @leaves i j text old new changes h ih =>
    have hnumbers : removals (⟨.removed, i + 1, text⟩ :: changes) = (i + 1) :: removals changes := rfl
    have hadditions : additions (⟨.removed, i + 1, text⟩ :: changes) = additions changes := rfl
    rw [hnumbers, hadditions, kept, if_pos List.mem_cons_self, kept_cons_of_le le_rfl]
    exact ih before hbefore
  | @arrives i j arriving text old new changes h ih =>
    have hnumbers : removals (⟨.added, j + 1, text⟩ :: changes) = removals changes := rfl
    have hadditions : additions (⟨.added, j + 1, text⟩ :: changes) =
        ⟨.added, j + 1, text⟩ :: additions changes := rfl
    have hrest := ih (before ++ [text]) (by simp [hbefore])
    rw [hnumbers, hadditions, List.foldl_cons, Nat.add_sub_cancel, ← hbefore, insertIdx_length]
    simpa using hrest

end Reading

/-! ### No list of changes does with less -/

theorem kept_sublist (removed : List ℕ) (i : ℕ) (lines : List Text) :
    (kept removed i lines).Sublist lines := by
  induction lines generalizing i with
  | nil => exact List.Sublist.refl _
  | cons text lines ih =>
    rw [kept]
    split_ifs
    · exact (ih (i + 1)).cons text
    · exact (ih (i + 1)).cons_cons text

theorem countP_lt_succ (removed : List ℕ) (i : ℕ) :
    removed.countP (fun n ↦ decide (i < n)) =
      removed.countP (fun n ↦ decide (i + 1 < n)) + removed.count (i + 1) := by
  induction removed with
  | nil => rfl
  | cons n removed ih =>
    rw [List.countP_cons, List.countP_cons, List.count_cons, ih]
    simp only [decide_eq_true_eq, beq_iff_eq]
    split_ifs <;> omega

/-- Each number takes one line away at most. -/
theorem length_le_kept (removed : List ℕ) (i : ℕ) (lines : List Text) :
    lines.length ≤ (kept removed i lines).length + removed.countP (fun n ↦ decide (i < n)) := by
  induction lines generalizing i with
  | nil => exact Nat.zero_le _
  | cons text lines ih =>
    have hrest := ih (i + 1)
    have hcount := countP_lt_succ removed i
    rw [kept]
    split_ifs with hmem
    · have hpos : 0 < removed.count (i + 1) := List.count_pos_iff.mpr hmem
      rw [List.length_cons]
      omega
    · rw [List.length_cons, List.length_cons]
      omega

/-- Each addition puts one line in at most, and takes none away. -/
theorem foldl_insertIdx (added : List Change) (lines : List Text) :
    lines.Sublist (added.foldl (fun lines change ↦ lines.insertIdx (change.at' - 1) change.text) lines) ∧
      (added.foldl (fun lines change ↦ lines.insertIdx (change.at' - 1) change.text) lines).length ≤
        lines.length + added.length := by
  induction added generalizing lines with
  | nil => exact ⟨List.Sublist.refl _, le_rfl⟩
  | cons change added ih =>
    obtain ⟨hsublist, hlength⟩ := ih (lines.insertIdx (change.at' - 1) change.text)
    have hone : (lines.insertIdx (change.at' - 1) change.text).length ≤ lines.length + 1 :=
      List.length_insertIdx_le_succ
    refine ⟨(List.sublist_insertIdx _ _ _).trans hsublist, ?_⟩
    rw [List.foldl_cons, List.length_cons]
    omega

theorem length_additions_add_removals (changes : List Change) :
    (additions changes).length + (removals changes).length = changes.length := by
  have hpartition := List.length_eq_length_filter_add (l := changes)
    fun change ↦ decide (change.edit = .added)
  have hother : changes.filter (fun change ↦ !decide (change.edit = .added)) =
      changes.filter fun change ↦ decide (change.edit = .removed) := by
    refine List.filter_congr fun change _ ↦ ?_
    cases change.edit <;> rfl
  rw [hother] at hpartition
  rw [additions, removals, List.length_map]
  exact hpartition.symm

/-- What a list of changes keeps is inside both files. -/
theorem least_of_apply {changes : List Change} {old new : List Text} (h : apply changes old = new) :
    old.length + new.length ≤ changes.length + 2 * common old new := by
  obtain ⟨hsublist, hlength⟩ := foldl_insertIdx (additions changes) (kept (removals changes) 0 old)
  have hkept := length_le_kept (removals changes) 0 old
  have hnumbers := List.countP_le_length (l := removals changes) (p := fun n ↦ decide (0 < n))
  have hcounted := length_additions_add_removals changes
  rw [← apply, h] at hsublist hlength
  have hcommon := length_le_common (kept_sublist (removals changes) 0 old) hsublist
  omega

/-! ### The warning lists the edit -/

/-- For all texts there is an answer, no read being outside the table. Applied to the old lines it gives the
new; it is a reading of the two files from their tops, each line in its order and once; its length is that of
both less twice their longest common subsequence, and no list of changes that gives the new lines is shorter. -/
theorem lines_spec (before after : Text) : ∃ changes, lines before after = some changes ∧
    apply changes (Text.lines before) = Text.lines after ∧
    Reading 0 0 false (Text.lines before) (Text.lines after) changes ∧
    (changes.Pairwise fun first later ↦ first.edit = later.edit → first.at' < later.at') ∧
    (∃ longest, IsGreatest {n | ∃ both : List Text, both.Sublist (Text.lines before) ∧
        both.Sublist (Text.lines after) ∧ both.length = n} longest ∧
      changes.length + 2 * longest = (Text.lines before).length + (Text.lines after).length) ∧
    ∀ others, apply others (Text.lines before) = Text.lines after → changes.length ≤ others.length := by
  obtain ⟨table, htable, hfilled⟩ := commonTable_filled (Text.lines before) (Text.lines after)
  have hwalk := walk_eq hfilled ((Text.lines before).length + (Text.lines after).length + 1)
    (Nat.zero_le _) (Nat.zero_le _) (by omega) []
  rw [List.nil_append, List.drop_zero, List.drop_zero] at hwalk
  have hreading := script_reading 0 0 false (Text.lines before) (Text.lines after) (by simp)
  have hlength := length_script 0 0 (Text.lines before) (Text.lines after)
  refine ⟨_, ?_, ?_, hreading, hreading.ordered, ⟨_, isGreatest_common _ _, hlength⟩, ?_⟩
  · rw [lines, htable]
    exact hwalk
  · exact hreading.applied [] rfl
  · intro others hothers
    have hleast := least_of_apply hothers
    omega

end Nodal.Recipes.Rewrite
