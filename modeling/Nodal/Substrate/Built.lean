import Nodal.Lifecycle.Carried
import Nodal.Substrate.Build

/-!
# A base that may be cloned is a base that was built

Whether a finished base stands at a path is read off two names beside it, and what a later process skips
is read off the journal. What joins the two: a step the journal calls applied was applied to the tree
that is there, a tree without the mark has had all of them, and a mark is only ever gone from under a
tree that stands (`Kept`).

A run acts alone until its process is gone. It is the only one that takes a tree away, and by then no
step of it is called applied. Those that come after it add to the tree and take nothing (`Grows`), so any
number of them may be at it at once.
-/

set_option autoImplicit false

namespace Nodal.Substrate.Build

open Foundation Foundation.Attempt Lifecycle

/-! ### What is kept -/

variable (params : Params)

/-- The clone ended well, and every step between it and the end was applied with success since. -/
def Tree.Complete (tree : Tree) : Prop :=
  tree.cloned = true ∧ ∀ k < (wanted params).length, k + 1 ∈ tree.done

/-- A complete tree stands at the base's name. -/
def Spot.Stands (spot : Spot) : Prop := ∃ tree, spot.tree = some tree ∧ tree.Complete params

/-- The tree of the build has had one step. -/
def Spot.Carries (position : ℕ) (spot : Spot) : Prop :=
  ∃ tree, spot.here = some tree ∧ position ∈ tree.done

/-- The position of the step that takes the mark off. -/
def last : ℕ := (wanted params).length + 1

/-- What the journal holds of the steps of the build. -/
abbrev Rows : Type := Table ℕ StepRecord

/-- The journal calls a step applied. -/
def Applied (rows : Rows) (position : ℕ) (key : String) : Prop :=
  ∃ row, rows.get? position = some row ∧ row.state = .applied ∧ row.key = key

/-- The journal says a step may have acted. -/
def Acted (rows : Rows) (position : ℕ) : Prop :=
  ∃ row, rows.get? position = some row ∧ row.state.mayHaveActed = true

/-- What holds of the journal and the names between any two effects. -/
structure Kept (rows : Rows) (g : Grounds) : Prop where
  placed : ∀ position row, rows.get? position = some row → row.position = position
  cloned : ∀ name tree, g.spot.at' name = some tree → tree.cloned = true
  applied : ∀ k deed, (wanted params)[k]? = some deed → Applied rows (k + 1) deed.key →
    g.spot.Carries (k + 1)
  promoted : Applied rows (last params) "promote" → g.spot.Stands params
  built : g.spot.tree.isSome → g.spot.marked = false → g.spot.Stands params ∧ Acted rows (last params)
  rows : ∀ spot ∈ g.rows, spot.Stands params

/-- What stands at the names has only been added to. -/
structure Grown (g g' : Grounds) : Prop where
  legacy : g.spot.legacy = none → g'.spot.legacy = none
  tree : ∀ tree, g.spot.tree = some tree →
    ∃ tree', g'.spot.tree = some tree' ∧ tree.done ⊆ tree'.done
  here : ∀ tree, g.spot.here = some tree →
    ∃ tree', g'.spot.here = some tree' ∧ tree.done ⊆ tree'.done
  marked : g.spot.marked = true → g'.spot.marked = true ∨ g'.spot.tree.isSome

/-- What the others may have done to the names while one process looks away. -/
structure Grows (i : Process) (g g' : Grounds) : Prop extends Grown g g' where
  scratch : ∀ tree', g'.scratch i = some tree' →
    ∃ tree, g.scratch i = some tree ∧ (tree.cloned = true → tree'.cloned = true)

variable {params} {i j : Process} {rows rows' : Rows} {g g' g'' : Grounds} {spot : Spot} {k position : ℕ}
  {key : String} {step : StepRecord} {tree : Tree}

theorem grown_of_spot (h : g'.spot = g.spot) : Grown g g' where
  legacy hnone := h ▸ hnone
  tree tree htree := ⟨tree, h ▸ htree, List.Subset.refl _⟩
  here tree htree := ⟨tree, h ▸ htree, List.Subset.refl _⟩
  marked hmarked := .inl (h ▸ hmarked)

theorem Grows.refl : Grows i g g :=
  ⟨grown_of_spot rfl, fun tree h ↦ ⟨tree, h, fun hcloned ↦ hcloned⟩⟩

theorem Grows.trans (h : Grows i g g') (h' : Grows i g' g'') : Grows i g g'' where
  legacy hnone := h'.legacy (h.legacy hnone)
  tree tree htree := by
    obtain ⟨tree', htree', hsubset⟩ := h.tree tree htree
    obtain ⟨tree'', htree'', hsubset'⟩ := h'.tree tree' htree'
    exact ⟨tree'', htree'', List.Subset.trans hsubset hsubset'⟩
  here tree htree := by
    obtain ⟨tree', htree', hsubset⟩ := h.here tree htree
    obtain ⟨tree'', htree'', hsubset'⟩ := h'.here tree' htree'
    exact ⟨tree'', htree'', List.Subset.trans hsubset hsubset'⟩
  marked hmarked := by
    rcases h.marked hmarked with hstill | hsome
    · exact h'.marked hstill
    · obtain ⟨tree, htree⟩ := Option.isSome_iff_exists.mp hsome
      obtain ⟨tree', htree', -⟩ := h'.tree tree htree
      exact .inr (Option.isSome_iff_exists.mpr ⟨tree', htree'⟩)
  scratch tree'' htree'' := by
    obtain ⟨tree', htree', hcloned'⟩ := h'.scratch tree'' htree''
    obtain ⟨tree, htree, hcloned⟩ := h.scratch tree' htree'
    exact ⟨tree, htree, fun h ↦ hcloned' (hcloned h)⟩

theorem Grown.isSome (h : Grown g g') (hsome : g.spot.tree.isSome) : g'.spot.tree.isSome := by
  obtain ⟨tree, htree⟩ := Option.isSome_iff_exists.mp hsome
  obtain ⟨tree', htree', -⟩ := h.tree tree htree
  exact Option.isSome_iff_exists.mpr ⟨tree', htree'⟩

theorem Grown.carries (h : Grown g g') (hcarries : g.spot.Carries position) :
    g'.spot.Carries position := by
  obtain ⟨tree, htree, hmem⟩ := hcarries
  obtain ⟨tree', htree', hsubset⟩ := h.here tree htree
  exact ⟨tree', htree', hsubset hmem⟩

theorem Grown.stands (h : Grown g g') (hkept : Kept params rows' g') (hstands : g.spot.Stands params) :
    g'.spot.Stands params := by
  obtain ⟨tree, htree, -, hdone⟩ := hstands
  obtain ⟨tree', htree', hsubset⟩ := h.tree tree htree
  exact ⟨tree', htree', hkept.cloned .own tree' htree', fun k hk ↦ hsubset (hdone k hk)⟩

/-- A tree at the name that has had every step is complete. -/
theorem Kept.stands (hkept : Kept params rows g) (hsome : g.spot.tree.isSome)
    (hdone : ∀ k < (wanted params).length, g.spot.Carries (k + 1)) : g.spot.Stands params := by
  obtain ⟨tree, htree⟩ := Option.isSome_iff_exists.mp hsome
  refine ⟨tree, htree, hkept.cloned .own tree htree, fun k hk ↦ ?_⟩
  obtain ⟨found, hfound, hmem⟩ := hdone k hk
  have hhere : g.spot.here = some tree := by rw [Spot.here, htree]; rfl
  exact Option.some.inj (hfound.symm.trans hhere) ▸ hmem

/-! ### What the journal comes to call a step -/

theorem applied_set : Applied (rows.set step.position (Journal.merged step (rows.get? step.position)))
    position key ↔
      if position = step.position then step.state = .applied ∧ step.key = key
      else Applied rows position key := by
  by_cases h : position = step.position
  · subst h
    simp [Applied, Journal.merged]
  · simp [Applied, h, Table.get?_set_of_ne h]

theorem acted_set : Acted (rows.set step.position (Journal.merged step (rows.get? step.position)))
    position ↔
      if position = step.position then step.state.mayHaveActed = true else Acted rows position := by
  by_cases h : position = step.position
  · subst h
    simp [Acted, Journal.merged]
  · simp [Acted, h, Table.get?_set_of_ne h]

/-- What is written of a step keeps what holds, where it is true. -/
theorem Kept.mark (hkept : Kept params rows g)
    (happlied : step.state = .applied → ∀ k deed, (wanted params)[k]? = some deed →
      step.position = k + 1 → g.spot.Carries (k + 1))
    (hpromoted : step.state = .applied → step.position = last params → g.spot.Stands params)
    (hacted : step.position = last params → step.state.mayHaveActed = true ∨ g.spot.tree = none ∨
      g.spot.marked = true) :
    Kept params (rows.set step.position (Journal.merged step (rows.get? step.position))) g where
  placed position row hrow := by
    rw [Table.get?_set] at hrow
    split at hrow
    · next hposition =>
      rw [← Option.some.inj hrow, hposition]
      rfl
    · exact hkept.placed position row hrow
  cloned := hkept.cloned
  applied k deed hdeed h := by
    rw [applied_set] at h
    split at h
    · next hposition => exact happlied h.1 k deed hdeed hposition.symm
    · exact hkept.applied k deed hdeed h
  promoted h := by
    rw [applied_set] at h
    split at h
    · next hposition => exact hpromoted h.1 hposition.symm
    · exact hkept.promoted h
  built hsome hmarked := by
    obtain ⟨hstands, hlast⟩ := hkept.built hsome hmarked
    refine ⟨hstands, ?_⟩
    rw [acted_set]
    split
    · next hposition =>
      rcases hacted hposition.symm with hacted | hnone | hstill
      · exact hacted
      · rw [hnone] at hsome
        cases hsome
      · rw [hmarked] at hstill
        cases hstill
    · exact hlast
  rows := hkept.rows

/-! ### The contract -/

section Guarding

variable (params) (id : OperationId)

/-- What the journal holds of the steps of the run. -/
def rowsOf (w : Performed Grounds) : Rows := w.journal.journal.steps id

/-- The run is this process's, or it has ended. -/
def Mine (i : Process) (w : Performed Grounds) : Prop :=
  w.outside.turn = .of i ∨ w.outside.turn = .over

/-- What the others may have done once the run's process is gone. -/
structure Beside (i : Process) (w w' : Performed Grounds) : Prop where
  ended : w'.outside.turn = .over
  grows : Grows i w.outside w'.outside
  acted : ∀ position, Acted (rowsOf id w) position → Acted (rowsOf id w') position

/-- The run is alone until its process is gone, and those after it take nothing away. -/
def guarding : Contract Process (Performed Grounds) (Act Command) (Act.Choice Command.Choice) where
  inv w := Kept params (rowsOf id w) w.outside
  rely i w w' := (w.outside.turn = .of i → w'.outside = w.outside ∧ rowsOf id w' = rowsOf id w) ∧
    (w.outside.turn = .over → Beside id i w w')
  rely_refl _ _ := ⟨fun _ ↦ ⟨rfl, rfl⟩, fun hover ↦ ⟨hover, Grows.refl, fun _ h ↦ h⟩⟩
  rely_trans i w w' w'' h h' := by
    refine ⟨fun hturn ↦ ?_, fun hover ↦ ?_⟩
    · obtain ⟨houtside, hrows⟩ := h.1 hturn
      obtain ⟨houtside', hrows'⟩ := h'.1 (houtside ▸ hturn)
      exact ⟨houtside'.trans houtside, hrows'.trans hrows⟩
    · have hbeside := h.2 hover
      have hbeside' := h'.2 hbeside.ended
      exact ⟨hbeside'.ended, hbeside.grows.trans hbeside'.grows,
        fun position hacted ↦ hbeside'.acted position (hbeside.acted position hacted)⟩
  assume _ _ _ _ := True
  pre i effect w := Mine i w ∧ ∀ choice,
    Kept params (rowsOf id (performance.perform i effect choice w).2)
      (performance.perform i effect choice w).2.outside ∧
    (performance.perform i effect choice w).2.outside.turn = w.outside.turn ∧
    (w.outside.turn = .over → ∀ j, j ≠ i → Beside id j w (performance.perform i effect choice w).2)

/-- What a process asserts while the run is its own, or has ended. -/
def Held (i : Process) (P : Rows → Grounds → Prop) (w : Performed Grounds) : Prop :=
  Mine i w ∧ P (rowsOf id w) w.outside

/-- What a process asserts while the run is its own. -/
def Alone (i : Process) (P : Rows → Grounds → Prop) (w : Performed Grounds) : Prop :=
  w.outside.turn = .of i ∧ P (rowsOf id w) w.outside

/-- Nothing. -/
abbrev Whatever : Rows → Grounds → Prop := fun _ _ ↦ True

/-- What those that come after the run leave as it is. -/
def Lasts (i : Process) (P : Rows → Grounds → Prop) : Prop :=
  ∀ rows g rows' g', Kept params rows' g' → Grows i g g' →
    (∀ position, Acted rows position → Acted rows' position) → P rows g → P rows' g'

/-- What nobody takes away who only adds to what stands at the names. -/
def Spreads (P : Rows → Grounds → Prop) : Prop :=
  ∀ rows g rows' g', Kept params rows' g' → Grown g g' →
    (∀ position, Acted rows position → Acted rows' position) → P rows g → P rows' g'

variable {params id} {P P' : Rows → Grounds → Prop}

theorem Spreads.lasts (hP : Spreads params P) : Lasts params i P :=
  fun rows g rows' g' hkept hgrows ↦ hP rows g rows' g' hkept hgrows.toGrown

theorem Lasts.and (hP : Lasts params i P) (hP' : Lasts params i P') :
    Lasts params i fun rows g ↦ P rows g ∧ P' rows g :=
  fun rows g rows' g' hkept hgrows hacted h ↦
    ⟨hP rows g rows' g' hkept hgrows hacted h.1, hP' rows g rows' g' hkept hgrows hacted h.2⟩

theorem lasts_const {p : Prop} : Lasts params i fun _ _ ↦ p := fun _ _ _ _ _ _ _ h ↦ h

theorem lasts_acted : Lasts params i fun rows _ ↦ Acted rows position :=
  fun _ _ _ _ _ _ hacted h ↦ hacted position h

theorem lasts_stands : Lasts params i fun _ g ↦ g.spot.Stands params :=
  fun _ _ _ _ hkept hgrows _ h ↦ hgrows.stands hkept h

theorem lasts_isSome : Lasts params i fun _ g ↦ g.spot.tree.isSome :=
  fun _ _ _ _ _ hgrows _ h ↦ hgrows.isSome h

theorem lasts_legacy : Lasts params i fun _ g ↦ g.spot.legacy = none :=
  fun _ _ _ _ _ hgrows _ h ↦ hgrows.legacy h

theorem Lasts.or (hP : Lasts params i P) (hP' : Lasts params i P') :
    Lasts params i fun rows g ↦ P rows g ∨ P' rows g :=
  fun rows g rows' g' hkept hgrows hacted h ↦
    h.imp (hP rows g rows' g' hkept hgrows hacted) (hP' rows g rows' g' hkept hgrows hacted)

/-- The mark is there, or it was taken off a tree that stands. -/
theorem lasts_covered : Lasts params i fun _ g ↦ g.spot.marked = true ∨ g.spot.tree.isSome := by
  rintro rows g rows' g' - hgrows - (hmarked | hsome)
  · exact hgrows.marked hmarked
  · exact .inr (hgrows.isSome hsome)

theorem lasts_scratch : Lasts params i fun _ g ↦
    ∀ tree, g.scratch i = some tree → tree.cloned = true := by
  intro rows g rows' g' _ hgrows _ h tree' htree'
  obtain ⟨tree, htree, hcloned⟩ := hgrows.scratch tree' htree'
  exact hcloned (h tree htree)

theorem Lasts.imp {p : Prop} (hP : Lasts params i P) : Lasts params i fun rows g ↦ p → P rows g :=
  fun rows g rows' g' hkept hgrows hacted h hp ↦ hP rows g rows' g' hkept hgrows hacted (h hp)

theorem stable_held (hP : Lasts params i P) : Stable (guarding params id) i (Held id i P) := by
  rintro w w' ⟨halone, hafter⟩ hkept ⟨hturn | hover, hheld⟩
  · obtain ⟨houtside, hrows⟩ := halone hturn
    exact ⟨.inl (houtside ▸ hturn), by rw [houtside, hrows]; exact hheld⟩
  · have hbeside := hafter hover
    exact ⟨.inr hbeside.ended, hP _ _ _ _ hkept hbeside.grows hbeside.acted hheld⟩

theorem stable_alone : Stable (guarding params id) i (Alone id i P) := by
  rintro w w' ⟨halone, -⟩ - ⟨hturn, hheld⟩
  obtain ⟨houtside, hrows⟩ := halone hturn
  exact ⟨houtside ▸ hturn, by rw [houtside, hrows]; exact hheld⟩

/-! ### What a command leads to -/

variable {command : Command} {β : Type}

/-- No command begins the run or ends it. -/
theorem turn_act (choice : command.Choice) : (act command choice g).2.turn = g.turn := by
  have hchanged (ended : Except String Unit) (change : Option Grounds)
      (h : ∀ g', change = some g' → g'.turn = g.turn) : (changed ended change g).2.turn = g.turn := by
    unfold changed
    split
    · rfl
    · rfl
    · exact h _ rfl
  cases command with
  | mark => cases choice <;> rfl
  | unmark | renameLegacy | scrub _ | renameScratch _ | openRepository | perform _ _ =>
    refine hchanged choice _ fun g' h ↦ ?_
    first
    | (obtain ⟨tree, -, rfl⟩ := Option.map_eq_some_iff.mp h; rfl)
    | (split at h <;> first | (obtain rfl := Option.some.inj h; rfl) | cases h)
  | endClone _ _ | endRemove _ =>
    exact hchanged choice _ fun g' h ↦ by
      obtain rfl := Option.some.inj h
      rfl
  | _ => rfl

/-- A script of one process leads from an assertion to another, or ends with an error. -/
abbrev Brings (params : Params) (id : OperationId) (i : Process) (P : Rows → Grounds → Prop)
    (x : Script β) (Q : β → Rows → Grounds → Prop) : Prop :=
  Yields (machine params id) (guarding params id) i (Held id i Whatever) (Held id i P) (within x)
    fun value ↦ Held id i (Q value)

/-- A script of the run's own process leads from an assertion to another, or ends with an error. -/
abbrev Undoes (params : Params) (id : OperationId) (i : Process) (P : Rows → Grounds → Prop)
    (x : Script β) (Q : β → Rows → Grounds → Prop) : Prop :=
  Yields (machine params id) (guarding params id) i (Alone id i Whatever) (Alone id i P) (within x)
    fun value ↦ Alone id i (Q value)

theorem lasts_whatever : Lasts params i Whatever := fun _ _ _ _ _ _ _ _ ↦ trivial

theorem stable_whatever : Stable (guarding params id) i (Held id i Whatever) :=
  stable_held lasts_whatever

theorem held_whatever {w : Performed Grounds} (h : Held id i P w) : Held id i Whatever w :=
  ⟨h.1, trivial⟩

theorem alone_whatever {w : Performed Grounds} (h : Alone id i P w) : Alone id i Whatever w :=
  ⟨h.1, trivial⟩

/-- A command beside others. -/
theorem brings_call {Q : command.Answer → Rows → Grounds → Prop} (hP : Lasts params i P)
    (hQ : ∀ answer, Lasts params i (Q answer))
    (hstep : ∀ choice rows g, Kept params rows g → P rows g →
      Kept params rows (act command choice g).2 ∧ (∀ j, j ≠ i → Grows j g (act command choice g).2) ∧
      Q (act command choice g).1 rows (act command choice g).2) :
    Brings params id i P (call command) Q := by
  change Yields _ _ _ _ _ (call (Act.outside command)) _
  refine yields_call_of_inv (stable_held hP)
    (fun answer ↦ stable_held (hQ answer)) (fun w hkept hw ↦ ⟨hw.1, fun choice ↦ ?_⟩)
    fun choice w hkept _ hw ↦ ?_
  · obtain ⟨hafter, hgrows, -⟩ := hstep choice _ _ hkept hw.2
    exact ⟨hafter, turn_act choice, fun hover j hj ↦
      ⟨(turn_act choice).trans hover, hgrows j hj, fun _ h ↦ h⟩⟩
  · obtain ⟨-, -, hQ⟩ := hstep choice _ _ hkept hw.2
    have hturn : (act command choice w.outside).2.turn = w.outside.turn := turn_act choice
    exact ⟨hw.1.imp hturn.trans hturn.trans, hQ⟩

/-- A command while nobody else acts. -/
theorem undoes_call {Q : command.Answer → Rows → Grounds → Prop}
    (hstep : ∀ choice rows g, Kept params rows g → P rows g →
      Kept params rows (act command choice g).2 ∧
      Q (act command choice g).1 rows (act command choice g).2) :
    Undoes params id i P (call command) Q := by
  change Yields _ _ _ _ _ (call (Act.outside command)) _
  refine yields_call_of_inv stable_alone
    (fun answer ↦ stable_alone) (fun w hkept hw ↦ ⟨.inl hw.1, fun choice ↦ ?_⟩)
    fun choice w hkept _ hw ↦ ?_
  · exact ⟨(hstep choice _ _ hkept hw.2).1, turn_act choice, fun hover ↦
      (nomatch hw.1.symm.trans hover)⟩
  · have hturn : (act command choice w.outside).2.turn = w.outside.turn := turn_act choice
    exact ⟨hturn.trans hw.1, (hstep choice _ _ hkept hw.2).2⟩

/-! ### Scripts beside others -/

variable {γ : Type} {x : Script β} {f : β → Script γ} {Q Q' : β → Rows → Grounds → Prop}
  {T : γ → Rows → Grounds → Prop}

theorem brings_bind (hx : Brings params id i P x Q)
    (hf : ∀ value, Brings params id i (Q value) (f value) T) :
    Brings params id i P (x >>= f) T :=
  yields_within_bind stable_whatever hx hf

theorem brings_pure {value : β} (hQ : Lasts params i (Q value)) (h : ∀ rows g, P rows g → Q value rows g) :
    Brings params id i P (pure value) Q :=
  yields_within_pure (stable_held hQ) fun _ hw ↦ ⟨hw.1, h _ _ hw.2⟩

theorem brings_throw {why : String} : Brings params id i P (throw why : Script β) Q :=
  yields_within_throw stable_whatever fun _ ↦ held_whatever

theorem brings_mono (hx : Brings params id i P x Q) (hpre : ∀ rows g, P' rows g → P rows g)
    (hpost : ∀ value rows g, Q value rows g → Q' value rows g) : Brings params id i P' x Q' :=
  hx.mono (fun _ hw ↦ ⟨hw.1, hpre _ _ hw.2⟩) fun value _ hw ↦ ⟨hw.1, hpost value _ _ hw.2⟩

/-- A command that may fail. -/
theorem brings_ran {x : Script (Except String β)} {Q : Except String β → Rows → Grounds → Prop}
    {T : β → Rows → Grounds → Prop} (hx : Brings params id i P x Q)
    (hT : ∀ value, Lasts params i (T value)) (h : ∀ value rows g, Q (.ok value) rows g → T value rows g) :
    Brings params id i P (ran x) T := by
  refine brings_bind hx fun answer ↦ ?_
  cases answer with
  | ok value => exact brings_pure (hT value) (h value)
  | error why => exact brings_throw

/-- A command that may fail and leaves the assertion alone. -/
theorem brings_ran_same {x : Script (Except String β)} (hP : Lasts params i P)
    (hx : Brings params id i P x fun _ ↦ P) : Brings params id i P (ran x) fun _ ↦ P :=
  brings_ran hx (fun _ ↦ hP) fun _ _ _ h ↦ h

/-- A command that changes nothing a build is decided from. -/
def Command.asks : Command → Bool
  | .isDir _ | .marked | .createParent | .enforce _ | .scrub _ | .openRepository | .hasCommit _ | .fetch _
  | .fetchFrom _ _ => true
  | _ => false

theorem act_of_asks (hasks : command.asks = true) (choice : command.Choice) :
    (act command choice g).2 = g := by
  have hchanged {α : Type} (ended : Except String Unit) (found : Option α) :
      (changed ended (found.map fun _ ↦ g) g).2 = g := by
    cases ended <;> cases found <;> rfl
  cases command with
  | scrub attempt => exact hchanged _ _
  | openRepository => exact hchanged _ _
  | isDir _ | marked | createParent | enforce _ | hasCommit _ | fetch _ | fetchFrom _ _ => rfl
  | _ => cases hasks

theorem brings_asking (hasks : command.asks = true) (hP : Lasts params i P) :
    Brings params id i P (call command) fun _ ↦ P := by
  refine brings_call hP (fun _ ↦ hP) fun choice rows g hkept h ↦ ?_
  rw [act_of_asks hasks]
  exact ⟨hkept, fun _ _ ↦ Grows.refl, h⟩

/-- What answers a directory at the base's name has found a tree there. -/
theorem brings_isDir (hP : Lasts params i P) : Brings params id i P (call (Command.isDir .own))
    fun there rows g ↦ P rows g ∧ (there = true → g.spot.tree.isSome) :=
  brings_call hP (fun _ ↦ hP.and lasts_isSome.imp) fun _ _ _ hkept h ↦
    ⟨hkept, fun _ _ ↦ Grows.refl, h, fun hthere ↦ hthere⟩

/-- A command that takes nothing away leaves every assertion that lasts. -/
theorem brings_growing {Q : command.Answer → Rows → Grounds → Prop} (hP : Lasts params i P)
    (hQ : ∀ answer, Lasts params i (Q answer))
    (hstep : ∀ choice rows g, Kept params rows g → P rows g →
      Kept params rows (act command choice g).2 ∧ (∀ j, Grows j g (act command choice g).2) ∧
      Q (act command choice g).1 rows (act command choice g).2) :
    Brings params id i P (call command) fun answer rows g ↦ P rows g ∧ Q answer rows g := by
  refine brings_call hP (fun answer ↦ hP.and (hQ answer)) fun choice rows g hkept h ↦ ?_
  obtain ⟨hafter, hgrows, hQ⟩ := hstep choice rows g hkept h
  exact ⟨hafter, fun j _ ↦ hgrows j, hP _ _ _ _ hafter (hgrows i) (fun _ h ↦ h) h, hQ⟩

/-- A command that fails changes nothing. -/
theorem changed_cases (ended : Except String Unit) (change : Option Grounds) (g : Grounds) :
    (∃ why, changed ended change g = (.error why, g)) ∨
      ∃ after, change = some after ∧ changed ended change g = (.ok (), after) := by
  unfold changed
  split
  · exact .inl ⟨_, rfl⟩
  · exact .inl ⟨_, rfl⟩
  · exact .inr ⟨_, rfl, rfl⟩

/-! ### What is done to the names -/

theorem Kept.remark (hkept : Kept params rows g) {marked : Bool}
    (h : marked = false → g.spot.marked = false) :
    Kept params rows (g.place { g.spot with marked }) where
  placed := hkept.placed
  cloned name tree htree := hkept.cloned name tree (by cases name <;> exact htree)
  applied := hkept.applied
  promoted := hkept.promoted
  built hsome hmarked := hkept.built hsome (h hmarked)
  rows := hkept.rows

theorem grows_remark {marked : Bool} (h : g.spot.marked = true → marked = true ∨ g.spot.tree.isSome) :
    Grows j g (g.place { g.spot with marked }) where
  legacy h := h
  tree tree h := ⟨tree, h, List.Subset.refl _⟩
  here tree h := ⟨tree, h, List.Subset.refl _⟩
  marked := h
  scratch tree h := ⟨tree, h, fun hcloned ↦ hcloned⟩

/-- Where the mark was written, it is there until a tree stands without it. -/
theorem brings_mark (hP : Lasts params i P) : Brings params id i P (ran (call Command.mark))
    fun _ rows g ↦ P rows g ∧ (g.spot.marked = true ∨ g.spot.tree.isSome) := by
  refine brings_ran (Q := fun answer rows g ↦ P rows g ∧
    (answer = .ok () → g.spot.marked = true ∨ g.spot.tree.isSome))
    (brings_growing hP (fun _ ↦ lasts_covered.imp) fun choice rows g hkept _ ↦ ?_)
    (fun _ ↦ hP.and lasts_covered) fun _ _ _ h ↦ ⟨h.1, h.2 rfl⟩
  cases choice with
  | ok _ =>
    exact ⟨hkept.remark fun h ↦ (by cases h), fun _ ↦ grows_remark fun _ ↦ .inl rfl, fun _ ↦ .inl rfl⟩
  | error written =>
    obtain ⟨why, made⟩ := written
    refine ⟨hkept.remark fun h ↦ (Bool.or_eq_false_iff.mp h).1, fun _ ↦ grows_remark fun h ↦ .inl ?_,
      fun h ↦ (by cases h)⟩
    rw [h]
    rfl

/-- The mark goes from under a tree that stands, by the last step. -/
theorem brings_unmark (hP : Lasts params i P)
    (hstands : ∀ rows g, P rows g → g.spot.Stands params ∧ Acted rows (last params)) :
    Brings params id i P (ran (call Command.unmark)) fun _ ↦ P := by
  have hcall : Brings params id i P (call Command.unmark) fun _ rows g ↦ P rows g ∧ True := by
    refine brings_growing hP (fun _ ↦ lasts_const) fun choice rows g hkept h ↦ ?_
    obtain ⟨hcomplete, hacted⟩ := hstands rows g h
    rcases changed_cases choice _ g with ⟨why, heq⟩ | ⟨after, hafter, heq⟩
    · exact ⟨by rw [act, heq]; exact hkept, fun _ ↦ by rw [act, heq]; exact Grows.refl, trivial⟩
    · rw [act, heq]
      split at hafter
      · obtain rfl := Option.some.inj hafter
        refine ⟨⟨hkept.placed, fun name tree htree ↦ hkept.cloned name tree ?_, hkept.applied,
          hkept.promoted, fun _ _ ↦ ⟨hcomplete, hacted⟩, hkept.rows⟩, fun _ ↦ grows_remark fun _ ↦ .inr ?_,
          trivial⟩
        · cases name <;> exact htree
        · obtain ⟨tree, htree, -⟩ := hcomplete
          exact Option.isSome_iff_exists.mpr ⟨tree, htree⟩
      · cases hafter
  exact brings_ran hcall (fun _ ↦ hP) fun _ _ _ h ↦ h.1

/-- A tree moved into the name where none is. Nothing was called applied to another. -/
theorem Kept.move (hkept : Kept params rows g) {g' : Grounds} (hnone : g.spot.tree = none)
    (hcloned : tree.cloned = true)
    (hhere : ∀ position, g.spot.Carries position → g'.spot.Carries position)
    (hspot : g'.spot.tree = some tree) (hstill : g'.spot.marked = true)
    (hlegacy : ∀ found, g'.spot.legacy = some found → g.spot.legacy = some found)
    (hrows : g'.rows = g.rows) : Kept params rows g' where
  placed := hkept.placed
  cloned name found hfound := by
    cases name with
    | own => exact Option.some.inj (hspot.symm.trans hfound) ▸ hcloned
    | legacy => exact hkept.cloned .legacy found (hlegacy found hfound)
  applied k deed hdeed h := hhere _ (hkept.applied k deed hdeed h)
  promoted h := by
    obtain ⟨found, hfound, -⟩ := hkept.promoted h
    rw [hnone] at hfound
    cases hfound
  built _ h := by
    rw [hstill] at h
    cases h
  rows := hrows ▸ hkept.rows

/-- A tree of an older release is carried into the name, with what was applied to it. -/
theorem brings_renameLegacy (hP : Lasts params i P)
    (hcovered : ∀ rows g, P rows g → g.spot.marked = true ∨ g.spot.tree.isSome) :
    Brings params id i P (ran (call Command.renameLegacy))
      fun _ rows g ↦ P rows g ∧ g.spot.tree.isSome := by
  refine brings_ran (Q := fun answer rows g ↦ P rows g ∧ (answer = .ok () → g.spot.tree.isSome))
    (brings_growing hP (fun _ ↦ lasts_isSome.imp) fun choice rows g hkept h ↦ ?_)
    (fun _ ↦ hP.and lasts_isSome) fun _ _ _ h ↦ ⟨h.1, h.2 rfl⟩
  rcases changed_cases choice _ g with ⟨why, heq⟩ | ⟨after, hafter, heq⟩
  · rw [act, heq]
    exact ⟨hkept, fun _ ↦ Grows.refl, fun hok ↦ nomatch hok⟩
  · rw [act, heq]
    split at hafter
    · next tree hlegacy hnone =>
      obtain rfl := Option.some.inj hafter
      have hmarked := (hcovered rows g h).resolve_right (by rw [hnone]; exact Bool.false_ne_true)
      have hhere : g.spot.here = some tree := by rw [Spot.here, hnone, hlegacy]; rfl
      have hmoved : (g.place { g.spot with tree := some tree, legacy := none }).spot.here = some tree := rfl
      refine ⟨hkept.move hnone (hkept.cloned .legacy tree hlegacy) ?_ rfl hmarked
        (fun _ hfound ↦ nomatch hfound) rfl, fun j ↦ ?_, fun _ ↦ rfl⟩
      · rintro position ⟨found, hfound, hmem⟩
        exact ⟨tree, hmoved, Option.some.inj (hfound.symm.trans hhere) ▸ hmem⟩
      · refine ⟨⟨fun _ ↦ rfl, fun found hfound ↦ ?_, fun found hfound ↦ ?_, .inl⟩, fun found hfound ↦
          ⟨found, hfound, fun hcloned ↦ hcloned⟩⟩
        · rw [hnone] at hfound
          cases hfound
        · exact ⟨tree, hmoved, Option.some.inj (hfound.symm.trans hhere) ▸ List.Subset.refl _⟩
    · cases hafter

/-- Whatever holds, the tree of a build is at its name afterwards, or there is none beside it. -/
theorem brings_settle (hP : Lasts params i P) : Brings params id i P settle
    fun _ rows g ↦ P rows g ∧ (g.spot.tree.isSome ∨ g.spot.legacy = none) := by
  have hsettled := hP.and (lasts_isSome.or (lasts_legacy : Lasts params i _))
  have hasked : Brings params id i P (call (Command.isDir .legacy))
      fun there rows g ↦ P rows g ∧ (there = false → g.spot.legacy = none) := by
    exact brings_call hP (fun _ ↦ hP.and lasts_legacy.imp) fun _ _ g hkept h ↦
      ⟨hkept, fun _ _ ↦ Grows.refl, h, fun hthere ↦ at'_of_isDir hthere⟩
  refine brings_bind hasked fun there ↦ ?_
  cases there with
  | false => exact brings_pure hsettled fun _ _ h ↦ ⟨h.1, .inr (h.2 rfl)⟩
  | true =>
    refine brings_bind (brings_mono (brings_isDir hP) (fun _ _ h ↦ h.1) fun _ _ _ h ↦ h) fun there ↦ ?_
    cases there with
    | true => exact brings_pure hsettled fun _ _ h ↦ ⟨h.1, .inl (h.2 rfl)⟩
    | false =>
      refine brings_bind (brings_mono (brings_mark hP) (fun _ _ h ↦ h.1) fun _ _ _ h ↦ h) fun _ ↦ ?_
      exact brings_mono (brings_renameLegacy (hP.and lasts_covered) fun _ _ h ↦ h.2)
        (fun _ _ h ↦ h) fun _ _ _ h ↦ ⟨h.1.1, .inl h.2⟩

/-! ### Each step applied -/

theorem brings_clone {source : Source} (hP : Spreads params P) : Brings params id i
    (fun rows g ↦ P rows g ∧ g.spot.legacy = none)
    (call (Command.beginClone i source) >>= fun _ ↦ ran (call (Command.endClone i source)))
    fun _ rows g ↦ (P rows g ∧ g.spot.legacy = none) ∧
      ∀ tree, g.scratch i = some tree → tree.cloned = true := by
  have hbefore := hP.lasts.and (lasts_legacy : Lasts params i _)
  have hstep {rows : Rows} {g : Grounds} (tree : Option Tree) (hkept : Kept params rows g)
      (h : P rows g ∧ g.spot.legacy = none) : Kept params rows (g.assemble i tree) ∧
        (∀ j, j ≠ i → Grows j g (g.assemble i tree)) ∧ P rows (g.assemble i tree) ∧
        g.spot.legacy = none := by
    have hafter : Kept params rows (g.assemble i tree) :=
      ⟨hkept.placed, hkept.cloned, hkept.applied, hkept.promoted, hkept.built, hkept.rows⟩
    have hgrown : Grown g (g.assemble i tree) := grown_of_spot rfl
    refine ⟨hafter, fun j hj ↦ ⟨hgrown, fun found hfound ↦ ⟨found, ?_, fun hcloned ↦ hcloned⟩⟩,
      hP _ _ _ _ hafter hgrown (fun _ hacted ↦ hacted) h.1, h.2⟩
    have hother : (g.assemble i tree).scratch j = g.scratch j := Function.update_of_ne hj ..
    exact hother ▸ hfound
  have hbegun : Brings params id i (fun rows g ↦ P rows g ∧ g.spot.legacy = none)
      (call (Command.beginClone i source)) fun _ rows g ↦ P rows g ∧ g.spot.legacy = none :=
    brings_call hbefore (fun _ ↦ hbefore) fun _ _ _ hkept h ↦ hstep _ hkept h
  refine brings_bind hbegun fun _ ↦ ?_
  refine brings_ran (Q := fun answer rows g ↦ (P rows g ∧ g.spot.legacy = none) ∧
    (answer = .ok () → ∀ tree, g.scratch i = some tree → tree.cloned = true))
    (brings_call hbefore (fun _ ↦ hbefore.and lasts_scratch.imp) fun choice rows g hkept h ↦ ?_)
    (fun _ ↦ hbefore.and lasts_scratch) fun _ _ _ h ↦ ⟨h.1, h.2 rfl⟩
  rcases changed_cases choice _ g with ⟨why, heq⟩ | ⟨after, hafter, heq⟩
  · rw [act, heq]
    exact ⟨hkept, fun _ _ ↦ Grows.refl, h, fun hok ↦ nomatch hok⟩
  · rw [act, heq]
    obtain rfl := Option.some.inj hafter
    obtain ⟨hkeeps, hothers, hstill⟩ := hstep (some .fresh) hkept h
    refine ⟨hkeeps, hothers, hstill, fun _ tree htree ↦ ?_⟩
    have hfresh : (g.assemble i (some .fresh)).scratch i = some .fresh := Function.update_self ..
    exact Option.some.inj (hfresh.symm.trans htree) ▸ rfl

theorem brings_renameScratch (hP : Spreads params P) : Brings params id i
    (fun rows g ↦ ((P rows g ∧ g.spot.legacy = none) ∧
      ∀ tree, g.scratch i = some tree → tree.cloned = true) ∧ (g.spot.marked = true ∨ g.spot.tree.isSome))
    (ran (call (Command.renameScratch i))) fun _ ↦ P := by
  refine brings_ran (Q := fun _ ↦ P) (brings_call
    (((hP.lasts.and lasts_legacy).and lasts_scratch).and lasts_covered) (fun _ ↦ hP.lasts)
    fun choice rows g hkept h ↦ ?_) (fun _ ↦ hP.lasts) fun _ _ _ h ↦ h
  obtain ⟨⟨⟨hbefore, hlegacy⟩, hscratch⟩, hcovered⟩ := h
  rcases changed_cases choice _ g with ⟨why, heq⟩ | ⟨after, hafter, heq⟩
  · rw [act, heq]
    exact ⟨hkept, fun _ _ ↦ Grows.refl, hbefore⟩
  · rw [act, heq]
    split at hafter
    · next tree hfound hnone =>
      obtain rfl := Option.some.inj hafter
      have hmarked := hcovered.resolve_right (by rw [hnone]; exact Bool.false_ne_true)
      have hhere : g.spot.here = none := by rw [Spot.here, hnone, hlegacy]; rfl
      have hmoved : Kept params rows ((g.assemble i none).place { g.spot with tree := some tree }) := by
        refine hkept.move hnone (hscratch tree hfound) ?_ rfl hmarked (fun _ h ↦ h) rfl
        rintro position ⟨found, hfound, -⟩
        rw [hhere] at hfound
        cases hfound
      have hgrown : Grown g ((g.assemble i none).place { g.spot with tree := some tree }) := by
        refine ⟨fun h ↦ h, fun found hfound ↦ ?_, fun found hfound ↦ ?_, .inl⟩
        · rw [hnone] at hfound
          cases hfound
        · rw [hhere] at hfound
          cases hfound
      refine ⟨hmoved, fun j hj ↦ ⟨hgrown, fun found hfound ↦ ⟨found, ?_, fun hcloned ↦ hcloned⟩⟩,
        hP _ _ _ _ hmoved hgrown (fun _ hacted ↦ hacted) hbefore⟩
      have hother : ((g.assemble i none).place { g.spot with tree := some tree }).scratch j =
          g.scratch j := Function.update_of_ne hj ..
      exact hother ▸ hfound
    · cases hafter

/-- What the clone step leads to: nothing the next step may count on but that it may go on. -/
theorem brings_materialise (hP : Spreads params P) :
    Brings params id i P (Materialise params i).apply fun _ ↦ P := by
  refine brings_bind (brings_settle hP.lasts) fun _ ↦ ?_
  have hasked : Brings params id i
      (fun rows g ↦ P rows g ∧ (g.spot.tree.isSome ∨ g.spot.legacy = none)) (call (Command.isDir .own))
      fun there rows g ↦ P rows g ∧ (there = false → g.spot.legacy = none) := by
    refine brings_call (hP.lasts.and (lasts_isSome.or lasts_legacy)) (fun _ ↦ hP.lasts.and lasts_legacy.imp)
      fun _ _ g hkept h ↦ ⟨hkept, fun _ _ ↦ Grows.refl, h.1, fun hthere ↦ h.2.resolve_left ?_⟩
    have hnone : g.spot.tree.isSome = false := hthere
    rw [hnone]
    exact Bool.false_ne_true
  refine brings_bind hasked fun there ↦ ?_
  cases there with
  | true => exact brings_pure hP.lasts fun _ _ h ↦ h.1
  | false =>
    have hbefore := hP.lasts.and (lasts_legacy : Lasts params i _)
    have hasking {command : Command} (hasks : command.asks = true) :
        Brings params id i (fun rows g ↦ P rows g ∧ g.spot.legacy = none) (call command)
          fun _ rows g ↦ P rows g ∧ g.spot.legacy = none := brings_asking hasks hbefore
    refine brings_bind (brings_mono (brings_ran_same hbefore (hasking rfl)) (fun _ _ h ↦ ⟨h.1, h.2 rfl⟩)
      fun _ _ _ h ↦ h) fun _ ↦ ?_
    have hsweep : Brings params id i (fun rows g ↦ P rows g ∧ g.spot.legacy = none) (call Command.sweep)
        fun _ rows g ↦ (P rows g ∧ g.spot.legacy = none) ∧ True := by
      refine brings_growing hbefore (fun _ ↦ lasts_const) fun swept rows g hkept _ ↦
        ⟨⟨hkept.placed, hkept.cloned, hkept.applied, hkept.promoted, hkept.built, hkept.rows⟩, fun j ↦
          ⟨grown_of_spot rfl, fun found hfound ↦ ?_⟩, trivial⟩
      have hleft : (swept j).leaves (g.scratch j) = some found := hfound
      cases hswept : swept j with
      | stays =>
        rw [hswept] at hleft
        exact ⟨found, hleft, fun hcloned ↦ hcloned⟩
      | torn =>
        rw [hswept] at hleft
        obtain ⟨tree, htree, rfl⟩ := Option.map_eq_some_iff.mp hleft
        exact ⟨tree, htree, fun hcloned ↦ hcloned⟩
      | gone =>
        rw [hswept] at hleft
        cases hleft
    refine brings_bind hsweep fun _ ↦ ?_
    have hassembled : Brings params id i (fun rows g ↦ P rows g ∧ g.spot.legacy = none)
        (assembled i params.origin) fun _ rows g ↦ (P rows g ∧ g.spot.legacy = none) ∧
          ∀ tree, g.scratch i = some tree → tree.cloned = true := by
      unfold assembled
      cases params.origin with
      | remote url => exact brings_clone hP
      | checkout path => exact brings_clone hP
      | neighbour base path distance =>
        exact brings_bind (brings_ran_same hbefore (hasking rfl)) fun _ ↦ brings_clone hP
    refine brings_bind (brings_mono hassembled (fun _ _ h ↦ h.1) fun _ _ _ h ↦ h) fun _ ↦ ?_
    have hmade := hbefore.and lasts_scratch
    refine brings_bind (brings_ran_same hmade (brings_asking rfl hmade)) fun _ ↦ ?_
    refine brings_bind (brings_mark hmade) fun _ ↦ ?_
    exact brings_bind (brings_renameScratch hP) fun _ ↦ brings_pure hP.lasts fun _ _ h ↦ h

/-- A step that ends well was applied to the tree at the name. -/
theorem brings_perform {deed : Deed} (hP : Lasts params i P) :
    Brings params id i P (ran (call (Command.perform position deed)))
      fun _ rows g ↦ P rows g ∧ g.spot.Carries position := by
  have hcarries : Lasts params i fun _ g ↦ g.spot.Carries position :=
    fun _ _ _ _ _ hgrows _ h ↦ hgrows.carries h
  refine brings_ran (Q := fun answer rows g ↦ P rows g ∧ (answer = .ok () → g.spot.Carries position))
    (brings_growing hP (fun _ ↦ hcarries.imp) fun choice rows g hkept _ ↦ ?_)
    (fun _ ↦ hP.and hcarries) fun _ _ _ h ↦ ⟨h.1, h.2 rfl⟩
  rcases changed_cases choice _ g with ⟨why, heq⟩ | ⟨after, hafter, heq⟩
  · rw [act, heq]
    exact ⟨hkept, fun _ ↦ Grows.refl, fun hok ↦ nomatch hok⟩
  · rw [act, heq]
    obtain ⟨tree, htree, rfl⟩ := Option.map_eq_some_iff.mp hafter
    have hhere : g.spot.here = some tree := by rw [Spot.here, htree]; rfl
    let more : Tree := { tree with done := position :: tree.done }
    have hmore : (g.place { g.spot with tree := some more }).spot.here = some more := rfl
    have hgrows (j : Process) : Grows j g (g.place { g.spot with tree := some more }) := by
      refine ⟨⟨fun h ↦ h, fun found hfound ↦ ⟨more, rfl, ?_⟩, fun found hfound ↦ ⟨more, hmore, ?_⟩, .inl⟩,
        fun found hfound ↦ ⟨found, hfound, fun hcloned ↦ hcloned⟩⟩
      · obtain rfl := Option.some.inj (htree.symm.trans hfound)
        exact List.subset_cons_self ..
      · obtain rfl := Option.some.inj (hhere.symm.trans hfound)
        exact List.subset_cons_self ..
    have hcloned : tree.cloned = true := hkept.cloned .own tree htree
    have hstands : g.spot.Stands params →
        (g.place { g.spot with tree := some more }).spot.Stands params := by
      rintro ⟨found, hfound, -, hdone⟩
      obtain rfl := Option.some.inj (htree.symm.trans hfound)
      exact ⟨more, rfl, hcloned, fun k hk ↦ List.mem_cons_of_mem _ (hdone k hk)⟩
    refine ⟨⟨hkept.placed, fun name found hfound ↦ ?_, fun k deed hdeed h ↦
      (hgrows i).carries (hkept.applied k deed hdeed h), fun h ↦ hstands (hkept.promoted h),
      fun _ hmarked ↦ ?_, hkept.rows⟩, hgrows, fun _ ↦ ⟨more, hmore, List.mem_cons_self ..⟩⟩
    · cases name with
      | own => exact Option.some.inj hfound ▸ hcloned
      | legacy => exact hkept.cloned .legacy found hfound
    · obtain ⟨hcomplete, hacted⟩ := hkept.built (by rw [htree]; rfl) hmarked
      exact ⟨hstands hcomplete, hacted⟩

theorem brings_reach {objects rev : String} (hP : Lasts params i P) :
    Brings params id i P (reach objects rev) fun _ ↦ P := by
  have hhas : Brings params id i P (ran (call (Command.hasCommit rev))) fun _ ↦ P :=
    brings_ran_same hP (brings_asking rfl hP)
  have hend : Brings params id i P (pure () : Script Unit) fun _ ↦ P := brings_pure hP fun _ _ h ↦ h
  have hobjects : Brings params id i P (ran (call (Command.fetchFrom objects rev)) >>= fun _ ↦
      ran (call (Command.hasCommit rev)) >>= fun has ↦
        if has = true then pure () else throw (baseCommitMissing rev)) fun _ ↦ P := by
    refine brings_bind (brings_ran_same hP (brings_asking rfl hP)) fun _ ↦ brings_bind hhas fun has ↦ ?_
    split
    · exact hend
    · exact brings_throw
  refine brings_bind hhas fun has ↦ ?_
  split
  · exact hend
  · refine brings_bind (brings_asking rfl hP) fun fetched ↦ ?_
    split
    · refine brings_bind hhas fun has ↦ ?_
      split
      · exact hend
      · exact hobjects
    · exact hobjects

theorem brings_checkout {commit : String} (hP : Lasts params i P) :
    Brings params id i P (Checkout params position commit).apply
      fun _ rows g ↦ P rows g ∧ g.spot.Carries position := by
  have hdone : Lasts params i fun rows g ↦ P rows g ∧ g.spot.Carries position :=
    hP.and fun _ _ _ _ _ hgrows _ h ↦ hgrows.carries h
  refine brings_bind (brings_mono (brings_settle hP) (fun _ _ h ↦ h) fun _ _ _ h ↦ h.1) fun _ ↦ ?_
  refine brings_bind (brings_ran_same hP (brings_asking rfl hP)) fun _ ↦ ?_
  refine brings_bind (brings_reach hP) fun _ ↦ ?_
  exact brings_bind (brings_perform hP) fun _ ↦ brings_pure hdone fun _ _ h ↦ h

theorem brings_tool {tool : ToolStep} (hargv : tool.argv ≠ []) (hP : Lasts params i P) :
    Brings params id i P (Tool position tool).apply
      fun _ rows g ↦ P rows g ∧ g.spot.Carries position := by
  have hdone : Lasts params i fun rows g ↦ P rows g ∧ g.spot.Carries position :=
    hP.and fun _ _ _ _ _ hgrows _ h ↦ hgrows.carries h
  refine brings_bind (brings_mono (brings_settle hP) (fun _ _ h ↦ h) fun _ _ _ h ↦ h.1) fun _ ↦ ?_
  rw [if_neg hargv]
  exact brings_bind (brings_perform hP) fun _ ↦ brings_pure hdone fun _ _ h ↦ h

/-- The mark goes where every step before was applied, and not where there is no tree. -/
theorem brings_promote (hP : Lasts params i P)
    (hdone : ∀ rows g, P rows g → ∀ k < (wanted params).length, g.spot.Carries (k + 1))
    (hacted : ∀ rows g, P rows g → Acted rows (last params)) :
    Brings params id i P (Promote params).apply fun _ rows g ↦ P rows g ∧ g.spot.Stands params := by
  have hstood := hP.and (lasts_stands : Lasts params i _)
  refine brings_bind (brings_mono (brings_settle hP) (fun _ _ h ↦ h) fun _ _ _ h ↦ h.1) fun _ ↦ ?_
  have hasked : Brings params id i P (call (Command.isDir .own))
      fun there rows g ↦ P rows g ∧ (there = true → g.spot.Stands params) :=
    brings_call hP (fun _ ↦ hP.and lasts_stands.imp) fun _ rows g hkept h ↦
      ⟨hkept, fun _ _ ↦ Grows.refl, h, fun hthere ↦ hkept.stands hthere (hdone rows g h)⟩
  refine brings_bind hasked fun there ↦ ?_
  cases there with
  | false => exact brings_throw
  | true =>
    refine brings_bind (brings_mono (brings_asking rfl hstood) (fun _ _ h ↦ ⟨h.1, h.2 rfl⟩)
      fun _ _ _ h ↦ h) fun marked ↦ ?_
    cases marked with
    | false => exact brings_pure hstood fun _ _ h ↦ h
    | true =>
      exact brings_bind (brings_unmark hstood fun rows g h ↦ ⟨h.2, hacted rows g h.1⟩) fun _ ↦
        brings_pure hstood fun _ _ h ↦ h

/-! ### Each step undone -/

/-- No tree stands at the name without the mark. -/
def Covered (g : Grounds) : Prop := g.spot.tree = none ∨ g.spot.marked = true

theorem undoes_bind (hx : Undoes params id i P x Q)
    (hf : ∀ value, Undoes params id i (Q value) (f value) T) :
    Undoes params id i P (x >>= f) T :=
  yields_within_bind stable_alone hx hf

theorem undoes_pure {value : β} (h : ∀ rows g, P rows g → Q value rows g) :
    Undoes params id i P (pure value) Q :=
  yields_within_pure stable_alone fun _ hw ↦ ⟨hw.1, h _ _ hw.2⟩

/-- A command that may fail, while nobody else acts. -/
theorem undoes_ran {x : Script (Except String β)} {Q : Except String β → Rows → Grounds → Prop}
    {T : β → Rows → Grounds → Prop} (hx : Undoes params id i P x Q)
    (h : ∀ value rows g, Q (.ok value) rows g → T value rows g) : Undoes params id i P (ran x) T := by
  refine undoes_bind hx fun answer ↦ ?_
  cases answer with
  | ok value => exact undoes_pure (h value)
  | error why => exact yields_within_throw stable_alone fun _ ↦ alone_whatever

/-- A step between the clone and the end has nothing of its own to take back. -/
theorem undo_work {deed : Deed} : (deed.work params position).undo = pure () := by
  cases deed <;> rfl

variable {R : Rows → Prop}

/-- The mark goes back before anything is taken away. -/
theorem undoes_promote : Undoes params id i (fun rows _ ↦ R rows) (Promote params).undo
    fun _ rows g ↦ R rows ∧ Covered g := by
  have hasked : Undoes params id i (fun rows _ ↦ R rows) (call (Command.isDir .own))
      fun there rows g ↦ R rows ∧ (there = false → g.spot.tree = none) := by
    exact undoes_call fun _ rows g hkept h ↦ ⟨hkept, h, fun hthere ↦ at'_of_isDir hthere⟩
  refine undoes_bind hasked fun there ↦ ?_
  cases there with
  | false => exact undoes_pure fun _ _ h ↦ ⟨h.1, .inl (h.2 rfl)⟩
  | true =>
    have hmarked : Undoes params id i (fun rows g ↦ R rows ∧ (true = false → g.spot.tree = none))
        (call Command.marked) fun marked rows g ↦ R rows ∧ (marked = true → g.spot.marked = true) :=
      undoes_call fun _ _ _ hkept h ↦ ⟨hkept, h.1, fun hmarked ↦ hmarked⟩
    refine undoes_bind hmarked fun marked ↦ ?_
    cases marked with
    | true => exact undoes_pure fun _ _ h ↦ ⟨h.1, .inr (h.2 rfl)⟩
    | false =>
      refine undoes_ran (Q := fun answer rows g ↦ R rows ∧ (answer = .ok () → g.spot.marked = true))
        (undoes_call fun choice rows g hkept h ↦ ?_) fun _ _ _ h ↦ ⟨h.1, .inr (h.2 rfl)⟩
      cases choice with
      | ok _ => exact ⟨hkept.remark fun h ↦ (by cases h), h.1, fun _ ↦ rfl⟩
      | error written =>
        obtain ⟨why, made⟩ := written
        exact ⟨hkept.remark fun h ↦ (Bool.or_eq_false_iff.mp h).1, h.1, fun h ↦ (by cases h)⟩

/-- Where no step is called applied and no tree is without the mark, little has to be kept. -/
theorem Kept.bare (hkept : Kept params rows g)
    (hnone : ∀ k ≤ (wanted params).length, ∀ key, ¬Applied rows (k + 1) key)
    (hcovered : Covered g')
    (hcloned : ∀ name tree, g'.spot.at' name = some tree → tree.cloned = true)
    (hrows : g'.rows = g.rows) : Kept params rows g' where
  placed := hkept.placed
  cloned := hcloned
  applied k deed hdeed h := (hnone k (List.getElem?_eq_some_iff.mp hdeed).1.le deed.key h).elim
  promoted h := (hnone _ (Nat.le_refl _) _ h).elim
  built hsome hmarked := by
    rcases hcovered with hnone | hstill
    · rw [hnone] at hsome
      cases hsome
    · rw [hmarked] at hstill
      cases hstill
  rows := hrows ▸ hkept.rows

/-- A tree is taken away where no step is called applied, and only under the mark. -/
theorem undoes_remove
    (hnone : ∀ rows, R rows → ∀ k ≤ (wanted params).length, ∀ key, ¬Applied rows (k + 1) key)
    (name : Name) :
    Undoes params id i (fun rows g ↦ R rows ∧ Covered g) (remove name)
      fun _ rows g ↦ (R rows ∧ Covered g) ∧ g.spot.at' name = none := by
  have hbegun : Undoes params id i (fun rows g ↦ R rows ∧ Covered g) (call (Command.beginRemove name))
      fun _ rows g ↦ R rows ∧ Covered g := by
    refine undoes_call fun choice rows g hkept h ↦ ?_
    have hcovered : Covered (act (Command.beginRemove name) choice g).2 := by
      refine h.2.imp (fun hempty ↦ ?_) fun hmarked ↦ ?_
      · cases name with
        | own =>
          change g.spot.tree.map Tree.torn = none
          rw [hempty]
          rfl
        | legacy => exact hempty
      · cases name <;> exact hmarked
    refine ⟨hkept.bare (hnone rows h.1) hcovered (fun other tree htree ↦ ?_) rfl, h.1, hcovered⟩
    change (g.spot.put _ name).at' other = some tree at htree
    rw [Spot.at'_put] at htree
    split at htree
    · obtain ⟨found, hfound, rfl⟩ := Option.map_eq_some_iff.mp htree
      exact hkept.cloned name found hfound
    · exact hkept.cloned other tree htree
  refine undoes_bind hbegun fun _ ↦ ?_
  refine undoes_ran (Q := fun answer rows g ↦ (R rows ∧ Covered g) ∧
    (answer = .ok () → g.spot.at' name = none)) (undoes_call fun choice rows g hkept h ↦ ?_)
    fun _ _ _ h ↦ ⟨h.1, h.2 rfl⟩
  rcases changed_cases choice _ g with ⟨why, heq⟩ | ⟨after, hafter, heq⟩
  · rw [act, heq]
    exact ⟨hkept, h, fun hok ↦ nomatch hok⟩
  · rw [act, heq]
    obtain rfl := Option.some.inj hafter
    have hcovered : Covered (g.place (g.spot.put none name)) := by
      cases name with
      | own => exact .inl rfl
      | legacy => exact h.2
    refine ⟨hkept.bare (hnone rows h.1) hcovered (fun other tree htree ↦ ?_) rfl, ⟨h.1, hcovered⟩,
      fun _ ↦ by cases name <;> rfl⟩
    change (g.spot.put none name).at' other = some tree at htree
    rw [Spot.at'_put] at htree
    split at htree
    · cases htree
    · exact hkept.cloned other tree htree

/-- The clone's undo takes the tree and then the mark. -/
theorem undoes_materialise
    (hnone : ∀ rows, R rows → ∀ k ≤ (wanted params).length, ∀ key, ¬Applied rows (k + 1) key) :
    Undoes params id i (fun rows g ↦ R rows ∧ Covered g) (Materialise params i).undo
      fun _ rows g ↦ R rows ∧ Covered g := by
  have hsweep : Undoes params id i (fun rows g ↦ R rows ∧ Covered g) (call Command.sweep)
      fun _ rows g ↦ R rows ∧ Covered g :=
    undoes_call fun _ _ _ hkept h ↦
      ⟨⟨hkept.placed, hkept.cloned, hkept.applied, hkept.promoted, hkept.built, hkept.rows⟩, h⟩
  refine undoes_bind hsweep fun _ ↦ ?_
  refine undoes_bind (undoes_remove hnone .legacy) fun _ ↦ ?_
  refine undoes_bind ((undoes_remove (R := R) hnone .own).mono (fun _ hw ↦ ⟨hw.1, hw.2.1⟩)
    fun _ _ hw ↦ hw) fun _ ↦ ?_
  have hmarked : Undoes params id i (fun rows g ↦ (R rows ∧ Covered g) ∧ g.spot.tree = none)
      (call Command.marked) fun _ rows g ↦ (R rows ∧ Covered g) ∧ g.spot.tree = none :=
    undoes_call fun _ _ _ hkept h ↦ ⟨hkept, h⟩
  refine undoes_bind hmarked fun marked ↦ ?_
  cases marked with
  | false => exact undoes_pure fun _ _ h ↦ h.1
  | true =>
    refine undoes_ran (Q := fun _ rows g ↦ R rows ∧ Covered g)
      (undoes_call fun choice rows g hkept h ↦ ?_) fun _ _ _ h ↦ h
    rcases changed_cases choice _ g with ⟨why, heq⟩ | ⟨after, hafter, heq⟩
    · rw [act, heq]
      exact ⟨hkept, h.1⟩
    · rw [act, heq]
      split at hafter
      · obtain rfl := Option.some.inj hafter
        refine ⟨hkept.bare (hnone rows h.1.1) (.inl h.2) (fun name tree htree ↦ ?_) rfl, h.1.1, .inl h.2⟩
        exact hkept.cloned name tree (by cases name <;> exact htree)
      · cases hafter

/-! ### What a statement of the journal leads to -/

section Journal

variable {effect : Effect} {w : Performed Grounds}

/-- A statement of the journal that forgets no step that acted, beside others. -/
theorem held_journal (effect : Effect) {Q : effect.Answer → Rows → Grounds → Prop}
    (hP : Lasts params i P) (hQ : ∀ answer, Lasts params i (Q answer))
    (hstep : ∀ choice w, Kept params (rowsOf id w) w.outside → P (rowsOf id w) w.outside →
      let after := performance.perform i (.journal effect) choice w
      after.2.outside = w.outside ∧ Kept params (rowsOf id after.2) w.outside ∧
      (∀ position, Acted (rowsOf id w) position → Acted (rowsOf id after.2) position) ∧
      Q after.1 (rowsOf id after.2) w.outside) :
    Yields (machine params id) (guarding params id) i (Held id i Whatever) (Held id i P)
      (call (Act.journal effect) : Attempt (Act Command) (Act.Answer Command.Answer) Lifecycle.Error _)
      fun answer ↦ Held id i (Q answer) := by
  refine yields_call_of_inv (stable_held hP) (fun answer ↦ stable_held (hQ answer))
    (fun w hkept hw ↦ ⟨hw.1, fun choice ↦ ?_⟩) fun choice w hkept _ hw ↦ ?_
  · obtain ⟨houtside, hafter, hacted, -⟩ := hstep choice w hkept hw.2
    rw [houtside]
    refine ⟨hafter, rfl, fun hover j _ ↦ ⟨houtside ▸ hover, ?_, hacted⟩⟩
    rw [houtside]
    exact Grows.refl
  · obtain ⟨houtside, -, -, hQ⟩ := hstep choice w hkept hw.2
    change Mine i (performance.perform i (.journal effect) choice w).2 ∧
      Q _ _ (performance.perform i (.journal effect) choice w).2.outside
    rw [Mine, houtside]
    exact ⟨hw.1, hQ⟩

/-- A statement of the journal while nobody else acts. -/
theorem alone_journal (effect : Effect) {Q : effect.Answer → Rows → Grounds → Prop}
    (hstep : ∀ choice w, Kept params (rowsOf id w) w.outside → P (rowsOf id w) w.outside →
      let after := performance.perform i (.journal effect) choice w
      after.2.outside = w.outside ∧ Kept params (rowsOf id after.2) w.outside ∧
      Q after.1 (rowsOf id after.2) w.outside) :
    Yields (machine params id) (guarding params id) i (Alone id i Whatever) (Alone id i P)
      (call (Act.journal effect) : Attempt (Act Command) (Act.Answer Command.Answer) Lifecycle.Error _)
      fun answer ↦ Alone id i (Q answer) := by
  refine yields_call_of_inv stable_alone (fun answer ↦ stable_alone)
    (fun w hkept hw ↦ ⟨.inl hw.1, fun choice ↦ ?_⟩) fun choice w hkept _ hw ↦ ?_
  · obtain ⟨houtside, hafter, -⟩ := hstep choice w hkept hw.2
    rw [houtside]
    exact ⟨hafter, rfl, fun hover ↦ (nomatch hw.1.symm.trans hover)⟩
  · obtain ⟨houtside, -, hQ⟩ := hstep choice w hkept hw.2
    change (performance.perform i (.journal effect) choice w).2.outside.turn = _ ∧
      Q _ _ (performance.perform i (.journal effect) choice w).2.outside
    rw [houtside]
    exact ⟨hw.1, hQ⟩

/-- A statement that writes nothing about a step. -/
def Calm : Effect → Prop
  | .start _ _ | .finish _ _ | .reopen _ | .steps _ => True
  | _ => False

theorem perform_calm (hcalm : Calm effect) (choice : effect.Choice) :
    (performance.perform i (.journal effect) choice w).2.outside = w.outside ∧
      rowsOf id (performance.perform i (.journal effect) choice w).2 = rowsOf id w := by
  cases effect with
  | start _ _ | steps _ => exact ⟨rfl, rfl⟩
  | finish _ _ | reopen _ =>
    dsimp only [Performance.perform, Lifecycle.stated, rowsOf, Lifecycle.perform]
    split <;> exact ⟨rfl, rfl⟩
  | _ => cases hcalm

theorem held_calm (effect : Effect) (hcalm : Calm effect) (hP : Lasts params i P) :
    Yields (machine params id) (guarding params id) i (Held id i Whatever) (Held id i P)
      (call (Act.journal effect) : Attempt (Act Command) (Act.Answer Command.Answer) Lifecycle.Error _)
      fun _ ↦ Held id i P := by
  refine held_journal effect hP (fun _ ↦ hP) fun choice w hkept h ↦ ?_
  obtain ⟨houtside, hrows⟩ := @perform_calm i id effect w hcalm choice
  dsimp only
  rw [hrows]
  exact ⟨houtside, hkept, fun _ hacted ↦ hacted, h⟩

theorem alone_calm (effect : Effect) (hcalm : Calm effect) :
    Yields (machine params id) (guarding params id) i (Alone id i Whatever) (Alone id i P)
      (call (Act.journal effect) : Attempt (Act Command) (Act.Answer Command.Answer) Lifecycle.Error _)
      fun _ ↦ Alone id i P := by
  refine alone_journal effect fun choice w hkept h ↦ ?_
  obtain ⟨houtside, hrows⟩ := @perform_calm i id effect w hcalm choice
  dsimp only
  rw [hrows]
  exact ⟨houtside, hkept, h⟩

/-- The row of a step, written. -/
theorem rowsOf_mark (choice : (Effect.markStep id step).Choice) :
    rowsOf id (performance.perform i (.journal (.markStep id step)) choice w).2 =
      (rowsOf id w).set step.position (Journal.merged step ((rowsOf id w).get? step.position)) :=
  Function.update_self ..

/-- What is written down of a step that is applied, beside others. -/
theorem held_mark {state : StepState} {output : Option Output} {S : Rows → Grounds → Prop}
    (hstate : state.mayHaveActed = true) (hP : Lasts params i P) (hS : Lasts params i S)
    (happlied : state = .applied → ∀ rows g, P rows g →
      (∀ k deed, (wanted params)[k]? = some deed → position = k + 1 → g.spot.Carries (k + 1)) ∧
      (position = last params → g.spot.Stands params))
    (hafter : ∀ rows rows' g, P rows g → (∀ other, Acted rows other → Acted rows' other) →
      Acted rows' position → S rows' g) :
    Yields (machine params id) (guarding params id) i (Held id i Whatever) (Held id i P)
      (operated (deeds params i) (mark id (position, key) state output)) fun _ ↦ Held id i S := by
  refine held_journal (.markStep id ⟨position, key, state, output.filter fun o ↦ !o.isNull⟩)
    hP (fun _ ↦ hS) fun choice w hkept h ↦ ?_
  have hacted : ∀ other, Acted (rowsOf id w) other → Acted ((rowsOf id w).set position
      (Journal.merged ⟨position, key, state, output.filter fun o ↦ !o.isNull⟩
        ((rowsOf id w).get? position))) other := by
    intro other hother
    refine (@acted_set (rowsOf id w) other ⟨position, key, state, _⟩).mpr ?_
    split
    · exact hstate
    · exact hother
  dsimp only
  rw [rowsOf_mark]
  refine ⟨rfl, hkept.mark (fun hstate k deed hdeed hposition ↦
    (happlied hstate _ _ h).1 k deed hdeed hposition) (fun hstate hposition ↦
      (happlied hstate _ _ h).2 hposition) (fun _ ↦ .inl hstate), hacted, hafter _ _ _ h hacted ?_⟩
  refine (@acted_set (rowsOf id w) position ⟨position, key, state, _⟩).mpr ?_
  rw [if_pos rfl]
  exact hstate

end Journal

/-! ### The run, and those after it -/

variable (params) in
/-- What holds where step `k` is next. -/
def Standing (k : ℕ) (g : Grounds) : Prop :=
  (∀ p < (wanted params).length, p + 1 < k → g.spot.Carries (p + 1)) ∧
    (last params < k → g.spot.Stands params)

variable (params) in
/-- What a process read of the journal holds of the tree. -/
def Credits (done : List (ℕ × String)) (g : Grounds) : Prop :=
  (∀ p deed, (wanted params)[p]? = some deed → (p + 1, deed.key) ∈ done → g.spot.Carries (p + 1)) ∧
    ((last params, "promote") ∈ done → g.spot.Stands params)

variable {done : List (ℕ × String)} {work : Work}

theorem spreads_standing : Spreads params fun _ g ↦ Standing params k g :=
  fun _ _ _ _ hkept hgrown _ h ↦ ⟨fun p hp hlt ↦ hgrown.carries (h.1 p hp hlt),
    fun hlast ↦ hgrown.stands hkept (h.2 hlast)⟩

theorem spreads_credits : Spreads params fun _ g ↦ Credits params done g :=
  fun _ _ _ _ hkept hgrown _ h ↦ ⟨fun p deed hdeed hdone ↦ hgrown.carries (h.1 p deed hdeed hdone),
    fun hdone ↦ hgrown.stands hkept (h.2 hdone)⟩

/-- The step at a position: the clone, what is done to the tree there, or the end of the mark. -/
theorem works_cases (h : (works params i)[k]? = some work) :
    (k = 0 ∧ work = Materialise params i) ∨
    (∃ p deed, k = p + 1 ∧ (wanted params)[p]? = some deed ∧ work = deed.work params k) ∨
    (k = last params ∧ work = Promote params) := by
  cases k with
  | zero => exact .inl ⟨rfl, (Option.some.inj h).symm⟩
  | succ p =>
    right
    rw [works, List.cons_append, List.getElem?_cons_succ, List.getElem?_append] at h
    rw [List.length_map, List.length_zipIdx] at h
    split at h
    · rw [List.getElem?_map, List.getElem?_zipIdx, Option.map_map] at h
      obtain ⟨deed, hdeed, rfl⟩ := Option.map_eq_some_iff.mp h
      refine .inl ⟨p, deed, rfl, hdeed, ?_⟩
      rw [Nat.add_comm p 1]
      rfl
    · next hlong =>
      rw [List.getElem?_singleton] at h
      split at h
      · refine .inr ⟨?_, (Option.some.inj h).symm⟩
        rw [last]
        omega
      · cases h

/-- What is done to the tree is not done by running nothing. -/
theorem argv_of_wanted {tool : ToolStep} (h : Deed.tool tool ∈ wanted params) : tool.argv ≠ [] := by
  rcases List.mem_cons.mp h with hfirst | hmem
  · cases hfirst
  · obtain ⟨found, hfound, heq⟩ := List.mem_map.mp hmem
    obtain rfl := Deed.tool.inj heq
    simpa using (List.mem_filter.mp hfound).2

/-- What applies one step leads to where the next is due. -/
theorem brings_apply (h : (works params i)[k]? = some work) :
    Brings params id i (fun rows g ↦ (Standing params k g ∧ Credits params done g) ∧ Acted rows k)
      work.apply fun _ _ g ↦ Standing params (k + 1) g ∧ Credits params done g := by
  have hP : Lasts params i fun rows g ↦ (Standing params k g ∧ Credits params done g) ∧ Acted rows k :=
    (spreads_standing.lasts.and spreads_credits.lasts).and lasts_acted
  rcases works_cases h with ⟨rfl, rfl⟩ | ⟨p, deed, rfl, hdeed, rfl⟩ | ⟨rfl, rfl⟩
  · refine brings_mono (brings_materialise spreads_credits) (fun _ _ h ↦ h.1.2) fun _ _ _ h ↦
      ⟨⟨fun p _ hlt ↦ ?_, fun hlast ↦ ?_⟩, h⟩
    · omega
    · rw [last] at hlast
      omega
  · have hnext {rows : Rows} {g : Grounds}
        (h : ((Standing params (p + 1) g ∧ Credits params done g) ∧ Acted rows (p + 1)) ∧
          g.spot.Carries (p + 1)) : Standing params (p + 1 + 1) g ∧ Credits params done g := by
      have hlt : p < (wanted params).length := (List.getElem?_eq_some_iff.mp hdeed).1
      refine ⟨⟨fun q hq hlt ↦ ?_, fun hlast ↦ ?_⟩, h.1.1.2⟩
      · rcases Nat.lt_or_eq_of_le (Nat.lt_succ_iff.mp hlt) with hbefore | heq
        · exact h.1.1.1.1 q hq hbefore
        · exact heq ▸ h.2
      · rw [last] at hlast
        omega
    cases deed with
    | checkout commit =>
      exact brings_mono (brings_checkout hP) (fun _ _ h ↦ h) fun _ _ _ h ↦ hnext h
    | tool tool =>
      exact brings_mono (brings_tool (argv_of_wanted (List.mem_of_getElem? hdeed)) hP) (fun _ _ h ↦ h)
        fun _ _ _ h ↦ hnext h
  · refine brings_mono (brings_promote hP (fun rows g h p hp ↦ h.1.1.1 p hp ?_) fun rows g h ↦ h.2)
      (fun _ _ h ↦ h) fun _ _ _ h ↦ ⟨⟨fun p hp _ ↦ h.1.1.1.1 p hp ?_, fun _ ↦ h.2⟩, h.1.1.2⟩
    all_goals
      rw [last]
      omega

variable {kind : String} {outputs : Outputs} {step' : Step}

/-- A function of the runner leads from an assertion to another, or ends with an error. -/
abbrev Runs (params : Params) (id : OperationId) (i : Process) (P : Rows → Grounds → Prop) (x : Run β)
    (Q : β → Rows → Grounds → Prop) : Prop :=
  Yields (machine params id) (guarding params id) i (Held id i Whatever) (Held id i P)
    (operated (deeds params i) x) fun value ↦ Held id i (Q value)

/-- What holds where step `k` is next, with what the journal was read to say. -/
def Due (params : Params) (done : List (ℕ × String)) (k : ℕ) : Rows → Grounds → Prop :=
  fun _ g ↦ Standing params k g ∧ Credits params done g

theorem lasts_due : Lasts params i (Due params done k) :=
  spreads_standing.lasts.and spreads_credits.lasts

theorem step_of_plan (i : Process) (h : (plan params).steps[k]? = some step') :
    ∃ work, (works params i)[k]? = some work ∧ step'.key = work.key := by
  rw [steps_eq_works params i, List.getElem?_map] at h
  obtain ⟨work, hwork, rfl⟩ := Option.map_eq_some_iff.mp h
  exact ⟨work, hwork, rfl⟩

/-- Each step in its place. -/
theorem leads {step : Step} (h : (plan params).steps[k]? = some step) :
    Leads (machine params id) (guarding params id) i (Held id i Whatever) (deeds params i) id step k
      (Held id i (Due params done k)) (Held id i fun rows g ↦ Due params done k rows g ∧ Acted rows k)
      (Held id i (Due params done (k + 1))) (Held id i (Due params done (k + 1))) := by
  obtain ⟨work, hwork, -⟩ := step_of_plan i h
  refine ⟨?_, ?_, fun output ↦ ?_⟩
  · exact held_mark rfl lasts_due (lasts_due.and lasts_acted) (fun h ↦ nomatch h)
      fun _ _ _ h _ hacted ↦ ⟨h, hacted⟩
  · have happly : (deeds params i).apply k = (work.apply).run := by
      dsimp only [deeds]
      rw [hwork]
      rfl
    change Yields _ _ _ _ _ (ExceptT.mk (outside ((deeds params i).apply k) >>= fun answer ↦
      .done (Except.ok answer))) _
    rw [happly]
    have hbrings : Brings params id i (fun rows g ↦ Due params done k rows g ∧ Acted rows k) work.apply
        fun _ ↦ Due params done (k + 1) := brings_apply hwork
    exact (yields_looked hbrings).mono (fun _ h ↦ h) fun answer w h ↦ by cases answer <;> exact h
  · refine held_mark rfl lasts_due lasts_due (fun _ _ g h ↦ ⟨fun p deed hdeed hp ↦ ?_, fun hlast ↦ ?_⟩)
      fun _ _ _ h _ _ ↦ h
    · exact h.1.1 p (List.getElem?_eq_some_iff.mp hdeed).1 (by omega)
    · exact h.1.2 (by omega)

/-- A step the journal calls applied is passed over. -/
theorem due_skip {step : Step} {rows : Rows} {g : Grounds} (hstep : (plan params).steps[k]? = some step)
    (hdone : (k, step.key) ∈ done) (h : Due params done k rows g) : Due params done (k + 1) rows g := by
  obtain ⟨work, hwork, hkey⟩ := step_of_plan ⟨⟨"", 0⟩, 0⟩ hstep
  obtain ⟨⟨hcarries, hstands⟩, hcredits⟩ := h
  rw [hkey] at hdone
  refine ⟨?_, hcredits⟩
  rcases works_cases hwork with ⟨rfl, rfl⟩ | ⟨p, deed, rfl, hdeed, rfl⟩ | ⟨rfl, rfl⟩
  · refine ⟨fun p _ hlt ↦ by omega, fun hlast ↦ ?_⟩
    rw [last] at hlast
    omega
  · have hlt : p < (wanted params).length := (List.getElem?_eq_some_iff.mp hdeed).1
    have hkey : (deed.work params (p + 1)).key = deed.key := by cases deed <;> rfl
    rw [hkey] at hdone
    refine ⟨fun q hq hlt ↦ ?_, fun hlast ↦ ?_⟩
    · rcases Nat.lt_or_eq_of_le (Nat.lt_succ_iff.mp hlt) with hbefore | heq
      · exact hcarries q hq hbefore
      · exact heq ▸ hcredits.1 p deed hdeed hdone
    · rw [last] at hlast
      omega
  · refine ⟨fun p hp _ ↦ hcarries p hp ?_, fun _ ↦ hcredits.2 hdone⟩
    rw [last]
    omega

theorem length_plan : (plan params).steps.length = last params + 1 := by
  simp [plan, last]

/-- All the steps that are not done, one after the other. -/
theorem runs_applySteps {failing : ℕ × String → Lifecycle.Error → Run Unit}
    (hfailing : ∀ step why, Runs params id i Whatever (failing step why) fun _ ↦ Whatever)
    {applied : List String} :
    Runs params id i (Due params done 0)
      (applySteps id kind done failing (plan params).positioned outputs applied)
      fun _ ↦ Due params done (last params + 1) := by
  have hsteps := @yields_applyPlan _ _ _ _ _ _ (machine params id) (guarding params id) i
    (Held id i Whatever) (deeds params i) id (fun k ↦ Held id i (Due params done k))
    (fun k ↦ Held id i fun rows g ↦ Due params done k rows g ∧ Acted rows k)
    (fun k ↦ Held id i (Due params done (k + 1))) (plan params) kind done failing stable_whatever
    (fun _ ↦ stable_held lasts_due) hfailing (fun _ _ ↦ leads)
    (fun _ _ hstep hdone _ hw ↦ ⟨hw.1, due_skip hstep hdone hw.2⟩) outputs applied
  rwa [length_plan] at hsteps

variable {y : Run β}

theorem runs_bind {Q : β → Rows → Grounds → Prop} {f : β → Run γ} (hy : Runs params id i P y Q)
    (hf : ∀ value, Runs params id i (Q value) (f value) T) : Runs params id i P (y >>= f) T :=
  yields_operated_bind stable_whatever hy hf

theorem runs_pure {value : β} (hQ : Lasts params i (Q value)) (h : ∀ rows g, P rows g → Q value rows g) :
    Runs params id i P (pure value) Q :=
  yields_operated_pure (stable_held hQ) fun _ hw ↦ ⟨hw.1, h _ _ hw.2⟩

theorem runs_throw {why : Lifecycle.Error} : Runs params id i P (throw why : Run β) Q :=
  yields_operated_throw stable_whatever fun _ ↦ held_whatever

theorem runs_close {state : State} : Runs params id i Whatever (close id kind state) fun _ ↦ Whatever := by
  refine runs_bind (held_calm (.finish id state) trivial lasts_whatever) fun changed ↦ ?_
  split
  · exact runs_pure lasts_whatever fun _ _ h ↦ h
  · exact runs_throw

/-- A failure is written down and the run closed. -/
theorem runs_keep {step : ℕ × String} {why : Lifecycle.Error} :
    Runs params id i Whatever (keep id step why) fun _ ↦ Whatever :=
  runs_bind (held_mark rfl lasts_whatever lasts_whatever (fun h ↦ nomatch h) fun _ _ _ _ _ _ ↦ trivial)
    fun _ ↦ runs_close

/-- What a process reads of the journal holds of the tree. -/
theorem runs_appliedKeys : Runs params id i Whatever (appliedKeys id) fun done ↦ Due params done 0 := by
  have hread : Runs params id i Whatever (call (Effect.steps id)) fun (steps : List StepRecord) _ g ↦
      Credits params
        ((steps.filter fun step ↦ step.state = .applied).map fun step ↦ (step.position, step.key)) g := by
    refine held_journal (.steps id) lasts_whatever (fun _ ↦ spreads_credits.lasts) fun choice w hkept _ ↦
      ⟨rfl, hkept, fun _ h ↦ h, ?_⟩
    have hcalled {position : ℕ} {key : String} (h : (position, key) ∈ ((rowsOf id w).values.filter
        fun step ↦ step.state = .applied).map fun step ↦ (step.position, step.key)) :
        Applied (rowsOf id w) position key := by
      obtain ⟨row, hrow, heq⟩ := List.mem_map.mp h
      obtain ⟨hmem, hstate⟩ := List.mem_filter.mp hrow
      obtain ⟨found, hfound⟩ := Table.mem_values_iff.mp hmem
      obtain ⟨hposition, hkey⟩ := Prod.mk.inj heq
      rw [← hposition, hkept.placed found row hfound]
      exact ⟨row, hfound, of_decide_eq_true hstate, hkey⟩
    exact ⟨fun p deed hdeed h ↦ hkept.applied p deed hdeed (hcalled h),
      fun h ↦ hkept.promoted (hcalled h)⟩
  refine runs_bind hread fun steps ↦ runs_pure lasts_due fun _ _ h ↦ ⟨⟨fun p _ hlt ↦ ?_, fun hlast ↦ ?_⟩, h⟩
  · omega
  · omega

theorem runs_journalOutputs (hP : Lasts params i P) :
    Runs params id i P (journalOutputs id) fun _ ↦ P :=
  runs_bind (held_calm (.steps id) trivial hP) fun _ ↦ runs_pure hP fun _ _ h ↦ h

/-- A row is written where a complete tree stands. -/
theorem runs_commit : Runs params id i (fun _ g ↦ g.spot.Stands params) (commit id (plan params) outputs)
    fun _ ↦ Whatever := by
  have hcall : Runs params id i (fun _ g ↦ g.spot.Stands params)
      (call (Effect.commit id (plan params).kind outputs)) fun _ ↦ Whatever := by
    have hafter (choice : Except String Output) (w : Performed Grounds)
        (hkept : Kept params (rowsOf id w) w.outside) (hstands : w.outside.spot.Stands params) :
        let after := (committing performance i id (plan params).kind outputs choice w).2
        Kept params (rowsOf id after) after.outside ∧ after.outside.turn = w.outside.turn ∧
          ∀ j, Grows j w.outside after.outside ∧ rowsOf id after = rowsOf id w := by
      rcases committing_cases performance i id (plan params).kind outputs choice w with
        ⟨why, heq⟩ | ⟨output, g, hregister, hopen, heq⟩
      · rw [heq]
        exact ⟨hkept, rfl, fun j ↦ ⟨Grows.refl, rfl⟩⟩
      · obtain ⟨rfl, rfl⟩ := Prod.mk.inj (Except.ok.inj hregister)
        have hrows : (Lifecycle.perform i (.commit id (plan params).kind outputs) (.ok nothing)
            w.journal).2.journal.steps id = w.journal.journal.steps id := by
          simp only [Lifecycle.perform, hopen, if_true]
          rfl
        rw [heq]
        dsimp only [rowsOf]
        rw [hrows]
        refine ⟨⟨hkept.placed, hkept.cloned, hkept.applied, hkept.promoted, hkept.built, ?_⟩, rfl, fun j ↦
          ⟨⟨grown_of_spot rfl, fun found h ↦ ⟨found, h, fun hcloned ↦ hcloned⟩⟩, rfl⟩⟩
        exact List.forall_mem_cons.mpr ⟨hstands, hkept.rows⟩
    refine yields_call_of_inv (stable_held lasts_stands) (fun _ ↦ stable_whatever) (fun w hkept hw ↦
      ⟨hw.1, fun choice ↦ ?_⟩) fun choice w hkept _ hw ↦ ?_
    · obtain ⟨hkept', hturn, hgrows⟩ := hafter choice w hkept hw.2
      exact ⟨hkept', hturn, fun hover j _ ↦ ⟨hturn.trans hover, (hgrows j).1,
        fun _ h ↦ (hgrows j).2.symm ▸ h⟩⟩
    · obtain ⟨-, hturn, -⟩ := hafter choice w hkept hw.2
      exact ⟨hw.1.imp hturn.trans hturn.trans, trivial⟩
  refine runs_bind hcall fun committed ↦ ?_
  cases committed with
  | ok output => exact runs_pure lasts_whatever fun _ _ h ↦ h
  | error why => exact runs_throw

/-- What is left of a run is finished, wherever its process died. -/
theorem runs_resume : Runs params id i Whatever (resume id (plan params)) fun _ ↦ Whatever := by
  refine runs_bind runs_appliedKeys fun done ↦ runs_bind (runs_journalOutputs lasts_due) fun outputs ↦ ?_
  refine runs_bind (runs_applySteps fun _ _ ↦ runs_pure lasts_whatever fun _ _ h ↦ h) fun result ↦ ?_
  obtain ⟨outputs, applied⟩ := result
  refine runs_bind (runs_commit.mono (fun _ hw ↦ ⟨hw.1, hw.2.1.2 (Nat.lt_succ_self _)⟩) fun _ _ h ↦ h)
    fun _ ↦ runs_pure lasts_whatever fun _ _ h ↦ h

/-- A run a step failed in is carried on with. -/
theorem runs_retry : Runs params id i Whatever (retry id (plan params)) fun _ ↦ Whatever := by
  have hreopen : Runs params id i Whatever (reopen id (plan params).kind) fun _ ↦ Whatever := by
    refine runs_bind (held_calm (.reopen id) trivial lasts_whatever) fun changed ↦ ?_
    split
    · exact runs_pure lasts_whatever fun _ _ h ↦ h
    · exact runs_throw
  refine runs_bind hreopen fun _ ↦ runs_bind runs_appliedKeys fun done ↦ ?_
  refine runs_bind (runs_journalOutputs lasts_due) fun outputs ↦ ?_
  refine runs_bind (runs_applySteps fun _ _ ↦ runs_keep) fun result ↦ ?_
  obtain ⟨outputs, applied⟩ := result
  refine runs_bind (runs_commit.mono (fun _ hw ↦ ⟨hw.1, hw.2.1.2 (Nat.lt_succ_self _)⟩) fun _ _ h ↦ h)
    fun _ ↦ runs_pure lasts_whatever fun _ _ h ↦ h

/-! ### The run alone -/

/-- A function of the runner while nobody else acts. -/
abbrev RunsAlone (params : Params) (id : OperationId) (i : Process) (P : Rows → Grounds → Prop) (x : Run β)
    (Q : β → Rows → Grounds → Prop) : Prop :=
  Yields (machine params id) (guarding params id) i (Alone id i Whatever) (Alone id i P)
    (operated (deeds params i) x) fun value ↦ Alone id i (Q value)

theorem turn_perform {w : Performed Grounds} (effect : Act Command) (choice : effect.Choice Command.Choice) :
    (performance.perform i effect choice w).2.outside.turn = w.outside.turn := by
  cases effect with
  | outside command => exact turn_act choice
  | journal effect =>
    cases effect with
    | commit other kind outputs =>
      change (committing performance i other kind outputs choice w).2.outside.turn = w.outside.turn
      rcases committing_cases performance i other kind outputs choice w with
        ⟨why, heq⟩ | ⟨output, g, hregister, -, heq⟩
      · rw [heq]
      · rw [heq]
        obtain ⟨rfl, rfl⟩ := Prod.mk.inj (Except.ok.inj hregister)
        rfl
    | _ => rfl

/-- What holds beside others holds alone. -/
theorem runs_alone {Q : β → Rows → Grounds → Prop} (hy : Runs params id i P y Q) :
    RunsAlone params id i P y Q := by
  have hframed := yields_frame (H := fun w ↦ w.outside.turn = .of i)
    (fun w w' hrely hturn ↦ by
      obtain ⟨houtside, -⟩ := hrely.1 hturn
      rw [houtside]
      exact hturn)
    (fun effect choice w hturn ↦ (turn_perform effect choice).trans hturn) hy
  rintro w ⟨hturn, hP⟩
  refine (hframed w ⟨⟨.inl hturn, hP⟩, hturn⟩).mono fun result t hresult ↦ ?_
  cases result with
  | ok value => exact ⟨hresult.2, hresult.1.2⟩
  | error why => exact ⟨hresult.2, trivial⟩

variable {acted : List StepRecord}

theorem runsAlone_bind {Q : β → Rows → Grounds → Prop} {f : β → Run γ} (hy : RunsAlone params id i P y Q)
    (hf : ∀ value, RunsAlone params id i (Q value) (f value) T) : RunsAlone params id i P (y >>= f) T :=
  yields_operated_bind stable_alone hy hf

/-- What holds where the steps before `k` are still to be undone: none from there on is called applied, and
the mark is back once the last is undone. -/
def Left (params : Params) (acted : List StepRecord) (k : ℕ) (rows : Rows) (g : Grounds) : Prop :=
  (∀ p, k ≤ p → p ≤ last params → ∀ key, ¬Applied rows p key) ∧ (k ≤ last params → Covered g) ∧
    (∀ p < k, ∀ key, Applied rows p key → ∃ row ∈ acted, row.position = p) ∧
    (k = last params + 1 → g.spot.tree.isSome → g.spot.marked = false →
      ∃ row ∈ acted, row.position = last params)

/-- What holds where step `k` was undone and that is not written down. -/
def Undone (params : Params) (acted : List StepRecord) (k : ℕ) (rows : Rows) : Prop :=
  (∀ p, k < p → p ≤ last params → ∀ key, ¬Applied rows p key) ∧
    ∀ p < k, ∀ key, Applied rows p key → ∃ row ∈ acted, row.position = p

theorem Left.undone {rows : Rows} {g : Grounds} (h : Left params acted (k + 1) rows g) :
    Undone params acted k rows :=
  ⟨fun p hp ↦ h.1 p hp, fun p hp ↦ h.2.2.1 p (Nat.lt_succ_of_lt hp)⟩

/-- What is read of the steps that acted: the last one is among them where a tree has no mark. -/
theorem runsAlone_acted : RunsAlone params id i Whatever (actedPositions id)
    fun acted ↦ Left params acted (last params + 1) := by
  have hread : RunsAlone params id i Whatever (call (Effect.steps id)) fun (steps : List StepRecord) rows g ↦
      Left params (steps.filter fun step ↦ step.state.mayHaveActed) (last params + 1) rows g := by
    refine alone_journal (.steps id) fun choice w hkept _ ↦ ⟨rfl, hkept, ?_⟩
    have hfound {position : ℕ} (h : Acted (rowsOf id w) position) :
        ∃ row ∈ (rowsOf id w).values.filter fun step ↦ step.state.mayHaveActed, row.position = position := by
      obtain ⟨row, hrow, hstate⟩ := h
      exact ⟨row, List.mem_filter.mpr ⟨Table.mem_values_iff.mpr ⟨position, hrow⟩, hstate⟩,
        hkept.placed position row hrow⟩
    refine ⟨fun p hp hlast ↦ by omega, fun h ↦ by omega, fun p _ key h ↦ ?_, fun _ hsome hmarked ↦ ?_⟩
    · obtain ⟨row, hrow, hstate, -⟩ := h
      exact hfound ⟨row, hrow, by rw [hstate]; rfl⟩
    · exact hfound (hkept.built hsome hmarked).2
  exact runsAlone_bind hread fun steps ↦ yields_operated_pure stable_alone fun _ h ↦ h

/-- Each step undone in its place. -/
theorem undoes_step {step : Step} (h : (plan params).steps[k]? = some step) :
    Yields (machine params id) (guarding params id) i (Alone id i Whatever)
      (Alone id i (Left params acted (k + 1))) (operated (deeds params i) (undo id k)) fun answer w ↦
        match answer with
        | .ok _ => Alone id i (fun rows g ↦ Undone params acted k rows ∧ Covered g) w
        | .error _ => Alone id i Whatever w := by
  obtain ⟨work, hwork, -⟩ := step_of_plan i h
  have hundo : (deeds params i).undo k = (work.undo).run := by
    dsimp only [deeds]
    rw [hwork]
    rfl
  change Yields _ _ _ _ _ (ExceptT.mk (outside ((deeds params i).undo k) >>= fun answer ↦
    .done (Except.ok answer))) _
  rw [hundo]
  have hundoes : Undoes params id i (Left params acted (k + 1)) work.undo
      fun _ rows g ↦ Undone params acted k rows ∧ Covered g := by
    have hlt : k < last params + 1 := by
      rw [← length_plan]
      exact (List.getElem?_eq_some_iff.mp h).1
    rcases works_cases hwork with ⟨rfl, rfl⟩ | ⟨p, deed, rfl, hdeed, rfl⟩ | ⟨rfl, rfl⟩
    · refine (undoes_materialise (R := Undone params acted 0) fun rows hrows p hp key ↦ ?_).mono
        (fun _ hw ↦ ⟨hw.1, hw.2.undone, hw.2.2.1 ?_⟩) fun _ _ h ↦ h
      · refine hrows.1 (p + 1) (Nat.succ_pos p) ?_ key
        rw [last]
        omega
      · rw [last]
        omega
    · rw [undo_work]
      refine undoes_pure fun rows g h ↦ ⟨h.undone, h.2.1 ?_⟩
      have := (List.getElem?_eq_some_iff.mp hdeed).1
      rw [last]
      omega
    · exact (undoes_promote (R := Undone params acted (last params))).mono
        (fun _ hw ↦ ⟨hw.1, hw.2.undone⟩) fun _ _ h ↦ h
  exact (yields_looked hundoes).mono (fun _ h ↦ h) fun answer w h ↦ by cases answer <;> exact h

/-- A step that was undone is no longer called applied. -/
theorem runsAlone_undone : RunsAlone params id i (fun rows g ↦ Undone params acted k rows ∧ Covered g)
    (mark id (k, key) .undone none) fun _ ↦ Left params acted k := by
  refine alone_journal (.markStep id ⟨k, key, .undone, none⟩) fun choice w hkept h ↦ ?_
  obtain ⟨⟨hlater, hearlier⟩, hcovered⟩ := h
  dsimp only
  rw [rowsOf_mark]
  have hcalled {p : ℕ} {key' : String} (h : Applied ((rowsOf id w).set k
      (Journal.merged ⟨k, key, .undone, none⟩ ((rowsOf id w).get? k))) p key') :
      p ≠ k ∧ Applied (rowsOf id w) p key' := by
    have hset := (@applied_set (rowsOf id w) p key' ⟨k, key, .undone, none⟩).mp h
    split at hset
    · exact nomatch hset.1
    · next hne => exact ⟨hne, hset⟩
  refine ⟨rfl, hkept.mark (fun h ↦ nomatch h) (fun h ↦ nomatch h) (fun _ ↦ .inr hcovered),
    fun p hp hlast key' h ↦ ?_, fun _ ↦ hcovered, fun p hp key' h ↦ hearlier p hp key' (hcalled h).2,
    fun _ hsome hmarked ↦ ?_⟩
  · obtain ⟨hne, happlied⟩ := hcalled h
    exact hlater p (by omega) hlast key' happlied
  · rcases hcovered with hnone | hstill
    · rw [hnone] at hsome
      cases hsome
    · rw [hmarked] at hstill
      cases hstill

/-- A step that did not act is not called applied, and its mark was never taken off. -/
theorem Left.skip {rows : Rows} {g : Grounds} (hk : k ≤ last params)
    (hacted : ¬∃ row ∈ acted, row.position = k) (h : Left params acted (k + 1) rows g) :
    Left params acted k rows g := by
  obtain ⟨hlater, hcovered, hearlier, hlast⟩ := h
  refine ⟨fun p hp hle key happlied ↦ ?_, fun _ ↦ ?_, fun p hp ↦ hearlier p (Nat.lt_succ_of_lt hp),
    fun heq ↦ by omega⟩
  · rcases Nat.eq_or_lt_of_le hp with heq | hlt
    · exact hacted (heq ▸ hearlier p (by omega) key happlied)
    · exact hlater p hlt hle key happlied
  · rcases Nat.lt_or_eq_of_le hk with hlt | heq
    · exact hcovered hlt
    · cases htree : g.spot.tree with
      | none => exact .inl htree
      | some tree =>
        cases hmarked : g.spot.marked with
        | true => exact .inr hmarked
        | false => exact (hacted (heq ▸ hlast (by omega) (by rw [htree]; rfl) hmarked)).elim

theorem runsAlone_close {state : State} :
    RunsAlone params id i Whatever (close id kind state) fun _ ↦ Whatever :=
  runs_alone runs_close

/-- What a failing run applied is undone, as far as that goes. -/
theorem runsAlone_undoApplied :
    RunsAlone params id i Whatever (undoApplied id (plan params)) fun _ ↦ Whatever := by
  have hsteps : RunsAlone params id i Whatever (undoSteps id (plan params)) fun _ ↦ Whatever := by
    refine runsAlone_bind runsAlone_acted fun acted ↦ ?_
    have heach := @yields_undoEach _ _ _ _ _ _ (machine params id) (guarding params id) i
      (Alone id i Whatever) (deeds params i) id (fun k ↦ Alone id i (Left params acted k))
      (fun k ↦ Alone id i fun rows g ↦ Undone params acted k rows ∧ Covered g) acted stable_alone
      stable_alone (plan params).steps (fun _ _ ↦ undoes_step) (fun _ _ _ ↦ runsAlone_undone)
      (fun k step hstep hacted w hw ↦ ⟨hw.1, hw.2.skip (by
        have := (List.getElem?_eq_some_iff.mp hstep).1
        rw [length_plan] at this
        omega) hacted⟩) []
    rw [length_plan] at heach
    exact heach.mono (fun _ h ↦ h) fun result w h ↦ by cases result <;> exact alone_whatever h
  refine runsAlone_bind hsteps fun result ↦ ?_
  cases result with
  | all keys => exact runsAlone_close
  | stopped key why =>
    exact runsAlone_bind runsAlone_close fun _ ↦
      yields_operated_throw stable_alone fun _ ↦ alone_whatever

/-- A run, wherever it stops. -/
theorem runsAlone_run : RunsAlone params id i Whatever (run id (plan params)) fun _ ↦ Whatever := by
  refine runsAlone_bind (alone_calm (.start id (plan params)) trivial) fun _ ↦ ?_
  change RunsAlone params id i Whatever (applySteps id (plan params).kind [] (failedRun id (plan params))
    (plan params).positioned Outputs.new [] >>= _) _
  have hfirst : Runs params id i Whatever (applySteps id (plan params).kind [] (failedRun id (plan params))
      (plan params).positioned Outputs.new []) fun _ ↦ Due params [] (last params + 1) := by
    refine (runs_applySteps fun step why ↦ ?_).mono (fun w hw ↦ ⟨hw.1, ⟨fun p _ hlt ↦ by omega,
      fun h ↦ by omega⟩, ?_⟩) fun _ _ h ↦ h
    · exact runs_keep
    · exact ⟨fun _ _ _ h ↦ (List.not_mem_nil h).elim, fun h ↦ (List.not_mem_nil h).elim⟩
  refine runsAlone_bind (runs_alone hfirst) fun result ↦ ?_
  obtain ⟨outputs, applied⟩ := result
  have hcommit : RunsAlone params id i (Due params [] (last params + 1)) (commit id (plan params) outputs)
      fun _ ↦ Whatever :=
    runs_alone (runs_commit.mono (fun _ hw ↦ ⟨hw.1, hw.2.1.2 (Nat.lt_succ_self _)⟩) fun _ _ h ↦ h)
  refine yields_operated_bind stable_alone (yields_outcome hcommit) fun result ↦ ?_
  cases result with
  | ok committed => exact yields_operated_pure stable_alone fun _ ↦ alone_whatever
  | error source =>
    exact runsAlone_bind runsAlone_undoApplied fun _ ↦
      yields_operated_throw stable_alone fun _ ↦ alone_whatever

/-! ### The processes -/

/-- Whoever enters keeps the contract. -/
theorem safe_programOf {process : Process} {job : Job} {w w' : Performed Grounds}
    (henter : enter process job w = some w') :
    Safe (machine params id) (guarding params id) process (fun _ _ ↦ True)
      (programOf params id process job) w' := by
  unfold enter at henter
  split at henter
  · cases job with
    | run =>
      dsimp only at henter
      split at henter
      · obtain rfl := Option.some.inj henter
        exact safe_map ((runsAlone_run _ ⟨rfl, trivial⟩).mono fun _ _ _ ↦ trivial)
      · cases henter
    | resume =>
      dsimp only at henter
      split at henter
      · next hover =>
        obtain rfl := Option.some.inj henter
        refine safe_map ((runs_resume _ ?_).mono fun _ _ _ ↦ trivial)
        exact ⟨.inr hover, trivial⟩
      · cases henter
    | retry =>
      dsimp only at henter
      split at henter
      · next hover =>
        obtain rfl := Option.some.inj henter
        refine safe_map ((runs_retry _ ?_).mono fun _ _ _ ↦ trivial)
        exact ⟨.inr hover, trivial⟩
      · cases henter
  · cases henter

/-- Who enters begins the run, or finds it over. -/
theorem enter_cases {process : Process} {job : Job} {w w' : Performed Grounds}
    (henter : enter process job w = some w') : w'.journal.journal = w.journal.journal ∧
      ((w.outside.turn = .before ∧ w'.outside = { w.outside with turn := .of process }) ∨
        w'.outside = w.outside) := by
  unfold enter at henter
  split at henter
  · cases job with
    | run =>
      dsimp only at henter
      split at henter
      · next hbefore =>
        obtain rfl := Option.some.inj henter
        exact ⟨rfl, .inl ⟨hbefore, rfl⟩⟩
      · cases henter
    | resume | retry =>
      dsimp only at henter
      split at henter
      · obtain rfl := Option.some.inj henter
        exact ⟨rfl, .inr rfl⟩
      · cases henter
  · cases henter

theorem Kept.turn {turn : Turn} (hkept : Kept params rows g) : Kept params rows { g with turn } :=
  ⟨hkept.placed, hkept.cloned, hkept.applied, hkept.promoted, hkept.built, hkept.rows⟩

/-- The processes of a build keep the contract, in any order and wherever they are killed. -/
theorem sound_guarding :
    Sound (machine params id) (guarding params id) (fun _ _ _ ↦ True) (fun _ _ ↦ True) where
  assume _ _ := trivial
  act {c i choice effect rest} _ _ _ hpre := by
    obtain ⟨hmine, hafter⟩ := hpre
    obtain ⟨hkept, -, hbeside⟩ := hafter (choice effect)
    refine ⟨hkept, fun j p hj _ ↦ .inl ⟨fun hturn ↦ ?_, fun hover ↦ hbeside hover j hj⟩⟩
    rcases hmine with hown | hover
    · exact (hj (Turn.of.inj (hturn.symm.trans hown))).elim
    · exact nomatch hturn.symm.trans hover
  enter {c i job world} _ _ hworld hinv := by
    obtain ⟨hjournal, houtside⟩ := enter_cases hworld
    have hrows : rowsOf id world = rowsOf id c.world := by rw [rowsOf, rowsOf, hjournal]
    refine ⟨?_, safe_programOf hworld, fun j p _ _ ↦ .inl ?_⟩
    · change Kept params (rowsOf id world) world.outside
      rw [hrows]
      rcases houtside with ⟨-, heq⟩ | heq
      · exact heq ▸ hinv.turn
      · exact heq ▸ hinv
    · rcases houtside with ⟨hbefore, -⟩ | heq
      · exact ⟨fun hturn ↦ (nomatch hbefore.symm.trans hturn),
          fun hover ↦ (nomatch hbefore.symm.trans hover)⟩
      · refine ⟨fun _ ↦ ⟨heq, hrows⟩, fun hover ↦ ⟨heq ▸ hover, heq ▸ Grows.refl, fun _ h ↦ hrows ▸ h⟩⟩
  leave {c i p} _ _ hinv := by
    have hrows : rowsOf id (leave i c.world) = rowsOf id c.world := rfl
    have hleft : (leave i c.world).outside = if c.world.outside.turn = .of i then
        { c.world.outside with turn := .over } else c.world.outside := rfl
    refine ⟨?_, fun j q hj _ ↦ .inl ⟨fun hturn ↦ ?_, fun hover ↦ ?_⟩⟩
    · change Kept params (rowsOf id (leave i c.world)) (leave i c.world).outside
      rw [hrows, hleft]
      split
      · exact Kept.turn hinv
      · exact hinv
    · refine ⟨?_, hrows⟩
      change (leave i c.world).outside = _
      rw [hleft, if_neg]
      exact fun hown ↦ hj (Turn.of.inj (hturn.symm.trans hown))
    · have hsame : (leave i c.world).outside = c.world.outside := by
        rw [hleft, if_neg]
        exact fun hown ↦ nomatch hover.symm.trans hown
      change Beside id j c.world (leave i c.world)
      exact ⟨hsame ▸ hover, hsame ▸ Grows.refl, fun _ h ↦ hrows ▸ h⟩

end Guarding

/-! ### Every history -/

/-- Nothing of the build was done: no tree, no mark, no row of the journal. -/
structure Untouched (id : OperationId) (w : Performed Grounds) : Prop where
  turn : w.outside.turn = .before
  spot : w.outside.spot = ⟨none, false, none⟩
  rows : w.outside.rows = []
  journal : rowsOf id w = ∅

/-- What a release before the mark left: a tree it cloned under its own name, to which the steps it wrote
down as applied were applied, the last of them not among these. -/
structure LeftBefore (params : Params) (id : OperationId) (w : Performed Grounds) : Prop where
  turn : w.outside.turn = .over
  spot : ∃ tree, w.outside.spot = ⟨none, false, some tree⟩ ∧ tree.cloned = true ∧
    ∀ k deed, (wanted params)[k]? = some deed → Applied (rowsOf id w) (k + 1) deed.key → k + 1 ∈ tree.done
  rows : w.outside.rows = []
  placed : ∀ position row, (rowsOf id w).get? position = some row → row.position = position
  unfinished : ¬Applied (rowsOf id w) (last params) "promote"

/-- Nobody is alive, and nothing was done, or a release before the mark left a tree. -/
structure Beginning (params : Params) (id : OperationId) (c : Stage) : Prop where
  idle : Idle c
  world : Untouched id c.world ∨ LeftBefore params id c.world

theorem Beginning.kept {params : Params} {id : OperationId} {c : Stage} (hc : Beginning params id c) :
    Kept params (rowsOf id c.world) c.world.outside := by
  rcases hc.world with ⟨-, hspot, hrows, hjournal⟩ |
    ⟨-, ⟨tree, hspot, hcloned, hdone⟩, hrows, hplaced, hnone⟩
  · have hempty {position : ℕ} {key : String} : ¬Applied (rowsOf id c.world) position key := by
      rintro ⟨row, hrow, -⟩
      rw [hjournal, Table.get?_empty] at hrow
      cases hrow
    refine ⟨fun position row hrow ↦ ?_, fun name tree htree ↦ ?_, fun k deed _ h ↦ (hempty h).elim,
      fun h ↦ (hempty h).elim, fun hsome ↦ ?_, fun spot hmem ↦ ?_⟩
    · rw [hjournal, Table.get?_empty] at hrow
      cases hrow
    · rw [hspot] at htree
      cases name <;> cases htree
    · rw [hspot] at hsome
      cases hsome
    · rw [hrows] at hmem
      cases hmem
  · refine ⟨hplaced, fun name found hfound ↦ ?_, fun k deed hdeed h ↦ ⟨tree, ?_, hdone k deed hdeed h⟩,
      fun h ↦ (hnone h).elim, fun hsome ↦ ?_, fun spot hmem ↦ ?_⟩
    · rw [hspot] at hfound
      cases name with
      | own => cases hfound
      | legacy => exact Option.some.inj hfound ▸ hcloned
    · rw [hspot]
      rfl
    · rw [hspot] at hsome
      cases hsome
    · rw [hrows] at hmem
      cases hmem

/-- Whenever a finished base is said to be at its path, a complete tree stands there, and so it did whenever
a row was written for it.

Assumes: a history of one build from where nothing was done, or from what a release before the mark left. -/
theorem built_complete {params : Params} {id : OperationId} {c c' : Stage} {labels : List Happening}
    (hc : Beginning params id c) (hexec : (machine params id).exec c labels = some c') :
    (isBuilt c'.world.outside.spot = true → c'.world.outside.spot.Stands params) ∧
      ∀ spot ∈ c'.world.outside.rows, spot.Stands params := by
  have halong : (machine params id).Along (fun _ _ ↦ True) c labels :=
    Machine.along_of_labels (L := fun _ ↦ True) fun _ _ ↦ trivial
  have hguarded := sound_guarding.guarded_exec halong hexec
    ⟨hc.kept, fun i p hrunning ↦ (by rw [hc.idle i] at hrunning; cases hrunning)⟩
  have hkept : Kept params (rowsOf id c'.world) c'.world.outside := hguarded.1
  refine ⟨fun hbuilt ↦ ?_, hkept.rows⟩
  simp only [isBuilt, Bool.and_eq_true, Bool.not_eq_true'] at hbuilt
  exact (hkept.built hbuilt.1.1 hbuilt.1.2).1

/-! ### A build that is killed twice -/

/-- A clone of a remote, one commit, and a build command. -/
def warmed : Params where
  base := "base"
  commit := "commit"
  destination := []
  origin := .remote "url"
  objects := "checkout"
  installs := []
  warm := [['m', 'a', 'k', 'e']]
  fits := by decide

/-- Nothing was done yet. -/
def fresh : Stage where
  world := {
    journal := { journal := ⟨∅, fun _ ↦ ∅, Journal.keyed_empty⟩, processes := [], past := [], named := [],
                 log := fun _ ↦ [] }
    outside := { spot := ⟨none, false, none⟩, scratch := fun _ ↦ none, rows := [], turn := .before } }
  running _ := none

/-- What the outside chooses where every command runs. -/
def granted : (act : Act Command) → act.Choice Command.Choice
  | .journal effect =>
    match effect with
    | .isRunning _ _ => false
    | .rebuild _ _ | .snapshot _ _ _ | .endApply _ _ => .error ""
    | .endUndo _ _ => .ok ()
    | .commit _ _ _ => .ok nothing
    | .start _ _ | .markStep _ _ | .finish _ _ | .reopen _ | .steps _ | .unfinished | .beginApply _ _
    | .beginUndo _ _ => ()
  | .outside command =>
    match command with
    | .sweep => fun _ ↦ .gone
    | .hasCommit _ => .ok true
    | .isDir _ | .marked | .beginClone _ _ | .beginRemove _ => ()
    | .mark | .unmark | .renameLegacy | .createParent | .enforce _ | .endClone _ _ | .scrub _
    | .renameScratch _ | .openRepository | .fetch _ | .fetchFrom _ _ | .perform _ _ | .endRemove _ => .ok ()

/-- One of the processes that are at the build, one after the other. -/
def builder (serial : ℕ) : Process := ⟨⟨"host", serial⟩, serial⟩

/-- A process for as many of its effects, and then its end. -/
def attempt (serial : ℕ) (job : Job) (count : ℕ) : List Happening :=
  .enter (builder serial) job :: List.replicate count (.act (builder serial) granted) ++
    [.leave (builder serial)]

/-- A run killed inside its clone, one that finds it and is killed after the move and before that is
written down, and one that finishes. -/
def killedTwice : List Happening := attempt 1 .run 7 ++ attempt 2 .resume 12 ++ attempt 3 .resume 23

theorem beginning_fresh : Beginning warmed 1 fresh := ⟨fun _ ↦ rfl, .inl ⟨rfl, rfl, rfl, rfl⟩⟩

/-- The killed build is finished, and its row was written. -/
theorem built_complete_killedTwice :
    ∃ c', (machine warmed 1).exec fresh killedTwice = some c' ∧ isBuilt c'.world.outside.spot = true ∧
      c'.world.outside.rows ≠ [] ∧ c'.world.outside.spot.Stands warmed ∧
      ∀ spot ∈ c'.world.outside.rows, spot.Stands warmed := by
  have hbuilt : ((machine warmed 1).exec fresh killedTwice).any
      (fun c ↦ isBuilt c.world.outside.spot && c.world.outside.rows ≠ []) = true := by decide +kernel
  obtain ⟨c', hexec, hchecked⟩ := (Option.any_eq_true ..).mp hbuilt
  simp only [Bool.and_eq_true, decide_eq_true_eq] at hchecked
  obtain ⟨hstands, hrows⟩ := built_complete beginning_fresh hexec
  exact ⟨c', hexec, hchecked.1, hchecked.2, hstands hchecked.1, hrows⟩

end Nodal.Substrate.Build
