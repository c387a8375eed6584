import Nodal.Substrate.Evict

/-!
# A base somebody has taken is not evicted

An eviction goes by environment rows, and a create writes its row last. So what spares the base a create
was answered is that the two keep out of each other's way: no eviction finds a base free that a create
under way has taken, and no create takes a base that an eviction found free and is not done with, or that
one left with something taken out of it (`Apart`). Where every step of a history is so, the tree of a base
is whole for as long as a create has it (`Spared`), each create that committed made its copy of a whole
tree, and the base it names has a row (`taken_spared`).

Nothing in the code keeps the two apart: a base is removed while a create clones it, and the create commits
(`taken_not_spared`).
-/

set_option autoImplicit false

namespace Nodal.Substrate.Evict

open Foundation Foundation.Attempt Rows

/-! ### What is kept -/

/-- Everything that was built is in the directory. -/
def Grounds.WholeAt (g : Grounds) (path : String) : Prop :=
  ∃ tree, g.shelf.trees path = some tree ∧ tree.whole = true

/-- What holds of the bases between any two steps. -/
structure Spared (g : Grounds) : Prop where
  whole : ∀ i taken, g.taken i = some taken → g.WholeAt taken.base.path
  apart : ∀ i j taken, g.taken i = some taken → g.evicting j ≠ some taken.base.path
  steady : ∀ i taken copy, g.taken i = some taken → taken.copy = some copy → copy.steady = true
  made : ∀ m ∈ g.made, m.copy = ⟨true, true⟩ ∧ m.environment ∈ g.shelf.environments
  held : ∀ environment ∈ g.shelf.environments, ∃ row ∈ g.shelf.rows, row.id = environment.base

/-- An eviction finds a base free only while no create has it, and a create takes a base only while it is
whole and no eviction is at it. -/
def Command.Apart (g : Grounds) : Command → Prop
  | .countForBase base true => g.shelf.countForBase base.id = 0 →
      ∀ i taken, g.taken i = some taken → taken.base.path ≠ base.path
  | .take base => g.WholeAt base.path ∧ ∀ i, g.evicting i ≠ some base.path
  | _ => True

/-- What a process has to have done before. -/
def Command.Needs (i : ℕ) (g : Grounds) : Command → Prop
  | .beginRemove path | .endRemove path => g.evicting i = some path
  | .commit _ => ∀ taken copy, g.taken i = some taken → taken.copy = some copy → copy.ended = true
  | _ => True

variable {g g' : Grounds} {i j : ℕ} {path : String} {taken : Taken} {shelf : Shelf}

/-- Rows that are written or touched, and those without an environment that go. -/
theorem Spared.shelve (h : Spared g) (htrees : ∀ path, g.WholeAt path → ∃ tree,
      shelf.trees path = some tree ∧ tree.whole = true)
    (henvironments : shelf.environments = g.shelf.environments)
    (hrows : ∀ environment ∈ g.shelf.environments, (∃ row ∈ g.shelf.rows, row.id = environment.base) →
      ∃ row ∈ shelf.rows, row.id = environment.base) : Spared { g with shelf } where
  whole i taken htaken := htrees _ (h.whole i taken htaken)
  apart := h.apart
  steady := h.steady
  made m hm := by
    obtain ⟨hcopy, hmem⟩ := h.made m hm
    exact ⟨hcopy, henvironments ▸ hmem⟩
  held environment hmem := by
    have hbefore : environment ∈ g.shelf.environments := henvironments ▸ hmem
    exact hrows environment hbefore (h.held environment hbefore)

theorem Spared.look {l : Look} (h : Spared g) (choice : l.Choice) :
    Spared { g with shelf := (look l choice g.shelf).2 } := by
  cases l with
  | find key | isDir path | isBuilt path => exact h
  | touch id =>
    refine h.shelve (fun path hwhole ↦ hwhole) rfl fun environment _ ⟨row, hrow, hid⟩ ↦ ?_
    refine ⟨_, List.mem_map_of_mem hrow, ?_⟩
    split <;> exact hid
  | delete id =>
    rw [Rows.look, Shelf.delete]
    split
    · next shelf hdelete =>
      split at hdelete
      · cases hdelete
      · next hfree =>
        obtain rfl := Except.ok.inj hdelete
        refine h.shelve (fun path hwhole ↦ hwhole) rfl fun environment hmem ⟨row, hrow, hid⟩ ↦
          ⟨row, List.mem_filter.mpr ⟨hrow, ?_⟩, hid⟩
        have hne : environment.base ≠ id := fun heq ↦
          hfree (List.any_eq_true.mpr ⟨environment, hmem, decide_eq_true heq⟩)
        exact decide_eq_true (hid ▸ hne)
    · exact h

/-- A process is done with what it removed. -/
theorem Spared.removes_none (h : Spared g) : Spared (g.removes i none) where
  whole := h.whole
  apart k j taken htaken := by
    change Function.update g.evicting i none j ≠ _
    rcases eq_or_ne j i with rfl | hj
    · rw [Function.update_self]
      exact (Option.some_ne_none _).symm
    · rw [Function.update_of_ne hj]
      exact h.apart k j taken htaken
  steady := h.steady
  made := h.made
  held := h.held

/-- A process sets out to remove a directory nobody has taken. -/
theorem Spared.removes (h : Spared g)
    (hfree : ∀ k taken, g.taken k = some taken → taken.base.path ≠ path) :
    Spared (g.removes i (some path)) where
  whole := h.whole
  apart k j taken htaken := by
    change Function.update g.evicting i (some path) j ≠ _
    rcases eq_or_ne j i with rfl | hj
    · rw [Function.update_self]
      exact fun heq ↦ hfree k taken htaken (Option.some.inj heq).symm
    · rw [Function.update_of_ne hj]
      exact h.apart k j taken htaken
  steady := h.steady
  made := h.made
  held := h.held

/-- A process takes a base, goes on with its clone, or ends. -/
theorem Spared.takes {now : Option Taken} (h : Spared g)
    (hwhole : ∀ taken, now = some taken → g.WholeAt taken.base.path)
    (hapart : ∀ j taken, now = some taken → g.evicting j ≠ some taken.base.path)
    (hsteady : ∀ taken copy, now = some taken → taken.copy = some copy → copy.steady = true) :
    Spared (g.takes i now) := by
  have hcases {k : ℕ} {taken : Taken} (htaken : (g.takes i now).taken k = some taken) :
      now = some taken ∨ g.taken k = some taken := by
    change Function.update g.taken i now k = some taken at htaken
    rcases eq_or_ne k i with rfl | hk
    · exact .inl (by rwa [Function.update_self] at htaken)
    · exact .inr (by rwa [Function.update_of_ne hk] at htaken)
  refine ⟨fun k taken htaken ↦ ?_, fun k j taken htaken ↦ ?_, fun k taken copy htaken hcopy ↦ ?_, h.made,
    h.held⟩
  · exact (hcases htaken).elim (hwhole taken) (h.whole k taken)
  · exact (hcases htaken).elim (hapart j taken) (h.apart k j taken)
  · exact (hcases htaken).elim (hsteady taken copy · hcopy) (h.steady k taken copy · hcopy)

theorem torn_of_ne (h : taken.base.path ≠ path) : taken.torn path = taken := if_neg h

/-- A directory nobody has taken may go. -/
theorem Spared.tear {tree : Option Rows.Tree} (h : Spared g)
    (hfree : ∀ k taken, g.taken k = some taken → taken.base.path ≠ path) : Spared (g.tear path tree) := by
  have hsame (k : ℕ) : (g.tear path tree).taken k = g.taken k := by
    change (g.taken k).map (Taken.torn path) = g.taken k
    cases htaken : g.taken k with
    | none => rfl
    | some taken => rw [Option.map_some, torn_of_ne (hfree k taken htaken)]
  refine ⟨fun k taken htaken ↦ ?_, fun k j taken htaken ↦ h.apart k j taken (hsame k ▸ htaken),
    fun k taken copy htaken ↦ h.steady k taken copy (hsame k ▸ htaken), h.made, h.held⟩
  rw [hsame k] at htaken
  obtain ⟨found, hfound, hwhole⟩ := h.whole k taken htaken
  exact ⟨found, (Function.update_of_ne (hfree k taken htaken) ..).trans hfound, hwhole⟩

/-- A create under way becomes a unit. -/
theorem Spared.committed {environment : Environment} {copy : Copy} (h : Spared g)
    (hcopy : copy = ⟨true, true⟩) (hhold : g.shelf.hold environment = .ok shelf) :
    Spared { g with shelf, made := ⟨environment, copy⟩ :: g.made } := by
  unfold Shelf.hold at hhold
  split at hhold
  · next hrow =>
    obtain rfl := Except.ok.inj hhold
    obtain ⟨row, hmem, hid⟩ := List.any_eq_true.mp (Bool.and_eq_true _ _ ▸ hrow).1
    refine ⟨h.whole, h.apart, h.steady, fun m hm ↦ ?_, fun other hother ↦ ?_⟩
    · rcases List.mem_cons.mp hm with rfl | hm
      · exact ⟨hcopy, List.mem_cons_self⟩
      · exact ⟨(h.made m hm).1, List.mem_cons_of_mem _ (h.made m hm).2⟩
    · rcases List.mem_cons.mp hother with rfl | hother
      · exact ⟨row, hmem, of_decide_eq_true hid⟩
      · exact h.held other hother
  · cases hhold

/-- A command that fails changes nothing. -/
theorem Spared.changed {ended : Except String Unit} {change : Except String Grounds} (h : Spared g)
    (hchange : ∀ g', change = .ok g' → Spared g') : Spared (changed ended change g).2 := by
  unfold Evict.changed
  split
  · exact h
  · exact h
  · exact hchange _ rfl

/-! ### What a command does -/

variable {command : Command}

/-- A command keeps what holds, where what came before it and the others allow it. -/
theorem Spared.act (h : Spared g) (choice : command.Choice) (hneeds : command.Needs i g)
    (hapart : command.Apart g) : Spared (act i command choice g).2 := by
  cases command with
  | look l =>
    have hlook : Spared { g with shelf := (Rows.look l choice g.shelf).2 } := h.look choice
    cases l with
    | delete id => exact hlook.removes_none
    | find _ | isDir _ | isBuilt _ | touch _ => exact hlook
  | build key =>
    cases choice with
    | error why => exact h
    | ok built =>
      obtain ⟨id, path, at'⟩ := built
      dsimp only [Evict.act]
      split
      · exact h
      · split
        · exact h
        · next shelf hinsert =>
          unfold Shelf.insert at hinsert
          split at hinsert
          · cases hinsert
          · obtain rfl := Except.ok.inj hinsert
            refine h.shelve (fun other ⟨tree, htree, hwhole⟩ ↦ ?_) rfl
              fun environment _ ⟨row, hrow, hid⟩ ↦ ⟨row, List.mem_cons_of_mem _ hrow, hid⟩
            change ∃ tree, Function.update g.shelf.trees path _ other = some tree ∧ _
            rcases eq_or_ne other path with rfl | hne
            · exact ⟨_, Function.update_self .., rfl⟩
            · exact ⟨tree, (Function.update_of_ne hne ..).trans htree, hwhole⟩
  | take base =>
    obtain ⟨hwhole, hfree⟩ := hapart
    refine h.takes (fun taken heq ↦ ?_) (fun j taken heq ↦ ?_) fun taken copy heq hcopy ↦ ?_
    · exact Option.some.inj heq ▸ hwhole
    · exact Option.some.inj heq ▸ hfree j
    · rw [← Option.some.inj heq] at hcopy
      cases hcopy
  | installs | settle | get _ | listForProject _ => exact h
  | beginClone =>
    refine h.changed fun g' heq ↦ ?_
    split at heq
    · cases heq
    · next taken htaken =>
      obtain ⟨tree, htree, hwhole⟩ := h.whole i taken htaken
      rw [htree] at heq
      obtain rfl := Except.ok.inj heq
      refine h.takes (fun taken' heq ↦ ?_) (fun j taken' heq ↦ ?_) fun taken' copy heq hcopy ↦ ?_
      · exact Option.some.inj heq ▸ h.whole i taken htaken
      · exact Option.some.inj heq ▸ h.apart i j taken htaken
      · rw [← Option.some.inj heq] at hcopy
        exact Option.some.inj hcopy ▸ hwhole
  | endClone =>
    refine h.changed fun g' heq ↦ ?_
    obtain rfl := Except.ok.inj heq
    have hwas {taken' : Taken} (heq : ((g.taken i).map fun taken ↦ { taken with
        copy := taken.copy.map fun copy ↦ { copy with ended := true } }) = some taken') :
        ∃ taken, g.taken i = some taken ∧ taken'.base = taken.base ∧
          taken'.copy = taken.copy.map fun copy ↦ { copy with ended := true } := by
      obtain ⟨taken, htaken, rfl⟩ := Option.map_eq_some_iff.mp heq
      exact ⟨taken, htaken, rfl, rfl⟩
    refine h.takes (fun taken' heq ↦ ?_) (fun j taken' heq ↦ ?_) fun taken' copy heq hcopy ↦ ?_
    · obtain ⟨taken, htaken, hbase, -⟩ := hwas heq
      exact hbase ▸ h.whole i taken htaken
    · obtain ⟨taken, htaken, hbase, -⟩ := hwas heq
      exact hbase ▸ h.apart i j taken htaken
    · obtain ⟨taken, htaken, -, hmade⟩ := hwas heq
      obtain ⟨before, hbefore, rfl⟩ := Option.map_eq_some_iff.mp (hmade ▸ hcopy)
      exact h.steady i taken before htaken hbefore
  | commit environment =>
    refine h.changed fun g' heq ↦ ?_
    split at heq
    · next base copy htaken =>
      have hended : copy.ended = true := hneeds _ copy htaken rfl
      have hsteady : copy.steady = true := h.steady i _ copy htaken rfl
      have hcopy : copy = ⟨true, true⟩ := by
        obtain ⟨ended, steady⟩ := copy
        cases hended
        cases hsteady
        rfl
      cases hhold : g.shelf.hold ⟨environment, base.id⟩ with
      | error why =>
        rw [hhold] at heq
        cases heq
      | ok shelf =>
        rw [hhold] at heq
        obtain rfl := Except.ok.inj heq
        exact (h.committed hcopy hhold).takes (fun _ heq ↦ by cases heq) (fun _ _ heq ↦ by cases heq)
          fun _ _ heq ↦ by cases heq
    · cases heq
  | drop =>
    exact h.takes (fun _ heq ↦ by cases heq) (fun _ _ heq ↦ by cases heq) fun _ _ heq ↦ by cases heq
  | countForBase base evicts =>
    dsimp only [Evict.act]
    split
    · next hfree =>
      simp only [Bool.and_eq_true, decide_eq_true_eq] at hfree
      obtain ⟨rfl, hnone⟩ := hfree
      exact h.removes (hapart hnone)
    · exact h
  | beginRemove path =>
    dsimp only [Evict.act]
    split
    · exact h.tear fun k taken htaken heq ↦ h.apart k i taken htaken (heq ▸ hneeds)
    · exact h
  | endRemove path =>
    cases choice with
    | error why => exact h.removes_none
    | ok _ => exact h.tear fun k taken htaken heq ↦ h.apart k i taken htaken (heq ▸ hneeds)

/-- What the others see of a create: the base it has, and whether its clone has ended. -/
def Taken.seen (taken : Taken) : Base × Option Bool := (taken.base, taken.copy.map Copy.ended)

theorem seen_torn : (taken.torn path).seen = taken.seen := by
  unfold Taken.torn
  split
  · unfold Taken.seen
    rw [Option.map_map]
    congr 2
    funext copy
    dsimp only [Function.comp]
    split <;> rfl
  · rfl

/-- What one process is in the middle of is its own. -/
structure Leaves (j : ℕ) (g g' : Grounds) : Prop where
  evicting : g'.evicting j = g.evicting j
  taken : (g'.taken j).map Taken.seen = (g.taken j).map Taken.seen

theorem leaves_takes {now : Option Taken} (hj : j ≠ i) : Leaves j g (g.takes i now) :=
  ⟨rfl, congrArg (Option.map Taken.seen) (Function.update_of_ne hj ..)⟩

theorem leaves_removes {now : Option String} (hj : j ≠ i) : Leaves j g (g.removes i now) :=
  ⟨Function.update_of_ne hj .., rfl⟩

theorem leaves_tear {tree : Option Rows.Tree} : Leaves j g (g.tear path tree) := by
  refine ⟨rfl, ?_⟩
  change ((g.taken j).map (Taken.torn path)).map Taken.seen = (g.taken j).map Taken.seen
  rw [Option.map_map]
  congr 1
  funext taken
  exact seen_torn

theorem leaves_changed {ended : Except String Unit} {change : Except String Grounds}
    (hchange : ∀ g', change = .ok g' → Leaves j g g') : Leaves j g (changed ended change g).2 := by
  unfold changed
  split
  · exact ⟨rfl, rfl⟩
  · exact ⟨rfl, rfl⟩
  · exact hchange _ rfl

theorem leaves_act (hj : j ≠ i) (choice : command.Choice) : Leaves j g (act i command choice g).2 := by
  cases command with
  | look l =>
    cases l with
    | delete id => exact ⟨Function.update_of_ne hj .., rfl⟩
    | find _ | isDir _ | isBuilt _ | touch _ => exact ⟨rfl, rfl⟩
  | build key =>
    cases choice with
    | error why => exact ⟨rfl, rfl⟩
    | ok built =>
      dsimp only [act]
      split
      · exact ⟨rfl, rfl⟩
      · split <;> exact ⟨rfl, rfl⟩
  | take base | drop => exact leaves_takes hj
  | installs | settle | get _ | listForProject _ => exact ⟨rfl, rfl⟩
  | beginClone =>
    refine leaves_changed fun g' heq ↦ ?_
    split at heq
    · cases heq
    · split at heq
      · cases heq
      · exact Except.ok.inj heq ▸ leaves_takes hj
  | endClone => exact leaves_changed fun g' heq ↦ Except.ok.inj heq ▸ leaves_takes hj
  | commit environment =>
    refine leaves_changed fun g' heq ↦ ?_
    split at heq
    · next base copy htaken =>
      cases hhold : g.shelf.hold ⟨environment, base.id⟩ with
      | error why =>
        rw [hhold] at heq
        cases heq
      | ok shelf =>
        rw [hhold] at heq
        exact Except.ok.inj heq ▸ ⟨rfl, congrArg (Option.map Taken.seen) (Function.update_of_ne hj ..)⟩
    · cases heq
  | countForBase base evicts =>
    dsimp only [act]
    split
    · exact leaves_removes hj
    · exact ⟨rfl, rfl⟩
  | beginRemove path =>
    dsimp only [act]
    split
    · exact leaves_tear
    · exact ⟨rfl, rfl⟩
  | endRemove path =>
    cases choice with
    | error why => exact leaves_removes hj
    | ok _ => exact leaves_tear

/-! ### The contract -/

/-- The creates and the evictions keep apart, and each process is in the middle of what it was. -/
def sparing : Contract ℕ Grounds Command Command.Choice where
  inv := Spared
  rely := Leaves
  rely_refl _ _ := ⟨rfl, rfl⟩
  rely_trans _ _ _ _ h h' := ⟨h'.evicting.trans h.evicting, h'.taken.trans h.taken⟩
  assume _ command _ g := command.Apart g
  pre i command g := command.Apart g → command.Needs i g

/-- What a process asserts of what it is in the middle of. -/
def Own (i : ℕ) (P : Option String → Option (Base × Option Bool) → Prop) (g : Grounds) : Prop :=
  P (g.evicting i) ((g.taken i).map Taken.seen)

/-- Nothing. -/
abbrev Whatever : Option String → Option (Base × Option Bool) → Prop := fun _ _ ↦ True

/-- What an attempt of a process leads to. -/
abbrev Does {β : Type} (i : ℕ) (P : Option String → Option (Base × Option Bool) → Prop) (x : Script β)
    (Q : β → Option String → Option (Base × Option Bool) → Prop) : Prop :=
  Yields machine sparing i (fun _ ↦ True) (Own i P) x fun value ↦ Own i (Q value)

section Rules

variable {β γ : Type} {P P' : Option String → Option (Base × Option Bool) → Prop} {x : Script β}
  {Q Q' : β → Option String → Option (Base × Option Bool) → Prop}

theorem stable_own : Stable sparing i (Own i P) := by
  rintro g g' ⟨hevicting, htaken⟩ - h
  rw [Own, hevicting, htaken]
  exact h

theorem stable_true : Stable sparing i fun _ ↦ True := fun _ _ _ _ _ ↦ trivial

theorem does_mono (h : Does i P x Q) (hpre : ∀ path taken, P' path taken → P path taken)
    (hpost : ∀ value path taken, Q value path taken → Q' value path taken) : Does i P' x Q' :=
  Yields.mono h (fun _ ↦ hpre _ _) fun value _ ↦ hpost value _ _

theorem does_bind {f : β → Script γ} {T : γ → Option String → Option (Base × Option Bool) → Prop}
    (hx : Does i P x Q) (hf : ∀ value, Does i (Q value) (f value) T) : Does i P (x >>= f) T :=
  yields_bind stable_true hx hf

theorem does_pure {value : β} (h : ∀ path taken, P path taken → Q value path taken) :
    Does i P (pure value) Q :=
  yields_pure stable_own fun _ ↦ h _ _

theorem does_throw {why : String} : Does i P (throw why : Script β) Q :=
  yields_throw stable_true fun _ _ ↦ trivial

/-- One command. -/
theorem does_call {T : command.Answer → Option String → Option (Base × Option Bool) → Prop}
    (hneeds : ∀ g, Own i P g → command.Needs i g)
    (hstep : ∀ choice g, Own i P g → Own i (T (act i command choice g).1) (act i command choice g).2) :
    Does i P (call command) T :=
  yields_call stable_own (fun _ ↦ stable_own) (fun g _ h _ ↦ hneeds g h) fun choice g _ h ↦ hstep choice g h

/-- A command that needs nothing and after which nothing is asserted. -/
theorem does_any (hneeds : ∀ g, command.Needs i g) :
    Does i P (call command) fun _ ↦ Whatever :=
  does_call (fun g _ ↦ hneeds g) fun _ _ _ ↦ trivial

/-- An answer that may be an error. -/
theorem does_ran {answer : Script (Except String β)}
    {T : Except String β → Option String → Option (Base × Option Bool) → Prop}
    (hanswer : Does i P answer T) (hok : ∀ value path taken, T (.ok value) path taken → Q value path taken) :
    Does i P (ran answer) Q := by
  refine does_bind hanswer fun result ↦ ?_
  cases result with
  | ok value => exact does_pure (hok value)
  | error why => exact does_throw

theorem does_outcome (hx : Does i P x Q) : Does i P x.outcome fun _ ↦ Whatever := by
  intro g hg
  refine safe_map ((hx g hg).mono fun result t _ ↦ ?_)
  cases result <;> trivial

theorem does_looking {y : Attempt Look Look.Answer String β} :
    Does i P (looking y) fun _ ↦ Whatever := by
  intro g _
  have huses : y.run.Uses fun _ ↦ True := by
    induction y.run with
    | done value => trivial
    | perform effect next ih => exact ⟨trivial, ih⟩
  have hlooks : (looking y).run.Uses fun command ↦ ∃ l, command = .look l :=
    huses.interpret fun l _ ↦ ⟨⟨l, rfl⟩, fun _ ↦ trivial⟩
  refine safe_of_uses (F := fun _ ↦ True) hlooks trivial (fun _ _ _ _ _ ↦ trivial)
    (fun command t ⟨l, hl⟩ _ _ _ ↦ hl ▸ trivial) (fun _ _ _ _ _ _ _ ↦ trivial) fun result t _ _ ↦ ?_
  cases result <;> trivial

end Rules

/-! ### The functions -/

theorem does_ensure {key : Key} : Does i Whatever (ensure key) fun _ ↦ Whatever := by
  refine does_bind does_looking fun base ↦ ?_
  cases base with
  | some base => exact does_pure fun _ _ _ ↦ trivial
  | none => exact does_ran (does_any fun _ ↦ trivial) fun _ _ _ _ ↦ trivial

/-- The copy a process has is one whose clone has ended. -/
abbrev Ended : Option String → Option (Base × Option Bool) → Prop :=
  fun _ taken ↦ ∀ base ended, taken = some (base, some ended) → ended = true

theorem does_made {environment : EnvId} : Does i Whatever (made environment) fun _ ↦ Whatever := by
  have hinstalls : Does i Whatever (ran (call Command.installs)) fun _ ↦ Whatever :=
    does_ran (does_any fun _ ↦ trivial) fun _ _ _ _ ↦ trivial
  have hbegun : Does i Whatever (ran (call Command.beginClone)) fun _ ↦ Whatever :=
    does_ran (does_any fun _ ↦ trivial) fun _ _ _ _ ↦ trivial
  have hended : Does i Whatever (ran (call Command.endClone)) fun _ ↦ Ended := by
    refine does_ran (T := fun answer path taken ↦ answer = .ok () → Ended path taken)
      (does_call (fun _ _ ↦ trivial) fun choice g _ ↦ ?_) fun _ _ _ h ↦ h rfl
    cases choice with
    | error why => exact fun h ↦ by cases h
    | ok _ =>
      intro _ base ended hseen
      obtain ⟨taken, htaken, heq⟩ := Option.map_eq_some_iff.mp hseen
      rw [show (act i .endClone (.ok ()) g).2.taken i = _ from Function.update_self ..] at htaken
      obtain ⟨before, -, rfl⟩ := Option.map_eq_some_iff.mp htaken
      obtain ⟨copy, hcopy, rfl⟩ := Option.map_eq_some_iff.mp (Prod.mk.inj heq).2
      obtain ⟨made, -, rfl⟩ := Option.map_eq_some_iff.mp hcopy
      rfl
  have hsettled : Does i Ended (ran (call Command.settle)) fun _ ↦ Ended :=
    does_ran (T := fun _ ↦ Ended) (does_call (fun _ _ ↦ trivial) fun _ _ h ↦ h) fun _ _ _ h ↦ h
  have hcommitted : Does i Ended (ran (call (Command.commit environment))) fun _ ↦ Whatever := by
    refine does_ran (T := fun _ ↦ Whatever) (does_call (fun g h taken copy htaken hcopy ↦ ?_)
      fun _ _ _ ↦ trivial) fun _ _ _ _ ↦ trivial
    refine h taken.base copy.ended ?_
    rw [htaken, Option.map_some, Taken.seen, hcopy]
    rfl
  exact does_bind hinstalls fun _ ↦ does_bind hbegun fun _ ↦ does_bind hended fun _ ↦
    does_bind hsettled fun _ ↦ hcommitted

theorem does_create {key : Key} {environment : EnvId} :
    Does i Whatever (create key environment) fun _ ↦ Whatever := by
  refine does_bind does_ensure fun base ↦ does_bind (does_any fun _ ↦ trivial) fun _ ↦ ?_
  refine does_bind (does_outcome does_made) fun result ↦ ?_
  cases result with
  | ok _ => exact does_pure fun _ _ _ ↦ trivial
  | error why => exact does_bind (does_any fun _ ↦ trivial) fun _ ↦ does_throw

/-- The process is at a directory it found nobody on the base of. -/
abbrev At (path : String) : Option String → Option (Base × Option Bool) → Prop :=
  fun evicting _ ↦ evicting = some path

theorem does_evict {id : BaseId} : Does i Whatever (evict id) fun _ ↦ Whatever := by
  refine does_bind (does_any fun _ ↦ trivial) fun found ↦ ?_
  cases found with
  | none => exact does_throw
  | some base =>
    have hcounted : Does i Whatever (call (Command.countForBase base true))
        fun pins path taken ↦ pins = 0 → At base.path path taken := by
      refine does_call (fun _ _ ↦ trivial) fun choice g _ hnone ↦ ?_
      have hzero : g.shelf.countForBase base.id = 0 := hnone
      have hremoves : (act i (.countForBase base true) choice g).2 = g.removes i (some base.path) :=
        if_pos (by simp [hzero])
      rw [hremoves]
      exact Function.update_self ..
    refine does_bind hcounted fun pins ↦ ?_
    split
    · exact does_throw
    · next hnone =>
      have hbegun : Does i (At base.path) (call (Command.beginRemove base.path))
          fun _ ↦ At base.path := by
        refine does_call (fun _ h ↦ h) fun torn g h ↦ ?_
        dsimp only [act]
        split <;> exact h
      have hended : Does i (At base.path) (ran (call (Command.endRemove base.path))) fun _ ↦ Whatever :=
        does_ran (does_call (T := fun _ ↦ Whatever) (fun _ h ↦ h) fun _ _ _ ↦ trivial) fun _ _ _ _ ↦ trivial
      have hdeleted : Does i Whatever (ran (call (Command.look (.delete id)))) fun _ ↦ Whatever :=
        does_ran (does_any fun _ ↦ trivial) fun _ _ _ _ ↦ trivial
      refine does_mono (does_bind hbegun fun _ ↦ does_bind hended fun _ ↦ does_bind hdeleted fun _ ↦
        does_pure fun _ _ _ ↦ trivial) (fun path taken h ↦ h (Nat.eq_zero_of_not_pos hnone))
        fun _ _ _ h ↦ h

theorem does_evictEach {ids : List BaseId} : Does i Whatever (evictEach ids) fun _ ↦ Whatever := by
  induction ids with
  | nil => exact does_pure fun _ _ _ ↦ trivial
  | cons id ids ih =>
    exact does_bind does_evict fun _ ↦ does_bind ih fun _ ↦ does_pure fun _ _ _ ↦ trivial

theorem does_candidatesOf {bases : List Base} :
    Does i Whatever (candidatesOf bases) fun _ ↦ Whatever := by
  induction bases with
  | nil => exact does_pure fun _ _ _ ↦ trivial
  | cons base bases ih =>
    exact does_bind (does_any fun _ ↦ trivial) fun _ ↦ does_bind ih fun _ ↦ does_pure fun _ _ _ ↦ trivial

theorem does_gc {project : String} {keep : ℕ} : Does i Whatever (gc project keep) fun _ ↦ Whatever :=
  does_bind (does_any fun _ ↦ trivial) fun _ ↦ does_bind does_candidatesOf fun _ ↦ does_evictEach

theorem safe_programOf {job : Job} :
    Safe machine sparing i (fun _ _ ↦ True) (programOf job) g := by
  have hsafe {β : Type} {x : Script β} (h : Does i Whatever x fun _ ↦ Whatever) :
      Safe machine sparing i (fun _ _ ↦ True) (x.run >>= fun result ↦ .done result.toBool) g :=
    safe_map ((h g trivial).mono fun _ _ _ ↦ trivial)
  cases job with
  | ensure key => exact hsafe does_ensure
  | create key environment => exact hsafe does_create
  | evict id => exact hsafe does_evict
  | gc project keep => exact hsafe does_gc

/-! ### Every history -/

/-- No step of a process brings a create and an eviction together. -/
def Apart (c : Stage) : Happening → Prop
  | .act i _ => ∀ command rest, c.running i = some (.perform command rest) → command.Apart c.world
  | .enter _ _ | .leave _ => True

theorem sound_sparing : Sound machine sparing (fun _ _ _ ↦ True) Apart where
  assume hapart hrunning := hapart _ _ hrunning
  act {c i choice effect rest} hapart hrunning hinv hpre := by
    have hkeeps := hapart _ _ hrunning
    exact ⟨hinv.act _ (hpre hkeeps) hkeeps, fun j p hj _ ↦ .inl (leaves_act hj _)⟩
  enter {c i job world} _ _ hworld hinv := by
    obtain rfl := Option.some.inj hworld
    exact ⟨hinv, safe_programOf, fun j p _ _ ↦ .inl ⟨rfl, rfl⟩⟩
  leave {c i p} _ _ hinv := by
    refine ⟨?_, fun j q hj _ ↦ .inl ⟨Function.update_of_ne hj .., ?_⟩⟩
    · exact (hinv.takes (fun _ heq ↦ by cases heq) (fun _ _ heq ↦ by cases heq)
        fun _ _ heq ↦ by cases heq).removes_none
    · exact congrArg (Option.map Taken.seen) (Function.update_of_ne hj ..)

/-- Nobody is alive, and every environment points at a base with a row. -/
structure Beginning (c : Stage) : Prop where
  idle : Idle c
  taken : ∀ i, c.world.taken i = none
  made : c.world.made = []
  held : ∀ environment ∈ c.world.shelf.environments,
    ∃ row ∈ c.world.shelf.rows, row.id = environment.base

/-- While a create has a base, everything that was built is in its directory; each create that committed
made its copy of a tree that was whole throughout, and the base it names has a row.

Assumes: a history whose steps keep the creates and the evictions apart. -/
theorem taken_spared {c c' : Stage} {labels : List Happening} (hc : Beginning c)
    (hapart : machine.Along Apart c labels) (hexec : machine.exec c labels = some c') :
    (∀ i taken, c'.world.taken i = some taken → c'.world.WholeAt taken.base.path) ∧
      ∀ m ∈ c'.world.made, m.copy = ⟨true, true⟩ ∧ m.environment ∈ c'.world.shelf.environments ∧
        ∃ row ∈ c'.world.shelf.rows, row.id = m.environment.base := by
  have hspared : Spared c.world := by
    refine ⟨fun i taken h ↦ ?_, fun i j taken h ↦ ?_, fun i taken copy h ↦ ?_, fun m hm ↦ ?_, hc.held⟩
    · rw [hc.taken i] at h
      cases h
    · rw [hc.taken i] at h
      cases h
    · rw [hc.taken i] at h
      cases h
    · rw [hc.made] at hm
      cases hm
  have hafter : Spared c'.world := (sound_sparing.guarded_exec hapart hexec
    ⟨hspared, fun i p hrunning ↦ (by rw [hc.idle i] at hrunning; cases hrunning)⟩).1
  refine ⟨hafter.whole, fun m hm ↦ ?_⟩
  obtain ⟨hcopy, hmem⟩ := hafter.made m hm
  exact ⟨hcopy, hmem, hafter.held _ hmem⟩

/-! ### A base that is cloned -/

/-- One base of one project. -/
def monday : Base := ⟨1, ⟨"project", "fingerprint", "platform"⟩, "bases/1", 0⟩

/-- The base is recorded, and nobody is alive. -/
def stocked : Stage where
  world := {
    shelf := ⟨[monday], [], Function.update (fun _ ↦ none) monday.path (some ⟨true, true⟩)⟩
    taken := fun _ ↦ none
    evicting := fun _ ↦ none
    made := [] }
  running _ := none

theorem beginning_stocked : Beginning stocked :=
  ⟨fun _ ↦ rfl, fun _ ↦ rfl, rfl, fun _ h ↦ absurd h List.not_mem_nil⟩

/-- What the outside chooses where everything runs, and a removal takes something out at once. -/
def granted : (command : Command) → command.Choice
  | .look l =>
    match l with
    | .touch _ => 1
    | .find _ | .isDir _ | .delete _ | .isBuilt _ => ()
  | .build _ => .error missing
  | .beginRemove _ => true
  | .get _ | .listForProject _ | .countForBase _ _ | .take _ | .drop => ()
  | .installs | .beginClone | .endClone | .settle | .commit _ | .endRemove _ => .ok ()

/-- A create of the base's key. -/
def creating : Job := .create monday.key 7

/-- As many commands of one process. -/
def steps (i count : ℕ) : List Happening := List.replicate count (.act i granted)

/-- A create, and after it an eviction. -/
def inTurn : List Happening := .enter 0 creating :: steps 0 10 ++ .enter 1 (.evict 1) :: steps 1 2

/-- An eviction that finds nobody on the base a create is cloning. -/
def amidst : List Happening :=
  .enter 0 creating :: steps 0 7 ++ .enter 1 (.evict 1) :: steps 1 3 ++ steps 0 3 ++ steps 1 2

theorem along_enter {c c₁ : Stage} {job : Job} {labels : List Happening}
    (hnext : machine.next c (.enter i job) = some c₁) (hrest : machine.Along Apart c₁ labels) :
    machine.Along Apart c (.enter i job :: labels) :=
  ⟨trivial, fun _ h ↦ Option.some.inj (hnext.symm.trans h) ▸ hrest⟩

theorem along_act {c c₁ : Stage} {choice : (command : Command) → command.Choice}
    {labels : List Happening} {rest : command.Answer → Program Command Command.Answer Bool}
    (hrunning : c.running i = some (.perform command rest)) (hapart : command.Apart c.world)
    (hnext : machine.next c (.act i choice) = some c₁) (hrest : machine.Along Apart c₁ labels) :
    machine.Along Apart c (.act i choice :: labels) := by
  refine ⟨fun command' rest' h ↦ ?_, fun _ h ↦ Option.some.inj (hnext.symm.trans h) ▸ hrest⟩
  cases hrunning.symm.trans h
  exact hapart

/-- The unit has its base, and the eviction is refused. -/
theorem taken_spared_inTurn : ∃ c', machine.exec stocked inTurn = some c' ∧ c'.world.made ≠ [] ∧
    ∀ m ∈ c'.world.made, m.copy = ⟨true, true⟩ ∧ m.environment ∈ c'.world.shelf.environments ∧
      ∃ row ∈ c'.world.shelf.rows, row.id = m.environment.base := by
  have hapart : machine.Along Apart stocked inTurn := by
    refine along_enter rfl ?_
    iterate 4 refine along_act rfl trivial rfl ?_
    refine along_act rfl ⟨⟨_, rfl, rfl⟩, fun _ h ↦ by cases h⟩ rfl ?_
    iterate 5 refine along_act rfl trivial rfl ?_
    refine along_enter rfl ?_
    refine along_act rfl trivial rfl ?_
    exact along_act rfl (fun h ↦ by cases h) rfl trivial
  have hmade : (machine.exec stocked inTurn).any (·.world.made ≠ []) = true := by decide +kernel
  obtain ⟨c', hexec, hchecked⟩ := (Option.any_eq_true ..).mp hmade
  exact ⟨c', hexec, of_decide_eq_true hchecked, (taken_spared beginning_stocked hapart hexec).2⟩

/-- The base is removed while a create clones it, and the create commits. -/
theorem taken_not_spared : Beginning stocked ∧ ∃ c', machine.exec stocked amidst = some c' ∧
    c'.world.shelf.trees monday.path = none ∧ ∃ m ∈ c'.world.made, m.copy.steady = false := by
  have hmade : (machine.exec stocked amidst).any (fun c ↦
      (c.world.shelf.trees monday.path).isNone && c.world.made.any (!·.copy.steady)) = true := by
    decide +kernel
  obtain ⟨c', hexec, hchecked⟩ := (Option.any_eq_true ..).mp hmade
  obtain ⟨hgone, hany⟩ := Bool.and_eq_true_iff.mp hchecked
  obtain ⟨m, hm, hsteady⟩ := List.any_eq_true.mp hany
  exact ⟨beginning_stocked, c', hexec, Option.isNone_iff_eq_none.mp hgone, m, hm,
    Bool.not_eq_true' _ ▸ hsteady⟩

end Nodal.Substrate.Evict
