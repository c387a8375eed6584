import Mathlib.Data.List.Basic
import Mathlib.Logic.Relation

/-!
Ancestry in a history of nodes, each of which names its parents. A node is listed before every
node it descends from, so one pass over the list, carrying the nodes wanted so far, collects
exactly what the wanted nodes reach. The pass is computed and the reach is a relation, and this
file is where the two are shown to be one.
-/

set_option autoImplicit false

namespace Nodal.Foundation.Ancestry

variable {κ : Type} {parents : κ → List κ} {nodes wanted held : List κ} {a b c : κ}

/-! ### The relation -/

/-- One step back, inside a store of nodes. -/
def Step (parents : κ → List κ) (nodes : List κ) (newer older : κ) : Prop :=
  older ∈ parents newer ∧ older ∈ nodes

/-- One node reaches another through nodes of the store alone. -/
def Reaches (parents : κ → List κ) (nodes : List κ) : κ → κ → Prop :=
  Relation.ReflTransGen (Step parents nodes)

/-- One node descends from another, whoever stores what lies between. -/
def Descends (parents : κ → List κ) : κ → κ → Prop :=
  Relation.ReflTransGen fun newer older ↦ older ∈ parents newer

/-- A store that cuts some parents off reaches nothing the whole history does not. -/
theorem Reaches.descends {cut : κ → List κ} (hcut : ∀ node, cut node ⊆ parents node)
    (h : Reaches cut nodes a b) : Descends parents a b :=
  Relation.ReflTransGen.mono (fun _ _ hstep ↦ hcut _ hstep.1) _ _ h

/-- Every node comes before its parents, and no node is listed twice. -/
def NewestFirst (parents : κ → List κ) (nodes : List κ) : Prop :=
  nodes.Pairwise fun newer older ↦ newer ≠ older ∧ newer ∉ parents older

theorem NewestFirst.nodup (h : NewestFirst parents nodes) : nodes.Nodup :=
  List.Pairwise.imp (fun hne ↦ hne.1) h

variable [DecidableEq κ]

instance : Decidable (NewestFirst parents nodes) :=
  inferInstanceAs (Decidable (nodes.Pairwise _))

/-! ### The pass -/

/-- What the wanted nodes reach, newest first. -/
def walk (parents : κ → List κ) : List κ → List κ → List κ
  | _, [] => []
  | wanted, node :: older =>
    if node ∈ wanted then node :: walk parents (parents node ++ wanted) older
    else walk parents wanted older

/-- What the wanted nodes reach and the held ones do not. -/
def outside (parents : κ → List κ) (wanted held nodes : List κ) : List κ :=
  (walk parents wanted nodes).filter (· ∉ walk parents held nodes)

theorem walk_sublist : (walk parents wanted nodes).Sublist nodes := by
  induction nodes generalizing wanted with
  | nil => exact List.Sublist.refl _
  | cons node older ih =>
    rw [walk]
    split
    · exact (ih).cons_cons node
    · exact (ih).cons node

theorem outside_sublist : (outside parents wanted held nodes).Sublist nodes :=
  List.filter_sublist.trans walk_sublist

theorem mem_outside : c ∈ outside parents wanted held nodes ↔
    c ∈ walk parents wanted nodes ∧ c ∉ walk parents held nodes := by
  simp [outside]

/-- A wanted node of the store is walked. -/
theorem mem_walk_of_wanted (hnode : c ∈ nodes) (hwanted : c ∈ wanted) :
    c ∈ walk parents wanted nodes := by
  induction nodes generalizing wanted with
  | nil => cases hnode
  | cons node older ih =>
    rw [walk]
    rcases List.mem_cons.mp hnode with rfl | hnode
    · simp [hwanted]
    · split
      · exact List.mem_cons_of_mem _ (ih hnode (List.mem_append_right _ hwanted))
      · exact ih hnode hwanted

/-- The walk takes the parents of what it took.

Assumes: the store lists every node before its parents. -/
theorem walk_closed (hnodes : NewestFirst parents nodes) (hb : b ∈ walk parents wanted nodes)
    (hparent : c ∈ parents b) (hc : c ∈ nodes) : c ∈ walk parents wanted nodes := by
  induction nodes generalizing wanted with
  | nil => cases hc
  | cons node older ih =>
    obtain ⟨hnode, holder⟩ := List.pairwise_cons.mp hnodes
    rw [walk] at hb ⊢
    rcases List.mem_cons.mp hc with rfl | hc
    · -- the newest node is nobody's parent here, unless it was taken itself
      split at hb
      · next hwanted => simp [hwanted]
      · exact absurd hparent (hnode b (walk_sublist.subset hb)).2
    · split at hb
      · next hwanted =>
        rw [if_pos hwanted]
        refine List.mem_cons_of_mem _ ?_
        rcases List.mem_cons.mp hb with heq | hb
        · exact mem_walk_of_wanted hc (List.mem_append_left _ (heq ▸ hparent))
        · exact ih holder hb hc
      · next hwanted =>
        rw [if_neg hwanted]
        exact ih holder hb hc

/-- What the walk takes is reached from a wanted node of the store. -/
theorem reaches_of_mem_walk (h : c ∈ walk parents wanted nodes) :
    ∃ tip ∈ wanted, tip ∈ nodes ∧ Reaches parents nodes tip c := by
  induction nodes generalizing wanted with
  | nil => cases h
  | cons node older ih =>
    have widen {a b : κ} (hreach : Reaches parents older a b) :
        Reaches parents (node :: older) a b :=
      Relation.ReflTransGen.mono
        (fun _ _ hstep ↦ ⟨hstep.1, List.mem_cons_of_mem _ hstep.2⟩) _ _ hreach
    rw [walk] at h
    split at h
    · next hwanted =>
      rcases List.mem_cons.mp h with rfl | h
      · exact ⟨c, hwanted, List.mem_cons_self, Relation.ReflTransGen.refl⟩
      · obtain ⟨tip, htip, hstored, hreach⟩ := ih h
        rcases List.mem_append.mp htip with hparent | htip
        · exact ⟨node, hwanted, List.mem_cons_self, Relation.ReflTransGen.head
            ⟨hparent, List.mem_cons_of_mem _ hstored⟩ (widen hreach)⟩
        · exact ⟨tip, htip, List.mem_cons_of_mem _ hstored, widen hreach⟩
    · obtain ⟨tip, htip, hstored, hreach⟩ := ih h
      exact ⟨tip, htip, List.mem_cons_of_mem _ hstored, widen hreach⟩

/-- The walk takes exactly what the wanted nodes of the store reach.

Assumes: the store lists every node before its parents. -/
theorem mem_walk_iff (hnodes : NewestFirst parents nodes) : c ∈ walk parents wanted nodes ↔
    ∃ tip ∈ wanted, tip ∈ nodes ∧ Reaches parents nodes tip c := by
  refine ⟨reaches_of_mem_walk, ?_⟩
  rintro ⟨tip, htip, hstored, hreach⟩
  -- induction on the path, one parent at a time
  induction hreach with
  | refl => exact mem_walk_of_wanted hstored htip
  | tail _ hstep ih => exact walk_closed hnodes ih hstep.1 hstep.2

theorem walk_mono {more : List κ} (hnodes : NewestFirst parents nodes) (hmore : wanted ⊆ more)
    (h : c ∈ walk parents wanted nodes) : c ∈ walk parents more nodes := by
  obtain ⟨tip, htip, hreach⟩ := (mem_walk_iff hnodes).mp h
  exact (mem_walk_iff hnodes).mpr ⟨tip, hmore htip, hreach⟩

/-- What is walked and held by nothing is what is outside; the rest is held by something. -/
theorem outside_or_held (h : c ∈ walk parents wanted nodes) :
    c ∈ outside parents wanted held nodes ∨ c ∈ walk parents held nodes := by
  by_cases hheld : c ∈ walk parents held nodes
  · exact Or.inr hheld
  · exact Or.inl (mem_outside.mpr ⟨h, hheld⟩)

/-- Holding more leaves part of what holding less does, in the same order.

Assumes: the store lists every node before its parents. -/
theorem outside_filter_outside {more : List κ} (hnodes : NewestFirst parents nodes)
    (hmore : held ⊆ more) : (outside parents wanted held nodes).filter
      (· ∈ outside parents wanted more nodes) = outside parents wanted more nodes := by
  rw [outside, outside, List.filter_filter]
  refine List.filter_congr fun c hc ↦ ?_
  have hheld : c ∈ walk parents held nodes → c ∈ walk parents more nodes := walk_mono hnodes hmore
  by_cases hwalked : c ∈ walk parents more nodes
  · simp [hwalked]
  · have hnot : c ∉ walk parents held nodes := fun h ↦ hwalked (hheld h)
    simp [hc, hwalked, hnot]

theorem outside_nodup (hnodes : NewestFirst parents nodes) :
    (outside parents wanted held nodes).Nodup :=
  outside_sublist.nodup hnodes.nodup

end Nodal.Foundation.Ancestry
