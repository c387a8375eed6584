import Mathlib.Data.List.Perm.Basic

/-!
Holders asked in order about a shrinking list. Each holder vouches for some of what is left, doubts
some of it, or says nothing; what it vouches for is taken out of the list and credited to it, and
what it only doubts stays in for the next one. Nothing is lost and nothing is counted twice, and a
holder whose answer about one member does not turn on the others makes the order irrelevant.
-/

set_option autoImplicit false

namespace Nodal.Foundation.Credit

variable {σ ρ κ : Type}

/-- What one holder answers about what is left. -/
inductive Reply (ρ κ : Type) where
  | silent
  | doubted (why : ρ) (has : List κ)
  | vouched (holds : List κ)

namespace Reply

/-- What the holder vouches for. -/
def vouches : Reply ρ κ → List κ
  | vouched holds => holds
  | _ => []

/-- What the holder has and does not vouch for. -/
def doubts : Reply ρ κ → List κ
  | doubted _ has => has
  | _ => []

theorem eq_vouched_of_mem {reply : Reply ρ κ} {c : κ} (h : c ∈ reply.vouches) :
    ∃ holds, reply = vouched holds := by
  cases reply with
  | vouched holds => exact ⟨holds, rfl⟩
  | silent => cases h
  | doubted why has => cases h

end Reply

/-- What was settled: what each holder was credited with, what was doubted, what nobody took, and
what was left when each holder's turn came. -/
structure Outcome (σ ρ κ : Type) where
  held : List (σ × List κ)
  doubtful : List (σ × ρ × List κ)
  left : List κ
  turns : List (σ × List κ)

/-- The holder's answer when its turn comes. Nobody is asked about nothing. -/
def answer (ask : σ → List κ → Reply ρ κ) (holder : σ) (left : List κ) : Reply ρ κ :=
  if left = [] then .silent else ask holder left

theorem answer_of_mem {ask : σ → List κ → Reply ρ κ} {holder : σ} {left : List κ} {c : κ}
    (hc : c ∈ left) : answer ask holder left = ask holder left := by
  have hleft : left ≠ [] := List.ne_nil_of_mem hc
  simp [answer, hleft]

variable [DecidableEq κ]

/-- What a holder takes when its turn comes. -/
def taken (ask : σ → List κ → Reply ρ κ) (holder : σ) (left : List κ) : List κ :=
  left.filter (· ∈ (answer ask holder left).vouches)

/-- What a holder leaves to the next one. -/
def remaining (ask : σ → List κ → Reply ρ κ) (holder : σ) (left : List κ) : List κ :=
  left.filter (· ∉ (answer ask holder left).vouches)

/-- Ask each holder in turn. -/
def settle (ask : σ → List κ → Reply ρ κ) : List σ → List κ → Outcome σ ρ κ
  | [], left => ⟨[], [], left, []⟩
  | holder :: others, left =>
    let rest := settle ask others (remaining ask holder left)
    match answer ask holder left with
    | .silent => { rest with turns := (holder, left) :: rest.turns }
    | .doubted why has =>
      { rest with doubtful := (holder, why, has) :: rest.doubtful, turns := (holder, left) :: rest.turns }
    | .vouched _ =>
      { rest with held := (holder, taken ask holder left) :: rest.held, turns := (holder, left) :: rest.turns }

variable {ask : σ → List κ → Reply ρ κ} {holders others : List σ} {left : List κ} {c : κ}
  {holder : σ}

/-! ### One turn -/

theorem mem_taken : c ∈ taken ask holder left ↔
    c ∈ left ∧ c ∈ (answer ask holder left).vouches := by
  simp [taken]

theorem mem_remaining : c ∈ remaining ask holder left ↔
    c ∈ left ∧ c ∉ (answer ask holder left).vouches := by
  simp [remaining]

theorem remaining_sublist : (remaining ask holder left).Sublist left :=
  List.filter_sublist

theorem taken_append_remaining : (taken ask holder left ++ remaining ask holder left).Perm left := by
  simpa [taken, remaining] using
    List.filter_append_perm (fun c ↦ decide (c ∈ (answer ask holder left).vouches)) left

@[simp] theorem settle_nil : settle ask [] left = ⟨[], [], left, []⟩ := rfl

theorem settle_cons : settle ask (holder :: others) left =
    match answer ask holder left with
    | .silent => { settle ask others (remaining ask holder left) with
        turns := (holder, left) :: (settle ask others (remaining ask holder left)).turns }
    | .doubted why has => { settle ask others (remaining ask holder left) with
        doubtful := (holder, why, has) :: (settle ask others (remaining ask holder left)).doubtful
        turns := (holder, left) :: (settle ask others (remaining ask holder left)).turns }
    | .vouched _ => { settle ask others (remaining ask holder left) with
        held := (holder, taken ask holder left) :: (settle ask others (remaining ask holder left)).held
        turns := (holder, left) :: (settle ask others (remaining ask holder left)).turns } := rfl

@[simp] theorem settle_cons_left : (settle ask (holder :: others) left).left =
    (settle ask others (remaining ask holder left)).left := by
  rw [settle_cons]
  split <;> rfl

@[simp] theorem settle_cons_turns : (settle ask (holder :: others) left).turns =
    (holder, left) :: (settle ask others (remaining ask holder left)).turns := by
  rw [settle_cons]
  split <;> rfl

/-- Everything credited is credited in the first turn or in a later one. -/
theorem flatMap_held_cons : ((settle ask (holder :: others) left).held.flatMap Prod.snd) =
    taken ask holder left ++
      (settle ask others (remaining ask holder left)).held.flatMap Prod.snd := by
  rw [settle_cons]
  split
  · next hanswer => simp [taken, hanswer, Reply.vouches]
  · next hanswer => simp [taken, hanswer, Reply.vouches]
  · rfl

theorem mem_held_cons {credit : σ × List κ} : credit ∈ (settle ask (holder :: others) left).held ↔
    (credit = (holder, taken ask holder left) ∧ ∃ holds, answer ask holder left = .vouched holds) ∨
      credit ∈ (settle ask others (remaining ask holder left)).held := by
  rw [settle_cons]
  split
  · next hanswer => simp [hanswer]
  · next hanswer => simp [hanswer]
  · next hanswer => simp [hanswer]

theorem mem_doubtful_cons {doubt : σ × ρ × List κ} :
    doubt ∈ (settle ask (holder :: others) left).doubtful ↔
    (∃ why has, answer ask holder left = .doubted why has ∧ doubt = (holder, why, has)) ∨
      doubt ∈ (settle ask others (remaining ask holder left)).doubtful := by
  rw [settle_cons]
  split
  · next hanswer => simp [hanswer]
  · next hanswer => simp [hanswer]
  · next hanswer => simp [hanswer]

/-! ### A whole round -/

/-- Nothing is lost and nothing is counted twice. -/
theorem settle_perm (holders : List σ) (left : List κ) :
    ((settle ask holders left).held.flatMap Prod.snd ++ (settle ask holders left).left).Perm
      left := by
  induction holders generalizing left with
  | nil => simp
  | cons holder others ih =>
    rw [flatMap_held_cons, settle_cons_left, List.append_assoc]
    exact ((ih _).append_left _).trans taken_append_remaining

theorem settle_left_sublist (holders : List σ) (left : List κ) :
    (settle ask holders left).left.Sublist left := by
  induction holders generalizing left with
  | nil => exact List.Sublist.refl _
  | cons holder others ih =>
    rw [settle_cons_left]
    exact (ih _).trans remaining_sublist

/-- A credit is a turn: the holder was asked about part of the list and vouched for what it took. -/
theorem held_turn {credit : σ × List κ} (h : credit ∈ (settle ask holders left).held) :
    credit.1 ∈ holders ∧ ∃ turn holds, turn.Sublist left ∧ turn ≠ [] ∧
      ask credit.1 turn = .vouched holds ∧ credit.2 = turn.filter (· ∈ holds) := by
  induction holders generalizing left with
  | nil => cases h
  | cons holder others ih =>
    rcases mem_held_cons.mp h with ⟨rfl, holds, hanswer⟩ | h
    · have hleft : left ≠ [] := by
        rintro rfl
        simp [answer] at hanswer
      have hask : ask holder left = .vouched holds := by
        simpa [answer, hleft] using hanswer
      refine ⟨List.mem_cons_self, left, holds, List.Sublist.refl _, hleft, hask, ?_⟩
      simp [taken, hanswer, Reply.vouches]
    · obtain ⟨hholder, turn, holds, hturn, hne, hask, hcredit⟩ := ih h
      exact ⟨List.mem_cons_of_mem _ hholder, turn, holds, hturn.trans remaining_sublist, hne, hask,
        hcredit⟩

theorem mem_of_credited {credit : σ × List κ} (h : credit ∈ (settle ask holders left).held)
    (hc : c ∈ credit.2) : c ∈ left := by
  obtain ⟨_, turn, holds, hturn, _, _, hcredit⟩ := held_turn h
  rw [hcredit] at hc
  exact hturn.subset (List.mem_filter.mp hc).1

/-- What is credited is not left.

Assumes: the list has no member twice. -/
theorem not_left_of_credited (hnodup : left.Nodup) {credit : σ × List κ}
    (h : credit ∈ (settle ask holders left).held) (hc : c ∈ credit.2) :
    c ∉ (settle ask holders left).left := by
  have hall : ((settle ask holders left).held.flatMap Prod.snd ++
      (settle ask holders left).left).Nodup := (settle_perm holders left).nodup_iff.mpr hnodup
  exact fun hleft ↦ (List.nodup_append.mp hall).2.2 c (List.mem_flatMap.mpr ⟨credit, h, hc⟩) c
    hleft rfl

/-! ### Steady holders -/

/-- A member is credited to the first holder that would vouch for it.

Assumes: no holder's answer about the member turns on what else is left. -/
theorem credited_first {vouches : σ → Bool} {all : List κ}
    (hsteady : ∀ holder ∈ holders, ∀ turn, turn.Sublist all → c ∈ turn →
      (c ∈ (ask holder turn).vouches ↔ vouches holder = true))
    (hleft : left.Sublist all) (hc : c ∈ left) :
    (∃ credit ∈ (settle ask holders left).held, credit.1 = holder ∧ c ∈ credit.2) ↔
      holders.find? vouches = some holder := by
  induction holders generalizing left with
  | nil => simp
  | cons first others ih =>
    have hfirst : c ∈ (answer ask first left).vouches ↔ vouches first = true := by
      rw [answer_of_mem hc]
      exact hsteady first List.mem_cons_self left hleft hc
    by_cases hvouches : vouches first = true
    · -- the first one takes it, so none of the others is asked about it
      rw [List.find?_cons_of_pos hvouches, Option.some.injEq]
      have htaken : c ∈ taken ask first left := mem_taken.mpr ⟨hc, hfirst.mpr hvouches⟩
      constructor
      · rintro ⟨credit, hcredit, rfl, hmem⟩
        rcases mem_held_cons.mp hcredit with ⟨rfl, _⟩ | hcredit
        · rfl
        · exact absurd (hfirst.mpr hvouches) (mem_remaining.mp (mem_of_credited hcredit hmem)).2
      · rintro rfl
        exact ⟨_, mem_held_cons.mpr (Or.inl ⟨rfl, Reply.eq_vouched_of_mem (mem_taken.mp htaken).2⟩),
          rfl, htaken⟩
    · rw [List.find?_cons_of_neg hvouches]
      have hremains : c ∈ remaining ask first left :=
        mem_remaining.mpr ⟨hc, fun h ↦ hvouches (hfirst.mp h)⟩
      rw [← ih (fun other hother ↦ hsteady other (List.mem_cons_of_mem _ hother))
        (remaining_sublist.trans hleft) hremains]
      constructor
      · rintro ⟨credit, hcredit, rfl, hmem⟩
        rcases mem_held_cons.mp hcredit with ⟨rfl, _⟩ | hcredit
        · exact absurd (hfirst.mp (mem_taken.mp hmem).2) hvouches
        · exact ⟨credit, hcredit, rfl, hmem⟩
      · rintro ⟨credit, hcredit, rfl, hmem⟩
        exact ⟨credit, mem_held_cons.mpr (Or.inr hcredit), rfl, hmem⟩

/-- What a holder says of a member does not turn on which others it is asked about. -/
def Steady (ask : σ → List κ → Reply ρ κ) (all : List κ) (holder : σ) : Prop :=
  ∀ turn, turn.Sublist all → ∀ c ∈ turn,
    (c ∈ (ask holder turn).vouches ↔ c ∈ (ask holder all).vouches) ∧
    (c ∈ (ask holder turn).doubts ↔ c ∈ (ask holder all).doubts)

section Steady

variable {all : List κ}

/-- A steady holder leaves what it does not vouch for.

Assumes: the turn is part of the whole list. -/
theorem Steady.mem_remaining (h : Steady ask all holder) (hleft : left.Sublist all) :
    c ∈ remaining ask holder left ↔ c ∈ left ∧ c ∉ (ask holder all).vouches := by
  rw [Credit.mem_remaining]
  refine and_congr_right fun hc ↦ not_congr ?_
  rw [answer_of_mem hc]
  exact (h left hleft c hc).1

/-- Over steady holders, what nobody takes is what nobody vouches for.

Assumes: every holder is steady over the whole list. -/
theorem mem_settle_left (hsteady : ∀ holder ∈ holders, Steady ask all holder)
    (hleft : left.Sublist all) : c ∈ (settle ask holders left).left ↔
    c ∈ left ∧ ∀ holder ∈ holders, c ∉ (ask holder all).vouches := by
  induction holders generalizing left with
  | nil => simp
  | cons holder others ih =>
    rw [settle_cons_left, ih (fun other hother ↦ hsteady other (List.mem_cons_of_mem _ hother))
      (remaining_sublist.trans hleft),
      (hsteady holder List.mem_cons_self).mem_remaining hleft]
    simp [and_assoc]

/-- Over steady holders, what stays doubted is what somebody doubts and nobody takes.

Assumes: every holder is steady over the whole list. -/
theorem doubted_iff (hsteady : ∀ holder ∈ holders, Steady ask all holder)
    (hleft : left.Sublist all) (hc : c ∈ (settle ask holders left).left) :
    (∃ doubt ∈ (settle ask holders left).doubtful, c ∈ doubt.2.2) ↔
      ∃ holder ∈ holders, c ∈ (ask holder all).doubts := by
  induction holders generalizing left with
  | nil => simp
  | cons holder others ih =>
    have hothers : ∀ other ∈ others, Steady ask all other :=
      fun other hother ↦ hsteady other (List.mem_cons_of_mem _ hother)
    rw [settle_cons_left] at hc
    have hleave : c ∈ left := remaining_sublist.subset ((settle_left_sublist _ _).subset hc)
    have hfirst : (∃ why has, answer ask holder left = .doubted why has ∧ c ∈ has) ↔
        c ∈ (ask holder all).doubts := by
      rw [answer_of_mem hleave, ← (hsteady holder List.mem_cons_self left hleft c hleave).2]
      cases ask holder left <;> simp [Reply.doubts]
    have hrest := ih hothers (remaining_sublist.trans hleft) hc
    constructor
    · rintro ⟨doubt, hdoubt, hmem⟩
      rcases mem_doubtful_cons.mp hdoubt with ⟨why, has, hanswer, rfl⟩ | hdoubt
      · exact ⟨holder, List.mem_cons_self, hfirst.mp ⟨why, has, hanswer, hmem⟩⟩
      · obtain ⟨other, hother, hdoubts⟩ := hrest.mp ⟨doubt, hdoubt, hmem⟩
        exact ⟨other, List.mem_cons_of_mem _ hother, hdoubts⟩
    · rintro ⟨other, hother, hdoubts⟩
      rcases List.mem_cons.mp hother with rfl | hother
      · obtain ⟨why, has, hanswer, hmem⟩ := hfirst.mpr hdoubts
        exact ⟨_, mem_doubtful_cons.mpr (Or.inl ⟨why, has, hanswer, rfl⟩), hmem⟩
      · obtain ⟨doubt, hdoubt, hmem⟩ := hrest.mpr ⟨other, hother, hdoubts⟩
        exact ⟨doubt, mem_doubtful_cons.mpr (Or.inr hdoubt), hmem⟩

end Steady

end Nodal.Foundation.Credit
