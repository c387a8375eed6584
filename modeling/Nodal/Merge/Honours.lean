import Nodal.Merge.Runs

/-!
# Scripts under a contract

What the scripts of a merge need of a contract so that they keep it. Most commands of a script are
ones a contract about refs never forbids (`Lenient`); a script that moves a branch or writes a ref is
given the commands it does so with. `Honours` also says something of the value a script ends with,
which is how a script that reads a branch and then moves it is put together.
-/

set_option autoImplicit false

namespace Nodal.Merge

open Git Foundation Foundation.Attempt Lifecycle Plumbing

/-- A script keeps a contract, whatever the others do, and ends with an error or with a value for
which `P` holds. -/
def Honours (setting : Setting) (K : Contract Process World Command Command.Choice) {β : Type}
    (P : β → Prop) (x : Script β) : Prop :=
  ∀ process w, Safe (performance setting).beside K process
    (fun result _ ↦ ∀ value, result = .ok value → P value) x.run w

/-- The same of a script whose value does not matter. -/
abbrev Heeds (setting : Setting) (K : Contract Process World Command Command.Choice) {β : Type}
    (x : Script β) : Prop :=
  Honours setting K (fun _ ↦ True) x

/-- A contract never forbids a command. -/
def Allows (K : Contract Process World Command Command.Choice) (command : Command) : Prop :=
  ∀ process w, K.inv w → K.pre process command w

/-- A command that looks, or works on the branch the home is on, and rewrites nothing it had. -/
def Command.isPlain : Command → Bool
  | .resetKeep _ _ _ | .branchForce _ _ _ _ | .resetSoft _ | .fetchBranch _ _ | .updateRef _ _
  | .deleteRef _ | .snapshot _ => false
  | _ => true

/-- A contract that forbids none of these. -/
def Lenient (K : Contract Process World Command Command.Choice) : Prop :=
  ∀ command : Command, command.isPlain = true → Allows K command

section Rules

variable {setting : Setting} {K : Contract Process World Command Command.Choice} {β γ : Type}
  {P : β → Prop} {R : γ → Prop} {x : Script β} {f : β → Script γ} {command : Command}

theorem honours_pure {value : β} (h : P value) : Honours setting K P (pure value) :=
  fun _ _ _ _ _ _ hvalue ↦ Except.ok.inj hvalue ▸ h

theorem honours_throw {why : String} : Honours setting K P (throw why) :=
  fun _ _ _ _ _ _ hvalue ↦ nomatch hvalue

theorem honours_bind (hx : Honours setting K P x)
    (hf : ∀ value, P value → Honours setting K R (f value)) : Honours setting K R (x >>= f) := by
  intro process w
  refine safe_attempt_bind ((hx process w).mono fun result w' hresult ↦ ?_)
  cases result with
  | ok value => exact hf value (hresult value rfl) process w'
  | error why => exact fun _ _ _ _ hvalue ↦ nomatch hvalue

theorem heeds_bind (hx : Heeds setting K x) (hf : ∀ value, Honours setting K R (f value)) :
    Honours setting K R (x >>= f) :=
  honours_bind hx fun value _ ↦ hf value

theorem honours_call (hallows : Allows K command) {P : command.Answer → Prop}
    (h : ∀ choice w, K.inv w → P (perform setting command choice w).1) :
    Honours setting K P (call command) := by
  intro process w w' _ hinv
  refine ⟨hallows process w' hinv, fun choice _ _ _ _ value hvalue ↦ ?_⟩
  cases hvalue
  exact h choice w' hinv

theorem honours_ran (hallows : Allows K command) {P : command.Yields → Prop}
    (h : ∀ choice w value, K.inv w → (perform setting command choice w).1 = .ok value → P value) :
    Honours setting K P (ran command) := by
  refine honours_bind (P := fun answer ↦ ∀ value, answer = .ok value → P value)
    (honours_call hallows fun choice w hinv value ↦ h choice w value hinv) fun answer hanswer ↦ ?_
  rcases answer with (text | source) | value
  · exact honours_throw
  · exact honours_throw
  · exact honours_pure (hanswer value rfl)

theorem honours_asked (hallows : Allows K command) {P : Option command.Yields → Prop}
    (hnone : P none) (h : ∀ choice w value, K.inv w →
      (perform setting command choice w).1 = .ok value → P (some value)) :
    Honours setting K P (asked command) := by
  refine honours_bind (P := fun answer ↦ ∀ value, answer = .ok value → P (some value))
    (honours_call hallows fun choice w hinv value ↦ h choice w value hinv) fun answer hanswer ↦ ?_
  rcases answer with (text | source) | value
  · exact honours_pure hnone
  · exact honours_throw
  · exact honours_pure (hanswer value rfl)

theorem heeds_call (hallows : Allows K command) : Heeds setting K (call command) :=
  honours_call hallows fun _ _ _ ↦ trivial

theorem heeds_ran (hallows : Allows K command) : Heeds setting K (ran command) :=
  honours_ran hallows fun _ _ _ _ _ ↦ trivial

theorem heeds_asked (hallows : Allows K command) : Heeds setting K (asked command) :=
  honours_asked hallows trivial fun _ _ _ _ _ ↦ trivial

/-- What a script does keeps the contract and says nothing of what it answers. -/
theorem Heeds.safe (h : Heeds setting K x) (process : Process) (w : World) :
    Safe (performance setting).beside K process (fun _ _ ↦ True) x.run w :=
  (h process w).mono fun _ _ _ ↦ trivial

end Rules

/-! ### The scripts of a merge -/

section Scripts

variable {setting : Setting} {K : Contract Process World Command Command.Choice} {P : RefName → Prop}
  {branch name : RefName} {side : Side} {why : Why} {dest found onto : Oid}

theorem heeds_readRef (hK : Lenient K) : Heeds setting K (readRef side name) :=
  heeds_asked (hK _ rfl)

theorem heeds_rebasing (hK : Lenient K) : Heeds setting K rebasing := by
  refine heeds_bind (heeds_call (hK _ rfl)) fun answer ↦ ?_
  cases answer <;> exact honours_pure trivial

theorem heeds_isRebasing (hK : Lenient K) : Heeds setting K isRebasing :=
  heeds_bind (heeds_ran (hK _ rfl)) fun _ ↦ heeds_rebasing hK

theorem honours_isAncestor (hK : Lenient K) : Honours setting K
    (fun isAncestor ↦ isAncestor = true → found ∈ setting.reach dest)
    (isAncestor side found (some dest)) := by
  refine honours_bind (P := fun answer ↦ answer.isSome = true → found ∈ setting.reach dest)
    (honours_asked (hK _ rfl) (fun h ↦ by cases h) fun choice w value _ hvalue _ ↦ ?_)
    fun answer hanswer ↦ honours_pure hanswer
  cases choice with
  | error fault => cases hvalue
  | ok extra =>
    dsimp only [perform, act] at hvalue
    split at hvalue
    · next h => simpa [History.isAncestor] using h
    · cases hvalue

theorem heeds_moveBranch (hK : Lenient K) (hkeep : Allows K (.resetKeep side why dest))
    (hforce : Allows K (.branchForce side why branch dest)) :
    Heeds setting K (moveBranch side why branch dest) := by
  refine heeds_bind (heeds_bind (heeds_asked (hK _ rfl)) fun _ ↦ honours_pure trivial) fun out ↦ ?_
  cases out with
  | true => exact heeds_ran hkeep
  | false => exact heeds_ran hforce

theorem heeds_fastForward (hK : Lenient K) (h : ∀ found, found ∈ setting.reach dest →
    Allows K (.resetKeep .source (.forward found) dest) ∧
      Allows K (.branchForce .source (.forward found) branch dest)) :
    Heeds setting K (fastForward setting branch dest) := by
  refine heeds_bind (heeds_readRef hK) fun answer ↦ ?_
  cases answer with
  | none => exact honours_throw
  | some found =>
    dsimp only
    split
    · exact honours_pure trivial
    · refine honours_bind (honours_isAncestor hK) fun isAncestor hancestor ↦ ?_
      cases isAncestor with
      | false => exact honours_throw
      | true =>
        obtain ⟨hkeep, hforce⟩ := h found (hancestor rfl)
        exact heeds_bind (heeds_moveBranch hK hkeep hforce) fun _ ↦ honours_pure trivial

theorem heeds_restore (hK : Lenient K) (hkeep : Allows K (.resetKeep side .restore dest))
    (hforce : Allows K (.branchForce side .restore branch dest)) :
    Heeds setting K (restore side branch dest) := by
  refine heeds_bind (heeds_readRef hK) fun answer ↦ ?_
  split
  · exact honours_pure trivial
  · exact heeds_moveBranch hK hkeep hforce

theorem heeds_commitAll (hK : Lenient K) : Heeds setting K commitAll := by
  refine heeds_bind (heeds_ran (hK _ rfl)) fun _ ↦ heeds_bind (heeds_asked (hK _ rfl)) fun same ↦ ?_
  split
  · exact honours_pure trivial
  · refine heeds_bind (heeds_bind (heeds_asked (hK _ rfl)) fun _ ↦ honours_pure trivial) fun _ ↦ ?_
    exact heeds_bind (heeds_ran (hK _ rfl)) fun _ ↦ heeds_bind (heeds_ran (hK _ rfl)) fun _ ↦
      honours_pure trivial

theorem heeds_uncommit (hK : Lenient K) : Heeds setting K (uncommit dest) := by
  refine heeds_bind (heeds_ran (hK _ rfl)) fun head ↦ ?_
  split
  · exact honours_pure trivial
  · exact heeds_ran (hK _ rfl)

theorem heeds_squash (hK : Lenient K) (hfold : ∀ dest, Allows K (.resetSoft dest)) :
    Heeds setting K (squash onto) := by
  refine heeds_bind (heeds_ran (hK _ rfl)) fun base ↦ heeds_bind (heeds_ran (hK _ rfl)) fun count ↦ ?_
  split
  · exact honours_pure trivial
  · refine heeds_bind (heeds_bind (heeds_asked (hK _ rfl)) fun _ ↦ honours_pure trivial) fun _ ↦ ?_
    exact heeds_bind (heeds_ran (hK _ rfl)) fun dest ↦ heeds_bind (heeds_ran (hfold dest)) fun _ ↦
      honours_pure trivial

theorem heeds_runRebase (hK : Lenient K) {command : Command} (hcommand : command.isPlain = true) :
    Heeds setting K (runRebase command) := by
  refine heeds_bind (heeds_bind (heeds_asked (hK _ rfl)) fun _ ↦ honours_pure trivial) fun _ ↦ ?_
  refine heeds_bind (heeds_call (hK _ hcommand)) fun answer ↦ ?_
  rcases answer with (text | source) | value
  · refine heeds_bind (heeds_rebasing hK) fun stopped ↦ ?_
    cases stopped with
    | true => exact honours_pure trivial
    | false => exact honours_throw
  · exact honours_throw
  · exact honours_pure trivial

theorem heeds_resume (hK : Lenient K) : Heeds setting K resume := by
  refine heeds_bind (heeds_rebasing hK) fun stopped ↦ ?_
  split
  · exact honours_pure trivial
  · exact heeds_runRebase hK rfl

theorem heeds_rebase (hK : Lenient K) : Heeds setting K (rebase onto) := by
  refine heeds_bind (heeds_ran (hK _ rfl)) fun _ ↦ heeds_bind (heeds_rebasing hK) fun stopped ↦ ?_
  cases stopped with
  | true => exact heeds_resume hK
  | false =>
    refine heeds_bind (heeds_bind (heeds_asked (hK _ rfl)) fun _ ↦ honours_pure trivial)
      fun reached ↦ ?_
    cases reached with
    | true => exact honours_pure trivial
    | false => exact heeds_runRebase hK rfl

theorem heeds_abort (hK : Lenient K) : Heeds setting K Plumbing.abort := by
  refine heeds_bind (heeds_ran (hK _ rfl)) fun _ ↦ heeds_bind (heeds_rebasing hK) fun stopped ↦ ?_
  cases stopped with
  | true => exact heeds_ran (hK _ rfl)
  | false => exact honours_pure trivial

theorem heeds_fetchBranch (hK : Lenient K) (hfetch : Allows K (.fetchBranch branch name)) :
    Heeds setting K (fetchBranch setting branch name) := by
  refine heeds_bind (heeds_ran hfetch) fun _ ↦ heeds_bind (heeds_readRef hK) fun answer ↦ ?_
  cases answer with
  | none => exact honours_throw
  | some oid => exact honours_pure trivial

/-- What an invariant says of the branch a home is on. -/
theorem honours_branchOf (hK : Lenient K)
    (hbranch : ∀ w branch, K.inv w → w.home.head = .symbolic branch → P branch) :
    Honours setting K P (branchOf setting) := by
  refine honours_bind (P := fun answer ↦ ∀ branch, answer = some branch → P branch)
    (honours_asked (hK _ rfl) (fun _ h ↦ by cases h) ?_) fun answer hanswer ↦ ?_
  · rintro choice w value hinv hvalue branch ⟨⟩
    cases choice with
    | error fault => cases hvalue
    | ok extra =>
      dsimp only [perform, act] at hvalue
      split at hvalue
      · next name hhead =>
        obtain rfl : name = value := Except.ok.inj hvalue
        exact hbranch w name hinv hhead
      · cases hvalue
  · cases answer with
    | none => exact honours_throw
    | some branch => exact honours_pure (hanswer branch rfl)

theorem heeds_restoreHead (hK : Lenient K)
    (hbranch : ∀ w branch, K.inv w → w.home.head = .symbolic branch → P branch)
    (hkeep : ∀ dest, Allows K (.resetKeep .home .restore dest))
    (hforce : ∀ branch dest, P branch → Allows K (.branchForce .home .restore branch dest)) :
    Heeds setting K (restoreHead setting name) := by
  refine heeds_bind (heeds_readRef hK) fun answer ↦ ?_
  cases answer with
  | none => exact honours_pure trivial
  | some oid =>
    refine honours_bind (honours_branchOf hK hbranch) fun branch hP ↦ ?_
    exact heeds_restore hK (hkeep oid) (hforce branch oid hP)

theorem heeds_markerOf (hK : Lenient K) : Heeds setting K (markerOf setting) := by
  refine heeds_bind (heeds_ran (hK _ rfl)) fun marker ↦ ?_
  cases marker with
  | none => exact honours_throw
  | some unit => exact honours_pure trivial

theorem heeds_deleteRef (hdelete : Allows K (.deleteRef name)) : Heeds setting K (deleteRef name) :=
  heeds_ran hdelete

theorem heeds_snapshot (hK : Lenient K) {id : OperationId}
    (hsnapshot : Allows K (.snapshot (pre setting.unit (toString id)))) :
    Heeds setting K (snapshot setting id) := by
  refine heeds_bind (heeds_call (hK _ rfl)) fun answer ↦ ?_
  cases answer with
  | error fault => exact honours_pure trivial
  | ok _ => exact heeds_ran hsnapshot

theorem heeds_abortMerge (hK : Lenient K) (hkeep : ∀ dest, Allows K (.resetKeep .home .restore dest))
    (hforce : ∀ dest, Allows K (.branchForce .home .restore setting.branch dest))
    (hrecord : Allows K (.deleteRef (premerge setting.unit)))
    (hfetched : Allows K (.deleteRef (target setting.unit))) :
    Heeds setting K (abortMerge setting) := by
  refine heeds_bind (heeds_isRebasing hK) fun stopped ↦ ?_
  cases stopped with
  | false => exact honours_throw
  | true =>
    refine heeds_bind (heeds_abort hK) fun _ ↦ heeds_bind (heeds_readRef hK) fun answer ↦ ?_
    cases answer with
    | none => exact heeds_deleteRef hfetched
    | some oid =>
      exact heeds_bind (heeds_restore hK (hkeep oid) (hforce oid)) fun _ ↦
        heeds_bind (heeds_deleteRef hrecord) fun _ ↦ heeds_deleteRef hfetched

/-- The last step of a merge. -/
theorem heeds_forward (hK : Lenient K) {goal : Target} (h : ∀ found dest, found ∈ setting.reach dest →
    Allows K (.resetKeep .source (.forward found) dest) ∧
      Allows K (.branchForce .source (.forward found) goal.branch dest)) :
    Heeds setting K (Forward setting goal).apply := by
  refine heeds_bind (heeds_isRebasing hK) fun stopped ↦ ?_
  cases stopped with
  | true => exact honours_pure trivial
  | false =>
    refine heeds_bind (heeds_ran (hK _ rfl)) fun tip ↦ heeds_bind (heeds_ran (hK _ rfl)) fun _ ↦ ?_
    exact heeds_bind (heeds_fastForward hK fun found ↦ h found tip) fun _ ↦ honours_pure trivial

end Scripts

end Nodal.Merge
