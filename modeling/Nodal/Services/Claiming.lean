import Nodal.Foundation.Contract
import Nodal.Services.Statements

/-!
# What a call may count on while others make statements

The contract of a call: what holds between two statements, what the others leave of what the call has
seen, and that a claim is of a port of the block of its environment's project. Every call keeps it,
and ends as `Ends` says: a port that was answered is of the block and its row is there, and a block
that was called full has been held throughout, unless a release has crossed a second grant.
-/

set_option autoImplicit false

namespace Nodal.Services

open Foundation Foundation.Attempt

/-! ### What a call may count on -/

section Calls

variable {ι : Type} (project : EnvId → ProjectId)

/-- An environment holds a port under a name. -/
def Registry.Named (registry : Registry) (environment : EnvId) (name : PortName) : Prop :=
  ∃ port grant, registry.allocations.table.get? port = some grant ∧
    grant.environmentId = environment ∧ grant.name = name

/-- Between two statements: blocks are aligned, a port that is held is in the block of its holder's
project, and every call has seen the ports that are held. -/
structure Kept (w : World ι) : Prop where
  aligned : ∀ block ∈ w.registry.blocks.rows, block.Aligned
  inside : ∀ {port grant}, w.registry.allocations.table.get? port = some grant →
    grant.projectId = project grant.environmentId ∧
      ∃ block ∈ w.registry.blocks.rows, block.projectId = grant.projectId ∧ block.Contains port
  held : ∀ i {port grant}, w.registry.allocations.table.get? port = some grant →
    port ∈ (w.since i).held

/-- What the others leave of what a call has seen. -/
structure Outlasts (i : ι) (w w' : World ι) : Prop where
  blocks : ∀ block ∈ w.registry.blocks.rows, block ∈ w'.registry.blocks.rows
  held : ∀ port ∈ (w.since i).held, port ∈ (w'.since i).held
  refused : (w'.since i).refused = (w.since i).refused
  crossed : (w.since i).crossed = true → (w'.since i).crossed = true
  released : ∀ environment ∈ (w.since i).released, environment ∈ (w'.since i).released
  rows : ∀ {port grant}, w.registry.allocations.table.get? port = some grant →
    w'.registry.allocations.table.get? port = some grant ∨
      grant.environmentId ∈ (w'.since i).released
  names : ∀ {environment name}, (environment, name) ∈ (w.since i).refused →
    w.registry.Named environment name →
      w'.registry.Named environment name ∨ (w'.since i).crossed = true

theorem Outlasts.refl (i : ι) (w : World ι) : Outlasts i w w :=
  ⟨fun _ h ↦ h, fun _ h ↦ h, rfl, id, fun _ h ↦ h, .inl, fun _ ↦ .inl⟩

theorem Outlasts.trans {i : ι} {w w' w'' : World ι} (h : Outlasts i w w')
    (h' : Outlasts i w' w'') : Outlasts i w w'' where
  blocks block hblock := h'.blocks block (h.blocks block hblock)
  held port hport := h'.held port (h.held port hport)
  refused := h'.refused.trans h.refused
  crossed hcrossed := h'.crossed (h.crossed hcrossed)
  released environment hgone := h'.released environment (h.released environment hgone)
  rows hrow := (h.rows hrow).elim h'.rows fun hgone ↦ .inr (h'.released _ hgone)
  names hrefused hnamed := (h.names hrefused hnamed).elim
    (h'.names (h.refused ▸ hrefused)) fun hcrossed ↦ .inr (h'.crossed hcrossed)

/-- A claim is of a port of the block of the environment's project. -/
def Claims (effect : Effect) (w : World ι) : Prop :=
  ∀ allocation, effect = .claim allocation →
    allocation.projectId = project allocation.environmentId ∧
      ∃ block ∈ w.registry.blocks.rows, block.projectId = allocation.projectId ∧
        block.Contains allocation.port

variable {project} {i : ι} {w w' : World ι} {effect : Effect}

theorem claims_of_ne (h : ∀ allocation, effect ≠ .claim allocation) : Claims project effect w :=
  fun allocation heq ↦ absurd heq (h allocation)

/-! ### What a call ends with -/

/-- What an environment was answered for a name: a port of the block, whose row is there unless the
environment's ports have been given back since the call began. -/
def GrantedOne (i : ι) (block : PortBlock) (environment : EnvId) (name : PortName) (port : ℕ)
    (w : World ι) : Prop :=
  block.Contains port ∧ (environment ∈ (w.since i).released ∨
    w.registry.allocations.table.get? port = some ⟨block.projectId, environment, name⟩)

/-- Every port of a block has been held since the call began, or a release has crossed a second grant
of the call's. -/
def Full (i : ι) (block : PortBlock) (w : World ι) : Prop :=
  (w.since i).crossed = true ∨ ∀ port, block.Contains port → port ∈ (w.since i).held

/-- How the grant of one name ends. -/
def OneEnds (i : ι) (block : PortBlock) (environment : EnvId) (name : PortName)
    (result : Except Error ℕ) (w : World ι) : Prop :=
  match result with
  | .ok port => GrantedOne i block environment name port w
  | .error error => error = .store ∨
    error = .portBlockFull environment block.first block.last ∧ Full i block w

theorem GrantedOne.outlasts {block : PortBlock} {environment : EnvId} {name : PortName} {port : ℕ}
    (h : GrantedOne i block environment name port w) (hrely : Outlasts i w w') :
    GrantedOne i block environment name port w' :=
  ⟨h.1, h.2.elim (fun hgone ↦ .inl (hrely.released _ hgone)) fun hrow ↦ (hrely.rows hrow).symm⟩

theorem Full.outlasts {block : PortBlock} (h : Full i block w) (hrely : Outlasts i w w') :
    Full i block w' :=
  h.imp hrely.crossed fun hheld port hport ↦ hrely.held port (hheld port hport)

theorem OneEnds.outlasts {block : PortBlock} {environment : EnvId} {name : PortName}
    {result : Except Error ℕ} (h : OneEnds i block environment name result w)
    (hrely : Outlasts i w w') : OneEnds i block environment name result w' := by
  cases result with
  | ok port => exact GrantedOne.outlasts h hrely
  | error error => exact h.imp id fun hfull ↦ ⟨hfull.1, hfull.2.outlasts hrely⟩

/-- Why a port that was passed over is no reason to call the block free: it has been held, or the name
was refused, and the grant that refused it is there. -/
def Passed (i : ι) (environment : EnvId) (name : PortName) (port : ℕ) (w : World ι) : Prop :=
  port ∈ (w.since i).held ∨ (w.since i).crossed = true ∨
    (environment, name) ∈ (w.since i).refused ∧ w.registry.Named environment name

theorem Passed.outlasts {environment : EnvId} {name : PortName} {port : ℕ}
    (h : Passed i environment name port w) (hrely : Outlasts i w w') :
    Passed i environment name port w' := by
  rcases h with hheld | hcrossed | ⟨hrefused, hnamed⟩
  · exact .inl (hrely.held port hheld)
  · exact .inr (.inl (hrely.crossed hcrossed))
  · rcases hrely.names hrefused hnamed with hnamed' | hcrossed
    · exact .inr (.inr ⟨hrely.refused ▸ hrefused, hnamed'⟩)
    · exact .inr (.inl hcrossed)

variable (project)

/-- What each call may count on and what it owes. -/
def contract : Contract ι (World ι) Effect Effect.Choice where
  inv := Kept project
  rely := Outlasts
  rely_refl := Outlasts.refl
  rely_trans _ _ _ _ := Outlasts.trans
  assume _ _ _ _ := True
  pre _ effect w := Claims project effect w

/-- What a call still does keeps the contract. -/
abbrev SafeCall [DecidableEq ι] {β : Type} (i : ι) (Q : β → World ι → Prop)
    (p : Program Effect Effect.Answered β) (w : World ι) : Prop :=
  Safe (machine ι project) (contract project) i Q p w

variable [DecidableEq ι] {project} {j : ι}

/-! ### What a statement leaves -/

/-- The world after a statement that does not fail. -/
abbrev World.after (w : World ι) (i : ι) (effect : Effect) (outside : effect.Outside) : World ι :=
  (perform i effect (some outside) w).2

theorem since_after_of_ne (outside : effect.Outside) (h : j ≠ i) :
    (w.after i effect outside).since j =
      (w.since j).note effect (statement effect outside w.registry).2 :=
  if_neg h

theorem since_after_self (outside : effect.Outside) : (w.after i effect outside).since i =
    ((w.since i).note effect (statement effect outside w.registry).2).noteOwn effect w.registry :=
  if_pos rfl

/-- A statement of a call's own changes nothing it has seen but the names it was refused under. -/
theorem since_after_held (outside : effect.Outside) (j : ι) :
    ((w.after i effect outside).since j).held =
      (statement effect outside w.registry).2.heldPorts ++ (w.since j).held := by
  by_cases hji : j = i
  · rw [hji, since_after_self]
    rfl
  · rw [since_after_of_ne outside hji]
    rfl

theorem mem_heldPorts {registry : Registry} {port : ℕ} {grant : Grant}
    (h : registry.allocations.table.get? port = some grant) : port ∈ registry.heldPorts :=
  List.mem_map.mpr ⟨⟨grant, port⟩, PortAllocations.mem_list.mpr h, rfl⟩

/-- A statement whose claim is of the environment's block keeps what holds between two statements. -/
theorem Kept.after (hkept : Kept project w) (hclaims : Claims project effect w)
    (outside : effect.Outside) : Kept project (w.after i effect outside) where
  aligned block hblock :=
    ((statement_blocks _ outside w.registry).2 block hblock).elim (hkept.aligned block) id
  inside {port grant} hrow := by
    have hstays := (statement_blocks _ outside w.registry).1
    rcases statement_adds _ outside w.registry hrow with hold | heq
    · obtain ⟨hproject, block, hblock, hcontains⟩ := hkept.inside hold
      exact ⟨hproject, block, hstays block hblock, hcontains⟩
    · obtain ⟨hproject, block, hblock, hcontains⟩ := hclaims _ heq
      exact ⟨hproject, block, hstays block hblock, hcontains⟩
  held j port grant hrow := by
    rw [since_after_held]
    exact List.mem_append_left _ (mem_heldPorts hrow)

/-- A statement of one call leaves what the others have seen. -/
theorem outlasts_after (hji : j ≠ i) (outside : effect.Outside) :
    Outlasts j w (w.after i effect outside) where
  blocks := (statement_blocks _ outside w.registry).1
  held port hport := by
    rw [since_after_held]
    exact List.mem_append_right _ hport
  refused := by
    rw [since_after_of_ne outside hji]
    rfl
  crossed hcrossed := by
    rw [since_after_of_ne outside hji]
    exact Bool.or_eq_true_iff.mpr (.inl hcrossed)
  released environment hgone := by
    rw [since_after_of_ne outside hji]
    cases effect with
    | releaseAll other => exact List.mem_cons_of_mem _ hgone
    | _ => exact hgone
  rows {port grant} hrow := by
    refine (statement_keeps _ outside w.registry hrow).imp id fun heq ↦ ?_
    subst heq
    rw [since_after_of_ne outside hji]
    exact List.mem_cons_self
  names {environment name} hrefused := by
    rintro ⟨port, grant, hrow, rfl, rfl⟩
    refine (statement_keeps _ outside w.registry hrow).imp (fun hrow' ↦ ⟨port, grant, hrow', rfl, rfl⟩)
      fun heq ↦ ?_
    subst heq
    rw [since_after_of_ne outside hji]
    exact Bool.or_eq_true_iff.mpr (.inr (List.any_eq_true.mpr ⟨_, hrefused, decide_eq_true rfl⟩))

/-- What one call begins or ends with is nothing to the others. -/
theorem outlasts_since (since : Since) (hji : j ≠ i) :
    Outlasts j w { w with since := Function.update w.since i since } := by
  have hsince : Function.update w.since i since j = w.since j := Function.update_of_ne hji _ _
  constructor <;> simp_all

/-- A call begins or ends with the ports that are held among those it has seen. -/
theorem Kept.since (hkept : Kept project w) {since : Since}
    (h : ∀ {port grant}, w.registry.allocations.table.get? port = some grant → port ∈ since.held) :
    Kept project { w with since := Function.update w.since i since } where
  aligned := hkept.aligned
  inside := hkept.inside
  held j port grant hrow := by
    by_cases hji : j = i
    · subst hji
      simpa using h hrow
    · simpa [Function.update_of_ne hji] using hkept.held j hrow

/-! ### The programs -/

section Programs

variable {β : Type} {Q : Except Error β → World ι → Prop}

/-- A statement that may fail, and what follows it. -/
theorem safe_ask {f : effect.Answer → Script β} (hstore : ∀ w, Q (.error .store) w)
    (h : ∀ w', Outlasts i w w' → Kept project w' → Claims project effect w' ∧
      ∀ outside, SafeCall project i Q (f (statement effect outside w'.registry).1).run
        (w'.after i effect outside)) :
    SafeCall project i Q (ask effect >>= f).run w := by
  intro w' hrely hkept
  obtain ⟨hclaims, hafter⟩ := h w' hrely hkept
  refine ⟨hclaims, fun choice _ ↦ ?_⟩
  cases choice with
  | none => exact fun w'' _ _ ↦ hstore w''
  | some outside => exact hafter outside

/-- A call that ends with what the others cannot change. -/
theorem safe_result {result : Except Error β} (h : ∀ w', Outlasts i w w' → Kept project w' → Q result w') :
    SafeCall project i Q (.done result) w :=
  h

end Programs

/-- A port that was passed over stays so while the call claims the next. -/
theorem Passed.claimed {environment : EnvId} {name : PortName} {port : ℕ}
    {allocation : PortAllocation} (h : Passed i environment name port w) :
    Passed i environment name port (w.after i (.claim allocation) ()) := by
  rcases h with hheld | hcrossed | ⟨hrefused, found, grant, hrow, hgrant⟩
  · refine .inl ?_
    rw [since_after_held]
    exact List.mem_append_right _ hheld
  · refine .inr (.inl ?_)
    rw [since_after_self]
    exact Bool.or_eq_true_iff.mpr (.inl hcrossed)
  · refine .inr (.inr ⟨?_, found, grant, ?_, hgrant⟩)
    · rw [since_after_self]
      dsimp only [Since.noteOwn, Since.note]
      split
      · exact List.mem_cons_of_mem _ hrefused
      · exact hrefused
    · exact (statement_keeps (.claim allocation) () w.registry hrow).resolve_right
        Effect.noConfusion

/-- A claim that is refused passes its port over. -/
theorem passed_of_refused {allocation : PortAllocation}
    (hkept : Kept project w) (h : (w.registry.allocations.claim allocation).1 = false) :
    Passed i allocation.environmentId allocation.name allocation.port
      (w.after i (.claim allocation) ()) := by
  rcases PortAllocations.claim_cases w.registry.allocations allocation with
    ⟨htrue, _⟩ | ⟨hrefused, hport | hname⟩
  · rw [h] at htrue
    cases htrue
  · -- the port is held
    obtain ⟨grant, hrow⟩ := Option.isSome_iff_exists.mp hport
    refine .inl ?_
    rw [since_after_held]
    exact List.mem_append_right _ (hkept.held i hrow)
  · cases hrow : w.registry.allocations.table.get? allocation.port with
    | some grant =>
      refine .inl ?_
      rw [since_after_held]
      exact List.mem_append_right _ (hkept.held i hrow)
    | none =>
      -- the port is free, and the environment has one under this name
      refine .inr (.inr ⟨?_, ?_⟩)
      · rw [since_after_self]
        dsimp only [Since.noteOwn]
        rw [if_pos ⟨hrow, hname⟩]
        exact List.mem_cons_self
      · obtain ⟨found, hfound⟩ := Option.isSome_iff_exists.mp hname
        obtain ⟨hgrant, henvironment, hsame⟩ := PortAllocations.findByName_eq_some hfound
        refine ⟨found.port, found.toGrant, ?_, henvironment, hsame⟩
        exact (statement_keeps (.claim allocation) () w.registry hgrant).resolve_right
          Effect.noConfusion

/-! ### Granting one port -/

section Grants

variable {block : PortBlock} {environment : EnvId} {name : PortName}

/-- The name is read, and then what follows. -/
theorem safe_held {β : Type} {Q : Except Error β → World ι → Prop} {f : Option ℕ → Script β}
    (hstore : ∀ w, Q (.error .store) w)
    (h : ∀ w', Outlasts i w w' → Kept project w' → SafeCall project i Q
      (f ((w'.registry.allocations.findByName environment name).map PortAllocation.port)).run
      (w'.after i (.findByName environment name) ())) :
    SafeCall project i Q (held environment name >>= f).run w := by
  refine safe_attempt_bind (safe_ask (fun w' ↦ ?_) fun w' hrely hkept ↦ ⟨?_, fun outside ↦ ?_⟩)
  · exact safe_result fun w'' _ _ ↦ hstore w''
  · exact claims_of_ne fun _ ↦ Effect.noConfusion
  · exact safe_result fun w'' hrely' _ ↦ (h w' hrely hkept).rely hrely'

/-- A port the record names is one of the block's. -/
theorem granted_of_found {allocation : PortAllocation} (hkept : Kept project w)
    (hproject : block.projectId = project environment) (hblock : block ∈ w.registry.blocks.rows)
    (hfound : w.registry.allocations.findByName environment name = some allocation) :
    GrantedOne i block environment name allocation.port
      (w.after i (.findByName environment name) ()) := by
  obtain ⟨hrow, rfl, rfl⟩ := PortAllocations.findByName_eq_some hfound
  obtain ⟨hgrant, other, hother, hsame, hcontains⟩ := hkept.inside hrow
  have hprojects : block.projectId = other.projectId := by rw [hproject, ← hgrant, hsame]
  obtain rfl := PortBlocks.eq_of_projectId hblock hother hprojects
  exact ⟨hcontains, .inr (by rw [hsame]; exact hrow)⟩

theorem safe_claimFirst {ports : List ℕ} (hproject : block.projectId = project environment)
    (hblock : block ∈ w.registry.blocks.rows) (hports : ∀ port ∈ ports, block.Contains port)
    (hpassed : ∀ port, block.Contains port → port ∉ ports → Passed i environment name port w) :
    SafeCall project i (OneEnds i block environment name)
      (claimFirst block environment name ports).run w := by
  induction ports generalizing w with
  | nil =>
    unfold claimFirst
    refine safe_held (fun _ ↦ .inl rfl) fun w' hrely hkept ↦ ?_
    cases hfound : w'.registry.allocations.findByName environment name with
    | some allocation =>
      have hgranted := granted_of_found (i := i) hkept hproject (hrely.blocks block hblock) hfound
      exact safe_result fun w'' hrely' _ ↦ hgranted.outlasts hrely'
    | none =>
      refine safe_result fun w'' hrely' _ ↦ .inr ⟨rfl, ?_⟩
      refine Full.outlasts (w := w'.after i (.findByName environment name) ()) ?_ hrely'
      by_cases hcrossed : (w'.since i).crossed = true
      · refine .inl ?_
        rw [since_after_self]
        exact Bool.or_eq_true_iff.mpr (.inl hcrossed)
      · refine .inr fun port hport ↦ ?_
        rw [since_after_held]
        refine List.mem_append_right _ ?_
        rcases (hpassed port hport List.not_mem_nil).outlasts hrely with hheld | hcross | ⟨_, hnamed⟩
        · exact hheld
        · exact absurd hcross hcrossed
        · -- the grant that refused the name would have been found
          obtain ⟨_, grant, hrow, henvironment, hname⟩ := hnamed
          exact absurd hname (PortAllocations.findByName_eq_none hfound hrow henvironment)
  | cons port ports ih =>
    obtain ⟨hport, hothers⟩ := List.forall_mem_cons.mp hports
    unfold claimFirst
    refine safe_ask (fun _ ↦ .inl rfl) fun w' hrely hkept ↦ ⟨?_, fun _ ↦ ?_⟩
    · rintro _ ⟨⟩
      exact ⟨hproject, block, hrely.blocks block hblock, rfl, hport⟩
    · change SafeCall project i (OneEnds i block environment name)
        (if (w'.registry.allocations.claim ⟨⟨block.projectId, environment, name⟩, port⟩).1 = true then
          return port else claimFirst block environment name ports : Script ℕ).run _
      cases hclaim : (w'.registry.allocations.claim ⟨⟨block.projectId, environment, name⟩, port⟩).1 with
      | true =>
        rw [if_pos rfl]
        have hgranted : GrantedOne i block environment name port (w'.after i
            (.claim ⟨⟨block.projectId, environment, name⟩, port⟩) ()) := by
          refine ⟨hport, .inr ?_⟩
          rcases PortAllocations.claim_cases w'.registry.allocations
            ⟨⟨block.projectId, environment, name⟩, port⟩ with ⟨_, hrows, _⟩ | ⟨hrefused, _⟩
          · exact (hrows port).trans (if_pos rfl)
          · rw [hrefused] at hclaim
            cases hclaim
        exact safe_result fun w'' hrely' _ ↦ hgranted.outlasts hrely'
      | false =>
        rw [if_neg Bool.false_ne_true]
        refine ih (hrely.blocks block hblock) hothers fun other hother hnot ↦ ?_
        by_cases hsame : other = port
        · subst hsame
          exact passed_of_refused hkept hclaim
        · exact ((hpassed other hother (by simp [hsame, hnot])).outlasts hrely).claimed

theorem safe_allocateOne (name : PortName) (hproject : block.projectId = project environment)
    (hblock : block ∈ w.registry.blocks.rows) :
    SafeCall project i (OneEnds i block environment name)
      (allocateOne block environment name).run w := by
  unfold allocateOne
  refine safe_held (fun _ ↦ .inl rfl) fun w' hrely hkept ↦ ?_
  have hblock' := hrely.blocks block hblock
  cases hfound : w'.registry.allocations.findByName environment name with
  | some allocation =>
    have hgranted := granted_of_found (i := i) hkept hproject hblock' hfound
    exact safe_result fun w'' hrely' _ ↦ hgranted.outlasts hrely'
  | none =>
    refine safe_ask (fun _ ↦ .inl rfl) fun t hrely' hkept' ↦ ⟨?_, fun _ ↦ ?_⟩
    · exact claims_of_ne fun _ ↦ Effect.noConfusion
    · refine safe_claimFirst hproject (hrely'.blocks block hblock') (fun port hport ↦ ?_)
        fun port hport hskipped ↦ .inl ?_
      · exact PortBlock.mem_ports.mp (List.mem_filter.mp hport).1
      · -- a port that is not tried was held when the block was read
        have htaken : port ∈ (t.registry.allocations.listInRange block.first block.last).map
            PortAllocation.port := by
          by_contra hfree
          exact hskipped (List.mem_filter.mpr ⟨PortBlock.mem_ports.mpr hport, decide_eq_true hfree⟩)
        obtain ⟨row, hrow, rfl⟩ := List.mem_map.mp htaken
        rw [since_after_held]
        exact List.mem_append_right _ (hkept'.held i (PortAllocations.mem_listInRange.mp hrow).1)

/-- A statement that gives no ports back leaves what a call was granted. -/
theorem GrantedOne.performed {port : ℕ} (h : GrantedOne i block environment name port w)
    (hkeeps : ∀ other, effect ≠ .releaseAll other) (choice : effect.Choice) :
    GrantedOne i block environment name port (perform i effect choice w).2 := by
  refine ⟨h.1, ?_⟩
  cases choice with
  | none => simpa [perform] using h.2
  | some outside =>
    refine h.2.imp (fun hgone ↦ ?_) fun hrow ↦
      (statement_keeps _ outside w.registry hrow).resolve_right (hkeeps _)
    rw [since_after_self]
    cases effect with
    | releaseAll other => exact List.mem_cons_of_mem _ hgone
    | _ => exact hgone

theorem mem_blocks_performed (h : block ∈ w.registry.blocks.rows) (choice : effect.Choice) :
    block ∈ (perform i effect choice w).2.registry.blocks.rows := by
  cases choice with
  | none => exact h
  | some outside => exact (statement_blocks _ outside w.registry).1 block h

/-- A statement that gives no ports back. -/
def Keeps (effect : Effect) : Prop :=
  ∀ environment, effect ≠ .releaseAll environment

theorem uses_ask {β : Type} {f : effect.Answer → Script β} {allowed : Effect → Prop}
    (heffect : allowed effect) (hf : ∀ answer, (f answer).run.Uses allowed) :
    (ask effect >>= f).run.Uses allowed :=
  uses_bind ⟨heffect, fun _ ↦ trivial⟩ hf

theorem uses_held {β : Type} {f : Option ℕ → Script β} (hf : ∀ port, (f port).run.Uses Keeps) :
    (held environment name >>= f).run.Uses Keeps :=
  uses_bind (uses_ask (fun _ ↦ Effect.noConfusion) fun _ ↦ trivial) hf

theorem uses_claimFirst (ports : List ℕ) :
    (claimFirst block environment name ports).run.Uses Keeps := by
  induction ports with
  | nil =>
    refine uses_held fun port ↦ ?_
    cases port <;> trivial
  | cons port ports ih =>
    refine uses_ask (fun _ ↦ Effect.noConfusion) fun claimed ↦ ?_
    cases claimed with
    | true => trivial
    | false => exact ih

theorem uses_allocateOne : (allocateOne block environment name).run.Uses Keeps := by
  refine uses_held fun port ↦ ?_
  cases port with
  | some port => trivial
  | none => exact uses_ask (fun _ ↦ Effect.noConfusion) fun _ ↦ uses_claimFirst _

/-- How the grant of several names ends: each is granted, beside what was granted already. -/
def AllEnd (i : ι) (block : PortBlock) (environment : EnvId) (names : List PortName)
    (result : Except Error Ports) (w : World ι) : Prop :=
  match result with
  | .ok granted => (∀ name ∈ names, (granted.get? name).isSome = true) ∧
    ∀ name port, granted.get? name = some port → GrantedOne i block environment name port w
  | .error error => error = .store ∨
    error = .portBlockFull environment block.first block.last ∧ Full i block w

theorem safe_allocateInto (known : List PortName) {granted : Ports} {names : List PortName}
    (hproject : block.projectId = project environment) (hblock : block ∈ w.registry.blocks.rows)
    (hknown : ∀ name ∈ known, (granted.get? name).isSome = true)
    (hgranted : ∀ name port, granted.get? name = some port →
      GrantedOne i block environment name port w) :
    SafeCall project i (AllEnd i block environment (known ++ names))
      (allocateInto block environment granted names).run w := by
  induction names generalizing w granted known with
  | nil =>
    refine safe_result fun w' hrely _ ↦ ⟨fun name hname ↦ hknown name (by simpa using hname), ?_⟩
    exact fun name port hport ↦ (hgranted name port hport).outlasts hrely
  | cons name names ih =>
    unfold allocateInto
    -- what was granted already outlasts the grant of this name
    have hframed := Safe.frame (F := fun w ↦ block ∈ w.registry.blocks.rows ∧ ∀ name port,
        granted.get? name = some port → GrantedOne i block environment name port w)
      uses_allocateOne
      (fun _ _ (hrely : Outlasts i _ _) h ↦ ⟨hrely.blocks block h.1, fun name port hport ↦
        (h.2 name port hport).outlasts hrely⟩)
      (fun _ choice _ hkeeps h ↦ ⟨mem_blocks_performed h.1 choice, fun name port hport ↦
        (h.2 name port hport).performed hkeeps choice⟩)
      (safe_allocateOne name hproject hblock) ⟨hblock, hgranted⟩
    refine safe_attempt_bind (hframed.mono fun result w' hends ↦ ?_)
    cases result with
    | error error => exact safe_result fun w'' hrely _ ↦ OneEnds.outlasts hends.1 hrely
    | ok port =>
      obtain ⟨hone, hblock', hothers⟩ := hends
      have hsplit : known ++ name :: names = (known ++ [name]) ++ names := by simp
      rw [hsplit]
      refine ih (known ++ [name]) hblock' (fun other hother ↦ ?_) fun other found hfound ↦ ?_
      · rw [Table.get?_set]
        split
        · rfl
        · next hne => exact hknown other (by simpa [hne] using hother)
      · rw [Table.get?_set] at hfound
        split at hfound
        · next heq =>
          obtain rfl := Option.some.inj hfound
          exact heq ▸ hone
        · exact hothers other found hfound

theorem safe_allocate {names : List PortName} (hproject : block.projectId = project environment)
    (hblock : block ∈ w.registry.blocks.rows) :
    SafeCall project i (AllEnd i block environment names)
      (allocate block environment names).run w :=
  safe_allocateInto [] hproject hblock (fun _ h ↦ by cases h) fun _ _ h ↦ by cases h

end Grants

/-! ### The other calls -/

section Others

variable {β γ : Type}

/-- A call does not end with a sum that does not fit its type. -/
def Fits (result : Except Error β) (_ : World ι) : Prop :=
  result ≠ .error .overflow

theorem safe_ok (value : β) : SafeCall project i Fits (.done (.ok value)) w :=
  safe_result fun _ _ _ ↦ by rintro ⟨⟩

theorem safe_error {error : Error} (h : error ≠ .overflow) :
    SafeCall project i (Fits : Except Error β → World ι → Prop) (.done (.error error)) w :=
  safe_result fun _ _ _ heq ↦ h (Except.error.inj heq)

theorem safe_fits_ask {f : effect.Answer → Script β} (hplain : ∀ allocation, effect ≠ .claim allocation)
    (h : ∀ answer w, SafeCall project i Fits (f answer).run w) :
    SafeCall project i Fits (ask effect >>= f).run w :=
  safe_ask (fun _ ↦ by rintro ⟨⟩) fun _ _ _ ↦ ⟨claims_of_ne hplain, fun _ ↦ h _ _⟩

theorem safe_fits_statement (hplain : ∀ allocation, effect ≠ .claim allocation) :
    SafeCall project i Fits (ask effect).run w := by
  refine fun w' _ _ ↦ ⟨claims_of_ne hplain, fun choice _ ↦ ?_⟩
  cases choice with
  | none => exact safe_error Error.noConfusion
  | some outside => exact safe_ok _

theorem safe_fits_bind {x : Script γ} {f : γ → Script β}
    (hx : SafeCall project i Fits x.run w) (hf : ∀ value w, SafeCall project i Fits (f value).run w) :
    SafeCall project i Fits (x >>= f).run w := by
  refine safe_attempt_bind (hx.mono fun result w' hfits ↦ ?_)
  cases result with
  | ok value => exact hf value w'
  | error error => exact safe_error fun heq ↦ hfits (heq ▸ rfl)

theorem safe_releaseEach (environment : EnvId) (leases : List (ResourceKey × Lease)) :
    SafeCall project i Fits (releaseEach environment leases).run w := by
  induction leases generalizing w with
  | nil => exact safe_ok _
  | cons row leases ih =>
    unfold releaseEach
    split
    · exact ih
    · refine safe_fits_ask (fun _ ↦ Effect.noConfusion) fun _ w' ↦ safe_fits_bind ih fun _ _ ↦ ?_
      exact safe_ok _

theorem safe_release (environment : EnvId) :
    SafeCall project i Fits (release environment).run w := by
  refine safe_fits_ask (fun _ ↦ Effect.noConfusion) fun _ w' ↦ ?_
  refine safe_fits_ask (fun _ ↦ Effect.noConfusion) fun _ w' ↦ ?_
  refine safe_fits_bind ?_ fun _ _ ↦ safe_ok _
  refine safe_fits_ask (fun _ ↦ Effect.noConfusion) fun leases w' ↦ ?_
  exact safe_fits_bind (safe_releaseEach _ _) fun _ _ ↦ safe_ok _

theorem safe_unitBehind (environment : EnvId) :
    SafeCall project i Fits (unitBehind environment).run w := by
  refine safe_fits_ask (fun _ ↦ Effect.noConfusion) fun unit w' ↦ ?_
  cases unit with
  | none => exact safe_error Error.noConfusion
  | some unit =>
    refine safe_fits_ask (fun _ ↦ Effect.noConfusion) fun slug w' ↦ ?_
    cases slug with
    | none => exact safe_error Error.noConfusion
    | some slug => exact safe_ok _

theorem safe_holderOf (claimant : EnvId) (name : PortName) (port : ℕ) (now : Instant) :
    SafeCall project i Fits (holderOf claimant name port now).run w := by
  refine safe_fits_ask (fun _ ↦ Effect.noConfusion) fun lease w' ↦ ?_
  cases lease with
  | none => exact safe_ok _
  | some lease =>
    change SafeCall project i Fits (if lease.environmentId = claimant ∨ lease.expiresAt ≤ now then
      return none else do
        let behind ← unitBehind lease.environmentId
        return some ⟨name, port, behind.1, behind.2, lease.environmentId, lease.expiresAt⟩ :
      Script (Option FixedPortConflict)).run w'
    split
    · exact safe_ok _
    · exact safe_fits_bind (safe_unitBehind _) fun _ _ ↦ safe_ok _

theorem safe_takeOne (claimant : EnvId) (name : PortName) (port : ℕ) (now expires : Instant)
    (attempts : ℕ) :
    SafeCall project i Fits (takeOne claimant name port now expires attempts).run w := by
  induction attempts generalizing w with
  | zero => exact safe_error Error.noConfusion
  | succ attempts ih =>
    refine safe_fits_ask (fun _ ↦ Effect.noConfusion) fun taken w' ↦ ?_
    cases taken with
    | true => exact safe_ok _
    | false =>
      refine safe_fits_bind (safe_holderOf _ _ _ _) fun holder w'' ↦ ?_
      cases holder with
      | none => exact ih
      | some conflict => exact safe_ok _

theorem safe_giveBack (claimant : EnvId) (keys : List ResourceKey) :
    SafeCall project i Fits (giveBack claimant keys).run w := by
  induction keys generalizing w with
  | nil => exact safe_ok _
  | cons key keys ih => exact safe_fits_ask (fun _ ↦ Effect.noConfusion) fun _ _ ↦ ih

theorem safe_holdEach (claimant : EnvId) (now expires : Instant) (taken : List ResourceKey)
    (fixed : List (PortName × ℕ)) :
    SafeCall project i Fits (holdEach claimant now expires taken fixed).run w := by
  induction fixed generalizing w taken with
  | nil => exact safe_ok _
  | cons pinned fixed ih =>
    refine safe_fits_bind (safe_takeOne _ _ _ _ _ _) fun took w' ↦ ?_
    cases took with
    | ok key => exact ih _
    | error conflict => exact safe_fits_bind (safe_giveBack _ _) fun _ _ ↦ safe_ok _

end Others

/-- How the giving of a block ends: with one of the project's that is there. -/
def BlockEnds (owner : ProjectId) (result : Except Error PortBlock) (w : World ι) : Prop :=
  match result with
  | .ok block => block ∈ w.registry.blocks.rows ∧ block.projectId = owner
  | .error error => error ≠ .overflow

theorem safe_block {owner : ProjectId} {block : PortBlock} (hblock : block ∈ w.registry.blocks.rows)
    (howner : block.projectId = owner) :
    SafeCall project i (BlockEnds owner) (.done (.ok block)) w :=
  safe_result fun _ hrely _ ↦ ⟨hrely.blocks _ hblock, howner⟩

theorem safe_ensureBlock (owner : ProjectId) :
    SafeCall project i (BlockEnds owner) (ensureBlock owner).run w := by
  refine safe_ask (fun _ ↦ Error.noConfusion) fun w' _ _ ↦
    ⟨claims_of_ne fun _ ↦ Effect.noConfusion, fun outside ↦ ?_⟩
  have hread : (statement (.getBlock owner) outside w'.registry).1 =
    w'.registry.blocks.get owner := rfl
  rw [hread]
  cases hget : w'.registry.blocks.get owner with
  | some block =>
    exact safe_block (List.mem_of_find?_eq_some hget)
      (of_decide_eq_true (List.find?_some hget :))
  | none =>
    refine safe_ask (fun _ ↦ Error.noConfusion) fun t _ _ ↦
      ⟨claims_of_ne fun _ ↦ Effect.noConfusion, fun outside ↦ ?_⟩
    change SafeCall project i _ (.done (t.registry.assignBlock owner).1) _
    rcases assignBlock_cases t.registry owner with
      ⟨block, hblock, howner, hassign⟩ | ⟨block, blocks, howner, _, hrows, hassign⟩ |
      ⟨error, hne, hassign⟩
    · rw [hassign]
      refine safe_block ?_ howner
      exact (statement_blocks (.assignBlock owner) () t.registry).1 block hblock
    · rw [hassign]
      refine safe_block ?_ howner
      change block ∈ (t.registry.assignBlock owner).2.blocks.rows
      rw [hassign]
      exact hrows ▸ List.mem_cons_self
    · rw [hassign]
      exact safe_result fun _ _ _ ↦ hne

/-! ### Runs -/

/-- How a call ends, whatever the others do. -/
def Ends (i : ι) (outcome : Call × Except Error Answer) (w : World ι) : Prop :=
  match outcome.1, outcome.2 with
  | .ensureBlock owner, .ok (.block block) => BlockEnds owner (.ok block) w
  | .allocate block environment names, .ok (.ports granted) =>
    AllEnd i block environment names (.ok granted) w
  | .allocate block environment names, .error error =>
    AllEnd i block environment names (.error error) w
  | _, .error error => error ≠ .overflow
  | _, .ok _ => True

/-- A call keeps the contract where its script does, and ends as its script ends. -/
theorem safe_call {β : Type} {x : Script β} {call : Call} {f : β → Answer}
    {Q : Except Error β → World ι → Prop} (hrun : call.run = f <$> x)
    (hsafe : SafeCall project i Q x.run w)
    (hends : ∀ result w, Q result w → Ends i (call, result.map f) w) :
    SafeCall project i (Ends i) ((machine ι project).program i call) w := by
  change SafeCall project i (Ends i) (call.run.run >>= fun result ↦ .done (call, result)) w
  rw [hrun, run_map]
  exact safe_map (safe_map (hsafe.mono hends))

theorem safe_program {call : Call} (hasked : call.Asked project w.registry) :
    SafeCall project i (Ends i) ((machine ι project).program i call) w := by
  have herror : ∀ {β : Type} {error : Error} {w : World ι},
      Fits (.error error : Except Error β) w → error ≠ .overflow := fun hfits heq ↦ hfits (heq ▸ rfl)
  cases call with
  | ensureBlock owner =>
    refine safe_call rfl (safe_ensureBlock owner) fun result _ hends ↦ ?_
    cases result <;> exact hends
  | allocate block environment names =>
    refine safe_call rfl (safe_allocate hasked.2 hasked.1) fun result _ hends ↦ ?_
    cases result <;> exact hends
  | release environment =>
    refine safe_call rfl (safe_release environment) fun result _ hfits ↦ ?_
    cases result with
    | ok _ => trivial
    | error _ => exact herror hfits
  | holdFixed claimant fixed now expires =>
    refine safe_call rfl (safe_holdEach claimant now expires [] fixed.rows) fun result _ hfits ↦ ?_
    cases result with
    | ok _ => trivial
    | error _ => exact herror hfits
  | acquire resource lease now =>
    refine safe_call rfl (safe_fits_statement fun _ ↦ Effect.noConfusion) fun result _ hfits ↦ ?_
    cases result with
    | ok _ => trivial
    | error _ => exact herror hfits
  | releaseLease resource holder =>
    refine safe_call rfl (safe_fits_statement fun _ ↦ Effect.noConfusion) fun result _ hfits ↦ ?_
    cases result with
    | ok _ => trivial
    | error _ => exact herror hfits

/-- The contract fits the machine on every run. -/
theorem sound : Sound (machine ι project) (contract project) Ends fun _ _ ↦ True where
  assume _ _ := trivial
  act {c i choice effect rest} _ _ hkept hclaims := by
    cases hchoice : choice effect with
    | none => exact ⟨hkept.since (hkept.held i), fun j p hji _ ↦ .inl (outlasts_since _ hji)⟩
    | some outside =>
      refine ⟨Kept.after hkept hclaims outside, fun j p hji _ ↦ .inl ?_⟩
      exact outlasts_after hji outside
  enter {c i call world} _ _ hworld hkept := by
    simp only [machine, Option.ite_none_right_eq_some] at hworld
    obtain ⟨hasked, hworld⟩ := hworld
    obtain rfl := Option.some.inj hworld
    exact ⟨hkept.since mem_heldPorts, safe_program hasked, fun j p hji _ ↦
      .inl (outlasts_since _ hji)⟩
  leave {c i p} _ _ hkept :=
    ⟨hkept.since (hkept.held i), fun j p hji _ ↦ .inl (outlasts_since _ hji)⟩

end Calls

end Nodal.Services
