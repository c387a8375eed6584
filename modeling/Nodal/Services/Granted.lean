import Mathlib.Data.Fintype.Basic
import Nodal.Services.Claiming

/-!
# Ports granted by calls that interleave at every statement

Any number of calls, over any number of projects and environments, stopped anywhere. The blocks of
different projects stay apart because each starts at a multiple of the span; a port is held once
because its row is; and a call answers a row that is there.

A call that finds its block full has seen a row on every port of it, but for one race. A claim may be
refused by a second grant under the same name, which says nothing of the port, and the call then
counts on finding that grant in the record. Where the environment's ports are given back in between,
there is none to find (`port_block_full_crossed`).
-/

set_option autoImplicit false

namespace Nodal.Services

open Foundation

section Runs

variable {ι : Type} [DecidableEq ι] {project : EnvId → ProjectId} {i : ι}

/-- No call has been made, and nothing is recorded. -/
def Calls.start (ι : Type) : Calls ι :=
  Calls.on Registry.fresh

/-- The step gives no ports of an environment back. -/
def Unreleased (environment : EnvId) (c : Calls ι) : Step ι → Prop
  | .act i _ =>
    match c.running i with
    | some (.perform effect _) => effect ≠ .releaseAll environment
    | _ => True
  | _ => True

/-- Where the step gives an environment's ports back, no call is between a claim that a second grant
under one of the environment's names refused and the reading that would find that grant. -/
def Uncrossed (c : Calls ι) : Step ι → Prop
  | .act i choice =>
    match c.running i with
    | some (.perform (.releaseAll environment) _) =>
      (choice (.releaseAll environment)).isSome →
        ∀ j, ∀ row ∈ (c.world.since j).refused, row.1 ≠ environment
    | _ => True
  | _ => True

/-- The environment whose ports a step gives back. -/
private def emptied (c : Calls ι) : Step ι → Option EnvId
  | .act i choice =>
    match c.running i with
    | some (.perform (.releaseAll environment) _) =>
      if (choice (.releaseAll environment)).isSome then some environment else none
    | _ => none
  | _ => none

omit [DecidableEq ι] in
private theorem uncrossed_iff {c : Calls ι} {label : Step ι} : Uncrossed c label ↔
    ∀ environment ∈ emptied c label, ∀ j, ∀ row ∈ (c.world.since j).refused,
      row.1 ≠ environment := by
  unfold Uncrossed emptied
  split
  · split
    · split <;> simp [*]
    · simp
  · simp

instance [Fintype ι] (c : Calls ι) (label : Step ι) : Decidable (Uncrossed c label) :=
  decidable_of_iff _ uncrossed_iff.symm

variable {c c' c₁ : Calls ι} {label : Step ι} {labels before after : List (Step ι)}

theorem guarded_start : Guarded (machine ι project) (contract project) Ends (Calls.start ι) :=
  ⟨⟨by rintro _ ⟨⟩, by rintro _ _ ⟨⟩, by rintro _ _ _ ⟨⟩⟩, by rintro _ _ ⟨⟩⟩

theorem guarded_run (hexec : (machine ι project).exec (Calls.start ι) labels = some c) :
    Guarded (machine ι project) (contract project) Ends c :=
  sound.guarded_exec (Machine.along_of_labels fun _ _ ↦ trivial) hexec guarded_start

/-- A call that has ended has ended as its contract says. -/
theorem ends_of_done (hc : Guarded (machine ι project) (contract project) Ends c)
    {outcome : Call × Except Error Answer} (h : c.running i = some (.done outcome)) :
    Ends i outcome c.world :=
  hc.2 i _ h c.world (Outlasts.refl i c.world) hc.1

theorem uncrossed_next (hstep : Uncrossed c label) (hnext : (machine ι project).next c label = some c')
    (hc : ∀ i, (c.world.since i).crossed = false) : ∀ i, (c'.world.since i).crossed = false := by
  have hupdate : ∀ {i : ι} {since : Since}, since.crossed = false →
      ∀ j, (Function.update c.world.since i since j).crossed = false := by
    intro i since hsince j
    by_cases hji : j = i
    · subst hji
      simpa using hsince
    · simpa [Function.update_of_ne hji] using hc j
  cases label with
  | enter i call =>
    obtain ⟨_, world, hworld, rfl⟩ := Machine.next_enter_eq_some.mp hnext
    simp only [machine, Option.ite_none_right_eq_some] at hworld
    obtain rfl := Option.some.inj hworld.2
    exact hupdate rfl
  | leave i =>
    obtain ⟨_, _, rfl⟩ := Machine.next_leave_eq_some.mp hnext
    exact hupdate (hc i)
  | act i choice =>
    obtain ⟨effect, rest, hrunning, rfl⟩ := Machine.next_act_eq_some.mp hnext
    change ∀ j, ((perform i effect (choice effect) c.world).2.since j).crossed = false
    cases hchoice : choice effect with
    | none => exact hupdate (hc i)
    | some outside =>
      intro j
      have hcrossed : ((c.world.after i effect outside).since j).crossed =
          ((c.world.since j).note effect (statement effect outside c.world.registry).2).crossed := by
        by_cases hji : j = i
        · rw [hji, since_after_self]
          rfl
        · rw [since_after_of_ne outside hji]
      refine hcrossed.trans (Bool.or_eq_false_iff.mpr ⟨hc j, ?_⟩)
      cases effect with
      | releaseAll environment =>
        simp only [Uncrossed, hrunning, hchoice] at hstep
        exact List.any_eq_false.mpr fun row hrow heq ↦
          hstep rfl j row hrow (of_decide_eq_true heq)
      | _ => rfl

/-- A row outlasts every step that gives no ports of its environment back. -/
theorem row_next {port : ℕ} {grant : Grant} (hstep : Unreleased grant.environmentId c label)
    (hnext : (machine ι project).next c label = some c')
    (hrow : c.world.registry.allocations.table.get? port = some grant) :
    c'.world.registry.allocations.table.get? port = some grant := by
  cases label with
  | enter i call =>
    obtain ⟨_, world, hworld, rfl⟩ := Machine.next_enter_eq_some.mp hnext
    simp only [machine, Option.ite_none_right_eq_some] at hworld
    obtain rfl := Option.some.inj hworld.2
    exact hrow
  | leave i =>
    obtain ⟨_, _, rfl⟩ := Machine.next_leave_eq_some.mp hnext
    exact hrow
  | act i choice =>
    obtain ⟨effect, rest, hrunning, rfl⟩ := Machine.next_act_eq_some.mp hnext
    change (perform i effect (choice effect) c.world).2.registry.allocations.table.get? port = _
    cases hchoice : choice effect with
    | none => exact hrow
    | some outside =>
      simp only [Unreleased, hrunning] at hstep
      exact (statement_keeps _ outside c.world.registry hrow).resolve_right hstep

theorem row_exec {port : ℕ} {grant : Grant}
    (halong : (machine ι project).Along (Unreleased grant.environmentId) c labels)
    (hexec : (machine ι project).exec c labels = some c')
    (hrow : c.world.registry.allocations.table.get? port = some grant) :
    c'.world.registry.allocations.table.get? port = some grant :=
  Machine.exec_induction (fun _ _ _ ↦ row_next) halong hexec hrow

/-! ### What the calls are granted -/

/-- What a run has brought about. -/
structure Granted (project : EnvId → ProjectId) (labels : List (Step ι)) (c : Calls ι) : Prop where
  /-- Each port is held by at most one environment. -/
  holder : ∀ row ∈ c.world.registry.allocations.list, ∀ other ∈ c.world.registry.allocations.list,
    row.port = other.port → row = other
  /-- An environment holds at most one port per name. -/
  name : ∀ row ∈ c.world.registry.allocations.list, ∀ other ∈ c.world.registry.allocations.list,
    row.environmentId = other.environmentId → row.name = other.name → row = other
  /-- The blocks of different projects are disjoint. -/
  apart : ∀ block ∈ c.world.registry.blocks.rows, ∀ other ∈ c.world.registry.blocks.rows,
    block.projectId ≠ other.projectId → ∀ port, block.Contains port → ¬other.Contains port
  range : ∀ block ∈ c.world.registry.blocks.rows,
    RANGE_FIRST ≤ block.first ∧ block.last ≤ RANGE_LAST
  /-- Every port an allocate answers is in the block it was asked from. -/
  inside : ∀ i block environment names granted,
    c.running i = some (.done (.allocate block environment names, .ok (.ports granted))) →
      (∀ name ∈ names, (granted.get? name).isSome = true) ∧
        ∀ name port, granted.get? name = some port → block.Contains port
  fits : ∀ i call, c.running i ≠ some (.done (call, .error .overflow))
  /-- Two allocates of one environment, with no release since either was asked, answer the same port
  for a name. -/
  again : ∀ before after c₁ i block environment names granted,
    labels = before ++ after → (machine ι project).exec (Calls.start ι) before = some c₁ →
    c₁.running i = some (.done (.allocate block environment names, .ok (.ports granted))) →
    environment ∉ (c₁.world.since i).released →
    (machine ι project).Along (Unreleased environment) c₁ after →
    ∀ j block' names' granted',
      c.running j = some (.done (.allocate block' environment names', .ok (.ports granted'))) →
      environment ∉ (c.world.since j).released →
      ∀ name port port', granted.get? name = some port → granted'.get? name = some port' →
        port = port'
  /-- A block is called full only where each port of it has been held since the call began. -/
  full : ∀ i block environment names holder first last,
    c.running i = some (.done
      (.allocate block environment names, .error (.portBlockFull holder first last))) →
    ∀ port, block.Contains port → port ∈ (c.world.since i).held

/-- What any number of calls have brought about, interleaved at every statement and stopped anywhere.

Assumes: no release gives an environment's ports back between a claim of another call that a second
grant under one of its names refused and the reading that would find that grant. -/
theorem ports_granted (halong : (machine ι project).Along Uncrossed (Calls.start ι) labels)
    (hexec : (machine ι project).exec (Calls.start ι) labels = some c) :
    Granted project labels c where
  holder row hrow other hother hport := by
    have hgrant := PortAllocations.mem_list.mp hrow
    rw [hport, PortAllocations.mem_list.mp hother] at hgrant
    cases row
    cases other
    simp_all
  name row hrow other hother henvironment hname := by
    have hrow' := PortAllocations.mem_list.mp hrow
    have hother' := PortAllocations.mem_list.mp hother
    have hport := c.world.registry.allocations.named hrow' hother' henvironment hname
    rw [hport, hother'] at hrow'
    cases row
    cases other
    simp_all
  apart block hblock other hother hne port hcontains hother' := by
    have hkept := (guarded_run hexec).1
    have hfirst : block.first ≠ other.first := fun heq ↦
      hne (congrArg PortBlock.projectId (PortBlocks.eq_of_first hblock hother heq))
    have hapart := (hkept.aligned block hblock).apart (hkept.aligned other hother) hfirst
    unfold PortBlock.Contains at hcontains hother'
    omega
  range block hblock := by
    obtain ⟨⟨index, hfirst⟩, _, hlast⟩ := (guarded_run hexec).1.aligned block hblock
    exact ⟨by omega, hlast⟩
  inside i block environment names granted hdone := by
    obtain ⟨hnames, hports⟩ := ends_of_done (guarded_run hexec) hdone
    exact ⟨hnames, fun name port hport ↦ (hports name port hport).1⟩
  fits i call hdone := by
    have hends := ends_of_done (guarded_run hexec) hdone
    cases call with
    | allocate block environment names => rcases hends with h | ⟨h, _⟩ <;> cases h
    | _ => exact hends rfl
  again before after c₁ i block environment names granted hlabels hbefore hdone hkept hafter
      j block' names' granted' hdone' hkept' name port port' hport hport' := by
    have hlast : (machine ι project).exec c₁ after = some c := by
      obtain ⟨c₂, hc₂, hrest⟩ := Machine.exec_append_eq_some.mp (hlabels ▸ hexec)
      rwa [Option.some.inj (hbefore.symm.trans hc₂)]
    obtain ⟨_, hports⟩ := ends_of_done (guarded_run hbefore) hdone
    obtain ⟨_, hports'⟩ := ends_of_done (guarded_run hexec) hdone'
    have hrow := row_exec hafter hlast ((hports name port hport).2.resolve_left hkept)
    have hrow' := (hports' name port' hport').2.resolve_left hkept'
    exact c.world.registry.allocations.named hrow hrow' rfl rfl
  full i block environment names holder first last hdone := by
    have hcrossed := Machine.exec_induction (fun _ _ _ ↦ uncrossed_next) halong hexec (fun _ ↦ rfl)
    rcases ends_of_done (guarded_run hexec) hdone with h | ⟨_, hfull⟩
    · cases h
    · exact hfull.resolve_left (by rw [hcrossed i]; exact Bool.false_ne_true)

end Runs

/-! ### Two grants under one name -/

/-- The first block of the range. -/
def firstBlock : PortBlock :=
  ⟨⟨0⟩, 20000, 20099⟩

/-- Two calls ask for one name of one environment, and both read that nothing is held. The second
claims a port, so every claim of the first is refused. -/
def secondGrant : List (Step (Fin 4)) :=
  [.enter 0 (.ensureBlock ⟨0⟩), .act 0 answers, .act 0 answers,
    .enter 1 (.allocate firstBlock ⟨7⟩ ["web"]), .enter 2 (.allocate firstBlock ⟨7⟩ ["web"]),
    .act 1 answers, .act 1 answers, .act 2 answers, .act 2 answers, .act 2 answers] ++
  List.replicate 100 (.act 1 answers)

/-- The environment's ports are given back. -/
def givenBack : List (Step (Fin 4)) :=
  [.enter 3 (.release ⟨7⟩), .act 3 answers, .act 3 answers]

/-- Every environment is of one project. -/
def oneProject (_ : EnvId) : ProjectId :=
  ⟨0⟩

/-- The first call reads the second's grant before the ports are given back. -/
theorem ports_granted_secondGrant : ∃ c, (machine (Fin 4) oneProject).exec (Calls.start (Fin 4))
    (secondGrant ++ .act 1 answers :: givenBack) = some c ∧
      Granted oneProject (secondGrant ++ .act 1 answers :: givenBack) c := by
  obtain ⟨c, hexec⟩ := Option.isSome_iff_exists.mp (show ((machine (Fin 4) oneProject).exec
    (Calls.start (Fin 4)) (secondGrant ++ .act 1 answers :: givenBack)).isSome = true by
      decide +kernel)
  exact ⟨c, hexec, ports_granted (by decide +kernel) hexec⟩

/-- The call has found its block full. -/
def foundFull : Option (Program Effect Effect.Answered (Call × Except Error Answer)) → Bool
  | some (.done (.allocate block _ _, .error (.portBlockFull _ _ _))) => block = firstBlock
  | _ => false

/-- Where the ports are given back first, the first call finds the block full, though no row has ever
been on most of its ports. -/
theorem port_block_full_crossed : ∃ c, (machine (Fin 4) oneProject).exec (Calls.start (Fin 4))
    (secondGrant ++ givenBack ++ [.act 1 answers]) = some c ∧
      ¬Granted oneProject (secondGrant ++ givenBack ++ [.act 1 answers]) c := by
  obtain ⟨c, hexec, hcheck⟩ := (Option.any_eq_true _ _).mp (show ((machine (Fin 4) oneProject).exec
    (Calls.start (Fin 4)) (secondGrant ++ givenBack ++ [.act 1 answers])).any
      (fun c ↦ foundFull (c.running 1) && 20001 ∉ (c.world.since 1).held) = true by decide +kernel)
  refine ⟨c, hexec, fun hgranted ↦ ?_⟩
  obtain ⟨hfull, hnever⟩ := Bool.and_eq_true_iff.mp hcheck
  unfold foundFull at hfull
  split at hfull
  · next block environment names holder first last hdone =>
    obtain rfl := of_decide_eq_true hfull
    exact of_decide_eq_true hnever (hgranted.full 1 _ _ _ _ _ _ hdone 20001 ⟨by decide, by decide⟩)
  · cases hfull

end Nodal.Services
