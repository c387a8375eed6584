import Nodal.Services.Ports

/-!
# What one statement does to the rows

The blocks of different projects stay apart because each starts at a multiple of the span. A row of
`port_allocation` comes only by a claim and goes only where the ports of its environment are given
back. Everything the calls keep is derived from this.
-/

set_option autoImplicit false

namespace Nodal.Services

/-! ### Blocks -/

/-- A block that starts at a multiple of the span and covers one span of the range. -/
def PortBlock.Aligned (block : PortBlock) : Prop :=
  (∃ index, block.first = RANGE_FIRST + index * BLOCK_SPAN) ∧
    block.last = block.first + BLOCK_SPAN - 1 ∧ block.last ≤ RANGE_LAST

/-- Two blocks that start at different ports have no port in common. -/
theorem PortBlock.Aligned.apart {block other : PortBlock} (hblock : block.Aligned)
    (hother : other.Aligned) (hne : block.first ≠ other.first) :
    block.last < other.first ∨ other.last < block.first := by
  obtain ⟨⟨index, hfirst⟩, hlast, _⟩ := hblock
  obtain ⟨⟨index', hfirst'⟩, hlast', _⟩ := hother
  unfold BLOCK_SPAN at *
  omega

/-- The free block is the project's, aligned, and starts at no port taken; and no sum on the way
overflows. -/
theorem freeFrom_spec (starts : List ℕ) (project : ProjectId) (first : ℕ)
    (haligned : ∃ index, first = RANGE_FIRST + index * BLOCK_SPAN) :
    match freeFrom starts project first with
    | .ok block => block.projectId = project ∧ block.Aligned ∧ block.first ∉ starts
    | .error error => error = .portBlockRangeFull RANGE_FIRST RANGE_LAST := by
  induction first using freeFrom.induct starts with
  | case1 first hroom error herror =>
    -- the sum fits: no block reaches past the range
    exfalso
    unfold add16 at herror
    split at herror
    · cases herror
    · unfold BLOCK_SPAN RANGE_LAST at *
      omega
  | case2 first hroom next hnext hfree =>
    obtain ⟨_, rfl⟩ := add16_eq_ok.mp hnext
    rw [freeFrom, if_pos hroom, hnext]
    dsimp only
    rw [if_pos hfree]
    exact ⟨rfl, ⟨haligned, rfl, hroom⟩, hfree⟩
  | case3 first hroom next hnext htaken ih =>
    obtain ⟨index, hindex⟩ := haligned
    obtain ⟨_, rfl⟩ := add16_eq_ok.mp hnext
    rw [freeFrom, if_pos hroom, hnext]
    dsimp only
    rw [if_neg htaken]
    refine ih ⟨index + 1, ?_⟩
    rw [hindex, Nat.add_mul, Nat.one_mul, Nat.add_assoc]
  | case4 first hroom => rw [freeFrom, if_neg hroom]

theorem freeBlock_spec (taken : List PortBlock) (project : ProjectId) :
    match freeBlock taken project with
    | .ok block => block.projectId = project ∧ block.Aligned ∧
        block.first ∉ taken.map PortBlock.first
    | .error error => error = .portBlockRangeFull RANGE_FIRST RANGE_LAST :=
  freeFrom_spec _ _ _ ⟨0, by rw [Nat.zero_mul, Nat.add_zero]⟩

theorem assignBlock_cases (registry : Registry) (project : ProjectId) :
    (∃ block ∈ registry.blocks.rows, block.projectId = project ∧
        registry.assignBlock project = (.ok block, registry)) ∨
      (∃ block blocks, block.projectId = project ∧ block.Aligned ∧
        blocks.rows = block :: registry.blocks.rows ∧
        registry.assignBlock project = (.ok block, { registry with blocks })) ∨
      ∃ error, error ≠ .overflow ∧ registry.assignBlock project = (.error error, registry) := by
  unfold Registry.assignBlock
  split
  · next block hblock =>
    exact .inl ⟨block, List.mem_of_find?_eq_some hblock,
      of_decide_eq_true (List.find?_some hblock :), rfl⟩
  · have hspec := freeBlock_spec registry.blocks.rows project
    split
    · next error herror =>
      rw [herror] at hspec
      exact .inr (.inr ⟨error, by rw [hspec]; exact Error.noConfusion, rfl⟩)
    · next block hblock =>
      rw [hblock] at hspec
      split
      · next error herror =>
        refine .inr (.inr ⟨error, ?_, rfl⟩)
        unfold PortBlocks.insert at herror
        split at herror
        · cases herror
        · cases herror
          exact Error.noConfusion
      · next blocks hblocks =>
        refine .inr (.inl ⟨block, blocks, hspec.1, hspec.2.1, ?_, rfl⟩)
        unfold PortBlocks.insert at hblocks
        split at hblocks
        · cases hblocks
          rfl
        · cases hblocks

/-! ### What one statement does to the rows -/

section Statements

variable (effect : Effect) (outside : effect.Outside) (registry : Registry)

/-- A block that was there stays, and a new one is aligned. -/
theorem statement_blocks :
    (∀ block ∈ registry.blocks.rows, block ∈ (statement effect outside registry).2.blocks.rows) ∧
      ∀ block ∈ (statement effect outside registry).2.blocks.rows,
        block ∈ registry.blocks.rows ∨ block.Aligned := by
  cases effect with
  | assignBlock project =>
    change (∀ block ∈ _, block ∈ (registry.assignBlock project).2.blocks.rows) ∧
      ∀ block ∈ (registry.assignBlock project).2.blocks.rows, _
    rcases assignBlock_cases registry project with
      ⟨_, _, _, hassign⟩ | ⟨block, blocks, _, haligned, hrows, hassign⟩ | ⟨_, _, hassign⟩
    · rw [hassign]
      exact ⟨fun _ h ↦ h, fun _ h ↦ .inl h⟩
    · rw [hassign]
      simp only [hrows, List.mem_cons]
      exact ⟨fun _ h ↦ .inr h, fun _ h ↦ h.elim (fun heq ↦ .inr (heq ▸ haligned)) .inl⟩
    · rw [hassign]
      exact ⟨fun _ h ↦ h, fun _ h ↦ .inl h⟩
  | _ => exact ⟨fun _ h ↦ h, fun _ h ↦ .inl h⟩

/-- A row goes only where the ports of its environment are given back. -/
theorem statement_keeps {port : ℕ} {grant : Grant}
    (h : registry.allocations.table.get? port = some grant) :
    (statement effect outside registry).2.allocations.table.get? port = some grant ∨
      effect = .releaseAll grant.environmentId := by
  cases effect with
  | assignBlock project =>
    rcases assignBlock_cases registry project with
      ⟨_, _, _, hassign⟩ | ⟨_, _, _, _, _, hassign⟩ | ⟨_, _, hassign⟩
    all_goals
      left
      change (registry.assignBlock project).2.allocations.table.get? port = some grant
      rw [hassign]
      exact h
  | claim allocation =>
    left
    change (registry.allocations.claim allocation).2.table.get? port = some grant
    rcases PortAllocations.claim_cases registry.allocations allocation with
      ⟨_, hrows, hfree⟩ | ⟨hrefused, _⟩
    · have hne : port ≠ allocation.port := fun heq ↦ by
        rw [heq, hfree] at h
        cases h
      rw [hrows, if_neg hne, h]
    · rw [hrefused, h]
  | releaseAll environment =>
    by_cases henvironment : grant.environmentId = environment
    · exact .inr (by rw [henvironment])
    · exact .inl (PortAllocations.get?_releaseAll.mpr ⟨h, henvironment⟩)
  | _ => exact .inl h

/-- A row comes only by a claim. -/
theorem statement_adds {port : ℕ} {grant : Grant}
    (h : (statement effect outside registry).2.allocations.table.get? port = some grant) :
    registry.allocations.table.get? port = some grant ∨ effect = .claim ⟨grant, port⟩ := by
  cases effect with
  | assignBlock project =>
    change (registry.assignBlock project).2.allocations.table.get? port = some grant at h
    rcases assignBlock_cases registry project with
      ⟨_, _, _, hassign⟩ | ⟨_, _, _, _, _, hassign⟩ | ⟨_, _, hassign⟩
    all_goals
      rw [hassign] at h
      exact .inl h
  | claim allocation =>
    change (registry.allocations.claim allocation).2.table.get? port = some grant at h
    rcases PortAllocations.claim_cases registry.allocations allocation with
      ⟨_, hrows, _⟩ | ⟨hrefused, _⟩
    · rw [hrows] at h
      split at h
      · next heq =>
        cases h
        exact .inr (by rw [heq])
      · exact .inl h
    · rw [hrefused] at h
      exact .inl h
  | releaseAll environment => exact .inl (PortAllocations.get?_releaseAll.mp h).1
  | _ => exact .inl h

end Statements

end Nodal.Services
