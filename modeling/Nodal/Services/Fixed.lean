import Nodal.Foundation.Contract
import Nodal.Services.Statements

/-!
# Fixed ports, all or nothing

`hold_fixed` takes each pinned port with one upsert and, at a conflict, gives back the keys it has
taken. Other environments take leases and give them back between any two of its statements.

What it gives back is what it wrote, and that is more than what it gained: a port the claimant held
before the call is renewed by the upsert, and a conflict further on gives it back. And an error ends
the call where it stands. Where it gives back nothing that was held before, and no error meets it with
a lease taken or renewed, it takes every port or none (`hold_fixed_all_or_nothing`).
-/

set_option autoImplicit false

namespace Nodal.Services

open Foundation Foundation.Attempt

/-- One call of `hold_fixed`, and the leases its claimant had before. -/
structure Hold where
  claimant : EnvId
  fixed : Ports
  now : Instant
  expires : Instant
  before : Leases

namespace Hold

variable (H : Hold)

/-- The claimant's leases are the ones it had. -/
def Intact (registry : Registry) : Prop :=
  registry.leasesOf H.claimant = H.before

/-- Nobody that the call would name holds the resource. -/
def Free (resource : ResourceKey) (registry : Registry) : Prop :=
  ∀ lease ∈ registry.leases.get? resource, lease.environmentId = H.claimant ∨ lease.expiresAt ≤ H.now

/-- What a statement of the call may be answered: it gives back no lease the claimant had before, and
what would end the call with an error is met with the claimant's leases as they were. These are the
third reading that finds nobody, after as many refusals, and a holder whose rows are not there. -/
def Spares : (effect : Effect) → effect.Outside → ℕ → Registry → Prop
  | .releaseLease resource _, _, _, _ => H.before.get? resource = none
  | .getLease resource, _, refusals, registry =>
    refusals = CLAIM_ATTEMPTS → H.Free resource registry → H.Intact registry
  | .getEnvironment _, row, _, registry => row = none → H.Intact registry
  | .getUnit _, row, _, registry => row = none → H.Intact registry
  | _, _, _, _ => True

/-- The same of a statement that may fail. -/
def Unspoiled (effect : Effect) (refusals : ℕ) (registry : Registry) : effect.Choice → Prop
  | none => H.Intact registry
  | some outside => H.Spares effect outside refusals registry

/-- A statement that is not about the claimant's leases. -/
def Foreign : Effect → Prop
  | .acquire _ lease _ => lease.environmentId ≠ H.claimant
  | .releaseLease _ holder => holder ≠ H.claimant
  | _ => True

/-- An acquisition does not come upon a lease of the claimant's that has lapsed. -/
def Lasts (registry : Registry) : Effect → Prop
  | .acquire resource _ instant => ∀ lease ∈ registry.leases.get? resource,
    lease.environmentId = H.claimant → instant < lease.expiresAt
  | _ => True

/-- What other environments do to leases between the statements of the call: one acquisition, or one
release. -/
def Other : Call → Prop
  | .acquire _ lease _ => lease.environmentId ≠ H.claimant
  | .releaseLease _ holder => holder ≠ H.claimant
  | _ => False

/-- The call. -/
def call : Call :=
  .holdFixed H.claimant H.fixed H.now H.expires

instance (registry : Registry) : Decidable (H.Intact registry) :=
  inferInstanceAs (Decidable (registry.leasesOf H.claimant = H.before))

instance (resource : ResourceKey) (registry : Registry) : Decidable (H.Free resource registry) :=
  inferInstanceAs (Decidable (∀ lease ∈ registry.leases.get? resource, _))

instance (effect : Effect) (outside : effect.Outside) (refusals : ℕ) (registry : Registry) :
    Decidable (H.Spares effect outside refusals registry) := by
  unfold Spares
  split <;> infer_instance

instance (effect : Effect) (refusals : ℕ) (registry : Registry) (choice : effect.Choice) :
    Decidable (H.Unspoiled effect refusals registry choice) := by
  unfold Unspoiled
  split <;> infer_instance

instance (registry : Registry) (effect : Effect) : Decidable (H.Lasts registry effect) := by
  unfold Lasts
  split <;> infer_instance

instance (call : Call) : Decidable (H.Other call) := by
  unfold Other
  split <;> infer_instance

/-- What a call that is all or nothing answers: a conflict or an error with the claimant's leases as
they were, or none with a lease of the claimant's on every port of the map. -/
structure AllOrNothing (result : Except Error Answer) (registry : Registry) : Prop where
  conflict : ∀ conflict, result = .ok (.fixed (some conflict)) → H.Intact registry
  error : ∀ error, result = .error error → H.Intact registry
  taken : result = .ok (.fixed none) → ∀ pinned ∈ H.fixed.rows, ∃ lease,
    registry.leases.get? (resource pinned.2) = some lease ∧ lease.environmentId = H.claimant

/-! ### What a statement does to the claimant's leases -/

variable {H} {registry : Registry} {effect : Effect} {key : ResourceKey}

theorem get?_leasesOf {lease : Lease} : (registry.leasesOf H.claimant).get? key = some lease ↔
    registry.leases.get? key = some lease ∧ lease.environmentId = H.claimant := by
  rw [Registry.leasesOf, Table.get?_filter_eq_some, decide_eq_true_eq]

/-- A statement that neither takes a lease nor gives one back leaves all of them. -/
theorem leases_statement (outside : effect.Outside)
    (htake : ∀ resource lease instant, effect ≠ .acquire resource lease instant)
    (hgive : ∀ resource holder, effect ≠ .releaseLease resource holder) :
    (statement effect outside registry).2.leases = registry.leases := by
  cases effect with
  | acquire resource lease instant => exact absurd rfl (htake resource lease instant)
  | releaseLease resource holder => exact absurd rfl (hgive resource holder)
  | assignBlock project =>
    change (registry.assignBlock project).2.leases = _
    rcases assignBlock_cases registry project with
      ⟨_, _, _, hassign⟩ | ⟨_, _, _, _, _, hassign⟩ | ⟨_, _, hassign⟩
    all_goals rw [hassign]
  | _ => rfl

/-- What others do to leases leaves the claimant's. -/
theorem leasesOf_foreign (outside : effect.Outside) (hforeign : H.Foreign effect)
    (hlasts : H.Lasts registry effect) :
    (statement effect outside registry).2.leasesOf H.claimant = registry.leasesOf H.claimant := by
  have hsame (h : (statement effect outside registry).2.leases = registry.leases) :
      (statement effect outside registry).2.leasesOf H.claimant = registry.leasesOf H.claimant := by
    rw [Registry.leasesOf, h, Registry.leasesOf]
  cases effect with
  | acquire resource lease instant =>
    rcases Leases.acquire_cases registry.leases resource lease instant with
      ⟨htaken, hyields⟩ | ⟨_, _, _, _, hrefused⟩
    · -- the row that is written over is not the claimant's
      refine Table.ext_get? fun key ↦ Option.ext fun row ↦ ?_
      rw [get?_leasesOf, get?_leasesOf]
      change (Leases.acquire registry.leases resource lease instant).2.get? key = some row ∧ _ ↔ _
      rw [htaken, Table.get?_set]
      split
      · next heq =>
        subst heq
        constructor
        · rintro ⟨⟨⟩, hclaimant⟩
          exact absurd hclaimant hforeign
        · rintro ⟨hrow, hclaimant⟩
          have hlive := hlasts row hrow hclaimant
          rcases hyields row hrow with hlapsed | hsame
          · exact absurd hlapsed (not_le.mpr hlive)
          · exact absurd (hsame.symm.trans hclaimant) hforeign
      · exact Iff.rfl
    · exact hsame (congrArg Prod.snd hrefused)
  | releaseLease resource holder =>
    refine Table.ext_get? fun key ↦ Option.ext fun row ↦ ?_
    rw [get?_leasesOf, get?_leasesOf]
    change (Leases.release registry.leases resource holder).2.get? key = some row ∧ _ ↔ _
    rw [Leases.get?_release]
    split
    · rw [Option.filter_eq_some_iff, and_assoc, and_congr_right_iff]
      intro _
      constructor
      · exact fun h ↦ h.2
      · exact fun hclaimant ↦ ⟨decide_eq_true fun heq ↦ hforeign (heq.symm.trans hclaimant), hclaimant⟩
    · exact Iff.rfl
  | _ => exact hsame (leases_statement _ (fun _ _ _ ↦ Effect.noConfusion) fun _ _ ↦ Effect.noConfusion)

/-- An acquisition of the claimant's that is made adds the lease, and one that is refused adds
nothing. -/
theorem leasesOf_acquire (registry : Registry) (key : ResourceKey) {lease : Lease}
    (instant : Instant) (hclaimant : lease.environmentId = H.claimant) :
    ((Leases.acquire registry.leases key lease instant).1 = true ∧ ∀ other,
        ((statement (.acquire key lease instant) () registry).2.leasesOf H.claimant).get? other =
          if other = key then some lease else (registry.leasesOf H.claimant).get? other) ∨
      (Leases.acquire registry.leases key lease instant).1 = false ∧
        (statement (.acquire key lease instant) () registry).2.leasesOf H.claimant =
          registry.leasesOf H.claimant := by
  rcases Leases.acquire_cases registry.leases key lease instant with
    ⟨htaken, _⟩ | ⟨_, _, _, _, hrefused⟩
  · refine .inl ⟨congrArg Prod.fst htaken, fun other ↦ ?_⟩
    change ((Leases.acquire registry.leases key lease instant).2.filter _).get? other = _
    rw [htaken, Registry.leasesOf, Table.get?_filter, Table.get?_filter, Table.get?_set]
    split
    · simp [Option.filter_some, hclaimant]
    · rfl
  · refine .inr ⟨congrArg Prod.fst hrefused, ?_⟩
    change (Leases.acquire registry.leases key lease instant).2.filter _ = _
    rw [hrefused, Registry.leasesOf]

/-- A release of the claimant's takes the lease away, and nothing else. -/
theorem leasesOf_release (other : ResourceKey) :
    ((statement (.releaseLease key H.claimant) () registry).2.leasesOf H.claimant).get? other =
      if other = key then none else (registry.leasesOf H.claimant).get? other := by
  change ((Leases.release registry.leases key H.claimant).2.filter _).get? other = _
  rw [Registry.leasesOf, Table.get?_filter, Table.get?_filter, Leases.get?_release]
  split
  · cases registry.leases.get? other with
    | none => rfl
    | some lease => by_cases h : lease.environmentId = H.claimant <;> simp [Option.filter_some, h]
  · rfl

/-! ### What the call may count on -/

section Calls

variable {ι : Type} {i j : ι} {w w' : World ι}

variable (H) (i) in
/-- What each process may count on and what it owes: the others leave the leases of the claimant, and
the call's own statements are answered so that it spares them. -/
def contract : Contract ι (World ι) Effect Effect.Choice where
  inv _ := True
  rely j w w' := j = i → w'.registry.leasesOf H.claimant = w.registry.leasesOf H.claimant ∧
    (w'.since i).refusals = (w.since i).refusals
  rely_refl _ _ _ := ⟨rfl, rfl⟩
  rely_trans _ _ _ _ h h' hj := ⟨(h' hj).1.trans (h hj).1, (h' hj).2.trans (h hj).2⟩
  assume j effect choice w :=
    j = i → H.Unspoiled effect (w.since i).refusals w.registry choice
  pre j effect _ := j ≠ i → H.Foreign effect

variable (H) in
/-- The claimant has some leases, and so many of the call's acquisitions in a row were refused. -/
def At (i : ι) (leases : Leases) (refusals : ℕ) (w : World ι) : Prop :=
  w.registry.leasesOf H.claimant = leases ∧ (w.since i).refusals = refusals

theorem At.outlasts {leases : Leases} {refusals : ℕ} (h : H.At i leases refusals w)
    (hrely : (H.contract i).rely i w w') : H.At i leases refusals w' :=
  ⟨(hrely rfl).1.trans h.1, (hrely rfl).2.trans h.2⟩

theorem Intact.outlasts (h : H.Intact w.registry) (hrely : (H.contract i).rely i w w') :
    H.Intact w'.registry :=
  (hrely rfl).1.trans h

variable [DecidableEq ι] {project : EnvId → ProjectId} {β : Type}
  {Q : Except Error β → World ι → Prop}

variable (H) (project) in
/-- What the call still does keeps the contract. -/
abbrev SafeHold (i : ι) (Q : Except Error β → World ι → Prop)
    (p : Program Effect Effect.Answered (Except Error β)) (w : World ι) : Prop :=
  Safe (machine ι project) (H.contract i) i Q p w

/-- An error that is met with the claimant's leases as they were. -/
theorem safe_intact {error : Error} (hQ : ∀ w, H.Intact w.registry → Q (.error error) w)
    (h : H.Intact w.registry) : H.SafeHold project i Q (.done (.error error)) w :=
  fun w' hrely _ ↦ hQ w' (h.outlasts hrely)

/-- A statement of the call, and what follows it. An error ends the call with the claimant's leases
as they were. -/
theorem safe_ask {f : effect.Answer → Script β}
    (hstore : ∀ w, H.Intact w.registry → Q (.error .store) w)
    (h : ∀ w', (H.contract i).rely i w w' → ∀ outside,
      H.Spares effect outside (w'.since i).refusals w'.registry →
        H.SafeHold project i Q (f (statement effect outside w'.registry).1).run
          (perform i effect (some outside) w').2) :
    H.SafeHold project i Q (ask effect >>= f).run w := by
  refine fun w' hrely _ ↦ ⟨fun hne ↦ absurd rfl hne, fun choice hunspoiled ↦ ?_⟩
  cases choice with
  | none => exact safe_intact hstore (hunspoiled rfl)
  | some outside => exact h w' hrely outside (hunspoiled rfl)

/-- A statement that is not about leases leaves the call where it is. -/
theorem At.read {leases : Leases} {refusals : ℕ} (h : H.At i leases refusals w) (effect : Effect)
    (outside : effect.Outside)
    (htake : ∀ resource lease instant, effect ≠ .acquire resource lease instant)
    (hgive : ∀ resource holder, effect ≠ .releaseLease resource holder) :
    H.At i leases refusals (perform i effect (some outside) w).2 := by
  refine ⟨?_, ?_⟩
  · change (statement effect outside w.registry).2.leasesOf H.claimant = leases
    rw [Registry.leasesOf, leases_statement outside htake hgive]
    exact h.1
  · change (if i = i then _ else _ : Since).refusals = refusals
    rw [if_pos rfl]
    cases effect with
    | acquire resource lease instant => exact absurd rfl (htake resource lease instant)
    | _ => exact h.2

/-- How a reading ends: with the call where it was, or in an error with the claimant's leases as they
were. -/
def ReadEnds (H : Hold) (i : ι) (leases : Leases) (refusals : ℕ) (found : β → Prop)
    (result : Except Error β) (w : World ι) : Prop :=
  match result with
  | .ok value => H.At i leases refusals w ∧ found value
  | .error _ => H.Intact w.registry

variable {leases : Leases} {refusals : ℕ}

theorem safe_unitBehind (environment : EnvId) (h : H.At i leases refusals w) :
    H.SafeHold project i (H.ReadEnds i leases refusals fun _ ↦ True)
      (unitBehind environment).run w := by
  refine safe_ask (fun _ h ↦ h) fun w' hrely row hspares ↦ ?_
  have hread := (h.outlasts hrely).read (.getEnvironment environment) row
    (fun _ _ _ ↦ Effect.noConfusion) fun _ _ ↦ Effect.noConfusion
  cases row with
  | none => exact safe_intact (fun _ h ↦ h) (hspares rfl)
  | some unit =>
    refine safe_ask (fun _ h ↦ h) fun w'' hrely' row hspares' ↦ ?_
    have hread' := (hread.outlasts hrely').read (.getUnit unit) row
      (fun _ _ _ ↦ Effect.noConfusion) fun _ _ ↦ Effect.noConfusion
    cases row with
    | none => exact safe_intact (fun _ h ↦ h) (hspares' rfl)
    | some slug => exact fun t hrely'' _ ↦ ⟨hread'.outlasts hrely'', trivial⟩

theorem safe_holderOf (name : PortName) (port : ℕ) (h : H.At i leases refusals w) :
    H.SafeHold project i (H.ReadEnds i leases refusals fun conflict ↦
        conflict = none → refusals = CLAIM_ATTEMPTS → leases = H.before)
      (holderOf H.claimant name port H.now).run w := by
  refine safe_ask (fun _ h ↦ h) fun w' hrely outside hspares ↦ ?_
  have hat := h.outlasts hrely
  have hread := hat.read (.getLease (resource port)) outside
    (fun _ _ _ ↦ Effect.noConfusion) fun _ _ ↦ Effect.noConfusion
  have hfree (hnobody : H.Free (resource port) w'.registry) (hrefusals : refusals = CLAIM_ATTEMPTS) :
      leases = H.before :=
    hat.1.symm.trans (hspares (hat.2.trans hrefusals) hnobody)
  have hanswer : (statement (.getLease (resource port)) outside w'.registry).1 =
    w'.registry.leases.get? (resource port) := rfl
  rw [hanswer]
  cases hlease : w'.registry.leases.get? (resource port) with
  | none =>
    refine fun t hrely' _ ↦ ⟨hread.outlasts hrely', fun _ ↦ hfree fun lease hfound ↦ ?_⟩
    rw [hlease] at hfound
    cases hfound
  | some lease =>
    change H.SafeHold project i _ (if lease.environmentId = H.claimant ∨ lease.expiresAt ≤ H.now then
      return none else do
        let behind ← unitBehind lease.environmentId
        return some ⟨name, port, behind.1, behind.2, lease.environmentId, lease.expiresAt⟩ :
      Script (Option FixedPortConflict)).run _
    split
    · next hyields =>
      refine fun t hrely' _ ↦ ⟨hread.outlasts hrely', fun _ ↦ hfree fun other hfound ↦ ?_⟩
      rw [hlease] at hfound
      exact Option.some.inj hfound ▸ hyields
    · refine safe_attempt_bind ((safe_unitBehind _ hread).mono fun result t hends ↦ ?_)
      cases result with
      | error error => exact fun t' hrely' _ ↦ Intact.outlasts hends hrely'
      | ok unit => exact fun t' hrely' _ ↦ ⟨hends.1.outlasts hrely', by rintro ⟨⟩⟩

variable (H) in
/-- The claimant's leases, once some keys are taken: the ones it had, and one on each key. -/
def Took (taken : List ResourceKey) (leases : Leases) : Prop :=
  ∀ key, leases.get? key =
    if key ∈ taken then some ⟨H.claimant, H.expires⟩ else H.before.get? key

variable (H) in
/-- How the taking of one port ends. -/
def OneTaken (i : ι) (taken : List ResourceKey) (port : ℕ)
    (result : Except Error (Except FixedPortConflict ResourceKey)) (w : World ι) : Prop :=
  match result with
  | .ok (.ok key) => key = resource port ∧
    ∃ leases, H.Took (taken ++ [resource port]) leases ∧ H.At i leases 0 w
  | .ok (.error _) => ∃ leases, H.Took taken leases ∧ w.registry.leasesOf H.claimant = leases
  | .error _ => H.Intact w.registry

theorem safe_takeOne {taken : List ResourceKey} (name : PortName) (port attempts : ℕ)
    (htook : H.Took taken leases) (h : H.At i leases refusals w)
    (hattempts : refusals + attempts = CLAIM_ATTEMPTS)
    (hlast : attempts = 0 → leases = H.before) :
    H.SafeHold project i (H.OneTaken i taken port)
      (takeOne H.claimant name port H.now H.expires attempts).run w := by
  induction attempts generalizing w refusals with
  | zero => exact safe_intact (fun _ h ↦ h) (h.1.trans (hlast rfl))
  | succ attempts ih =>
    refine safe_ask (fun _ h ↦ h) fun w' hrely outside _ ↦ ?_
    have hat := h.outlasts hrely
    have hrefusals : ((perform i (.acquire (resource port) ⟨H.claimant, H.expires⟩ H.now) (some ())
        w').2.since i).refusals =
        if (Leases.acquire w'.registry.leases (resource port) ⟨H.claimant, H.expires⟩ H.now).1 then 0
        else refusals + 1 := by
      rw [← hat.2]
      change (if i = i then _ else _ : Since).refusals = _
      rw [if_pos rfl]
      rfl
    have hanswer : (statement (.acquire (resource port) ⟨H.claimant, H.expires⟩ H.now) outside
        w'.registry).1 =
      (Leases.acquire w'.registry.leases (resource port) ⟨H.claimant, H.expires⟩ H.now).1 := rfl
    rw [hanswer]
    have hclaimant : (⟨H.claimant, H.expires⟩ : Lease).environmentId = H.claimant := rfl
    rcases leasesOf_acquire w'.registry (resource port) H.now hclaimant with
      ⟨htaken, hleases⟩ | ⟨hrefused, hleases⟩
    · rw [htaken] at hrefusals
      rw [htaken, if_pos rfl]
      refine fun t hrely' _ ↦ ⟨rfl, _, ?_, At.outlasts ⟨rfl, hrefusals⟩ hrely'⟩
      intro key
      refine (hleases key).trans ?_
      rw [hat.1, htook key]
      by_cases hkey : key = resource port <;> simp [hkey]
    · rw [hrefused] at hrefusals
      rw [hrefused, if_neg Bool.false_ne_true]
      have hrefusedAt : H.At i leases (refusals + 1) (perform i
          (.acquire (resource port) ⟨H.claimant, H.expires⟩ H.now) (some ()) w').2 :=
        ⟨hleases.trans hat.1, hrefusals⟩
      refine safe_attempt_bind ((safe_holderOf name port hrefusedAt).mono fun result t hends ↦ ?_)
      cases result with
      | error error => exact fun t' hrely' _ ↦ Intact.outlasts hends hrely'
      | ok conflict =>
        obtain ⟨hfound, hnobody⟩ := hends
        cases conflict with
        | some conflict => exact fun t' hrely' _ ↦ ⟨leases, htook, (hfound.outlasts hrely').1⟩
        | none =>
          exact ih hfound (by omega) fun hzero ↦ hnobody rfl (by omega)

/-- Keys that are given back one by one. Assumes: every other key has the lease it had. -/
theorem safe_giveBack {keys : List ResourceKey}
    (h : ∀ key, key ∉ keys → (w.registry.leasesOf H.claimant).get? key = H.before.get? key) :
    H.SafeHold project i (fun _ w ↦ H.Intact w.registry) (giveBack H.claimant keys).run w := by
  induction keys generalizing w with
  | nil =>
    have hintact : H.Intact w.registry := Table.ext_get? fun key ↦ h key List.not_mem_nil
    exact fun t hrely _ ↦ hintact.outlasts hrely
  | cons key keys ih =>
    refine safe_ask (fun _ h ↦ h) fun w' hrely _ hspares ↦ ih fun other hother ↦ ?_
    refine (leasesOf_release other).trans ?_
    split
    · next heq => rw [heq, hspares]
    · next hne =>
      rw [(hrely rfl).1]
      exact h other (by simp [hne, hother])

variable (H) in
/-- How the call ends, with what is left of the map. -/
def HoldEnds (fixed : List (PortName × ℕ)) (result : Except Error (Option FixedPortConflict))
    (w : World ι) : Prop :=
  match result with
  | .ok none => ∃ taken leases, H.Took taken leases ∧ w.registry.leasesOf H.claimant = leases ∧
    ∀ pinned ∈ fixed, resource pinned.2 ∈ taken
  | _ => H.Intact w.registry

theorem safe_holdEach {taken : List ResourceKey} {done fixed : List (PortName × ℕ)}
    (htook : H.Took taken leases) (h : H.At i leases 0 w)
    (hdone : ∀ pinned ∈ done, resource pinned.2 ∈ taken) :
    H.SafeHold project i (H.HoldEnds (done ++ fixed))
      (holdEach H.claimant H.now H.expires taken fixed).run w := by
  induction fixed generalizing w taken done leases with
  | nil =>
    refine fun t hrely _ ↦ ⟨taken, leases, htook, (h.outlasts hrely).1, ?_⟩
    rwa [List.append_nil]
  | cons pinned fixed ih =>
    unfold holdEach
    refine safe_attempt_bind ((safe_takeOne pinned.1 pinned.2 CLAIM_ATTEMPTS htook h
      (Nat.zero_add _) fun hzero ↦ by cases hzero).mono fun result t hends ↦ ?_)
    match result, hends with
    | .error error, hends => exact fun t' hrely' _ ↦ Intact.outlasts hends hrely'
    | .ok (.ok key), ⟨hkey, leases', htook', hat⟩ =>
      subst hkey
      have hsplit : done ++ pinned :: fixed = (done ++ [pinned]) ++ fixed := by simp
      rw [hsplit]
      refine ih htook' hat fun other hother ↦ ?_
      rcases List.mem_append.mp hother with hother | hother
      · exact List.mem_append_left _ (hdone other hother)
      · rw [List.mem_singleton.mp hother]
        exact List.mem_append_right _ List.mem_cons_self
    | .ok (.error conflict), ⟨leases', htook', hleases⟩ =>
      refine safe_attempt_bind ((safe_giveBack fun key hkey ↦ ?_).mono fun result t' hintact ↦ ?_)
      · rw [hleases, htook' key, if_neg hkey]
      · cases result <;> exact fun t'' hrely' _ ↦ Intact.outlasts hintact hrely'

/-! ### Runs -/

variable (H) in
/-- How a process ends: the call is all or nothing. -/
def Ends (i j : ι) (outcome : Call × Except Error Answer) (w : World ι) : Prop :=
  j = i → ∀ result, outcome = (H.call, result) → H.AllOrNothing result w.registry

omit [DecidableEq ι] in
theorem HoldEnds.allOrNothing {result : Except Error (Option FixedPortConflict)}
    (h : H.HoldEnds H.fixed.rows result w) :
    H.AllOrNothing (result.map Answer.fixed) w.registry := by
  match result, h with
  | .error error, hintact => exact ⟨by rintro _ ⟨⟩, fun _ _ ↦ hintact, by rintro ⟨⟩⟩
  | .ok (some conflict), hintact => exact ⟨fun _ _ ↦ hintact, by rintro _ ⟨⟩, by rintro ⟨⟩⟩
  | .ok none, ⟨taken, leases, htook, hleases, hall⟩ =>
    refine ⟨by rintro _ ⟨⟩, by rintro _ ⟨⟩, fun _ pinned hpinned ↦ ?_⟩
    have hlease : (w.registry.leasesOf H.claimant).get? (resource pinned.2) =
        some ⟨H.claimant, H.expires⟩ := by
      rw [hleases, htook, if_pos (hall pinned hpinned)]
    exact ⟨_, (get?_leasesOf.mp hlease).1, rfl⟩

theorem safe_call (h : H.At i H.before 0 w) : Safe (machine ι project) (H.contract i) i (H.Ends i i)
    ((machine ι project).program i H.call) w := by
  have htook : H.Took [] H.before := fun key ↦ (if_neg List.not_mem_nil).symm
  have hhold : H.SafeHold project i (H.HoldEnds ([] ++ H.fixed.rows))
      (holdFixed H.claimant H.fixed H.now H.expires).run w :=
    safe_holdEach htook h fun _ hnone ↦ by cases hnone
  change Safe (machine ι project) (H.contract i) i (H.Ends i i)
    ((Answer.fixed <$> holdFixed H.claimant H.fixed H.now H.expires).run >>=
      fun result ↦ .done (H.call, result)) w
  rw [run_map]
  refine safe_map (safe_map (hhold.mono fun result w' hends _ other hsame ↦ ?_))
  rw [← (Prod.mk.inj hsame).2]
  exact hends.allOrNothing

/-- What another environment does is one statement. -/
theorem safe_other {call : Call} (hother : H.Other call) :
    Safe (machine ι project) (H.contract i) j (H.Ends i j) ((machine ι project).program j call) w := by
  have hends : ∀ {result w}, H.Ends i j (call, result) w := by
    intro result w _ other heq
    rw [(Prod.mk.inj heq).1] at hother
    exact hother.elim
  cases call with
  | acquire resource lease now =>
    refine fun t _ _ ↦ ⟨fun _ ↦ hother, fun choice _ ↦ ?_⟩
    cases choice <;> exact fun _ _ _ ↦ hends
  | releaseLease resource holder =>
    refine fun t _ _ ↦ ⟨fun _ ↦ hother, fun choice _ ↦ ?_⟩
    cases choice <;> exact fun _ _ _ ↦ hends
  | _ => exact hother.elim

variable (H) (project) in
/-- The call has been made on a registry, and none of its statements. -/
def called (i : ι) (registry : Registry) : Calls ι :=
  ⟨⟨registry, fun _ ↦ {}⟩,
    Function.update (fun _ ↦ none) i (some ((machine ι project).program i H.call))⟩

variable (H) in
/-- A step beside the call: others take leases and give them back, none of them coming upon a lapsed
lease of the claimant's, and the call's own statements are answered so that it spares what the
claimant had. -/
def Steps (i : ι) (c : Calls ι) : Step ι → Prop
  | .enter _ call => H.Other call
  | .leave _ => True
  | .act j choice =>
    match c.running j with
    | some (.perform effect _) =>
      if j = i then H.Unspoiled effect (c.world.since i).refusals c.world.registry (choice effect)
      else H.Lasts c.world.registry effect
    | _ => True

instance (i : ι) (c : Calls ι) (label : Step ι) : Decidable (H.Steps i c label) := by
  unfold Steps
  split
  · infer_instance
  · infer_instance
  · split <;> infer_instance

theorem sound : Sound (machine ι project) (H.contract i) (H.Ends i) (H.Steps i) where
  assume {c j choice effect rest} hsteps hrunning hji := by
    subst hji
    simpa [Steps, hrunning] using hsteps
  act {c j choice effect rest} hsteps hrunning _ hforeign := by
    refine ⟨trivial, fun k p hkj _ ↦ .inl fun hki ↦ ?_⟩
    subst hki
    have hlasts : H.Lasts c.world.registry effect := by
      simpa [Steps, hrunning, hkj.symm] using hsteps
    change ((perform j effect (choice effect) c.world).2.registry.leasesOf H.claimant = _ ∧
      ((perform j effect (choice effect) c.world).2.since k).refusals = _)
    cases choice effect with
    | none => exact ⟨rfl, congrArg Since.refusals (Function.update_of_ne hkj _ _)⟩
    | some outside =>
      refine ⟨leasesOf_foreign outside (hforeign hkj.symm) hlasts, ?_⟩
      have hsince : (perform j effect (some outside) c.world).2.since k =
          (c.world.since k).note effect (statement effect outside c.world.registry).2 := if_neg hkj
      rw [hsince]
      rfl
  enter {c j call world} hother _ hworld _ := by
    simp only [machine, Option.ite_none_right_eq_some] at hworld
    obtain rfl := Option.some.inj hworld.2
    refine ⟨trivial, safe_other hother, fun k p hkj _ ↦ .inl fun hki ↦ ⟨rfl, ?_⟩⟩
    subst hki
    exact congrArg Since.refusals (Function.update_of_ne hkj _ _)
  leave {c j p} _ _ _ := by
    refine ⟨trivial, fun k p hkj _ ↦ .inl fun hki ↦ ⟨rfl, ?_⟩⟩
    subst hki
    exact congrArg Since.refusals (Function.update_of_ne hkj _ _)

/-- The call takes every port or none, whatever other environments take and give back between its
statements.

Assumes: it gives back no lease the claimant had before, no error meets it with a lease taken or
renewed, and no other environment takes over a lapsed lease of the claimant's. -/
theorem hold_fixed_all_or_nothing {registry : Registry} {result : Except Error Answer}
    {labels : List (Step ι)} {c : Calls ι} (hbefore : H.before = registry.leasesOf H.claimant)
    (halong : (machine ι project).Along (H.Steps i) (H.called project i registry) labels)
    (hexec : (machine ι project).exec (H.called project i registry) labels = some c)
    (hdone : c.running i = some (.done (H.call, result))) :
    H.AllOrNothing result c.world.registry := by
  have hguarded : Guarded (machine ι project) (H.contract i) (H.Ends i) c := by
    refine sound.guarded_exec halong hexec ⟨trivial, fun j p hj ↦ ?_⟩
    by_cases hji : j = i
    · subst hji
      obtain rfl : (machine ι project).program j H.call = p := by simpa [called] using hj
      exact safe_call ⟨hbefore.symm, rfl⟩
    · simp [called, Function.update_of_ne hji] at hj
  exact hguarded.2 i _ hdone c.world ((H.contract i).rely_refl i _) trivial rfl result rfl

end Calls

end Hold

/-! ### A port that another environment holds -/

/-- A statement that does not fail and finds every row of an environment and of a unit. -/
def finds : (effect : Effect) → effect.Choice
  | .getEnvironment _ => some (some ⟨0⟩)
  | .getUnit _ => some (some "web")
  | effect => answers effect

/-- Environment 2 holds port 5002, and environment 1 has some leases. -/
def pinned (before : Leases) : Registry :=
  { Registry.fresh with leases := before.set (resource 5002) ⟨⟨2⟩, 1000⟩ }

/-- Environment 1 would hold ports 5001 and 5002 from the instant 10 until the instant 100. -/
def wants (before : Leases) : Hold :=
  { claimant := ⟨1⟩, fixed := (∅ : Ports).set "api" 5001 |>.set "db" 5002, now := 10, expires := 100
    before }

/-- The call, beside an environment that takes port 5003. -/
def beside : List (Step (Fin 2)) :=
  [.act 0 finds, .enter 1 (.acquire (resource 5003) ⟨⟨2⟩, 1000⟩ 20), .act 1 finds, .act 0 finds,
    .act 0 finds, .act 0 finds, .act 0 finds, .act 0 finds]

/-- Environments of one project. -/
def alone (_ : EnvId) : ProjectId :=
  ⟨0⟩

/-- The call has been answered a conflict. -/
def conflicted (H : Hold) : Option (Program Effect Effect.Answered (Call × Except Error Answer)) → Bool
  | some (.done (call, .ok (.fixed (some _)))) => call = H.call
  | _ => false

theorem result_of_conflicted {H : Hold} {c : Calls (Fin 2)} (h : conflicted H (c.running 0) = true) :
    ∃ conflict, c.running 0 = some (.done (H.call, .ok (.fixed (some conflict)))) := by
  unfold conflicted at h
  split at h
  · next call conflict hdone => exact ⟨conflict, of_decide_eq_true h ▸ hdone⟩
  · cases h

/-- An environment that had no lease has none after the conflict. -/
theorem hold_fixed_all_or_nothing_beside : ∃ c conflict,
    (machine (Fin 2) alone).exec ((wants ∅).called alone 0 (pinned ∅)) beside = some c ∧
      (wants ∅).AllOrNothing (.ok (.fixed (some conflict))) c.world.registry := by
  obtain ⟨c, hexec, hcheck⟩ := (Option.any_eq_true _ _).mp (show ((machine (Fin 2) alone).exec
    ((wants ∅).called alone 0 (pinned ∅)) beside).any (fun c ↦ conflicted (wants ∅) (c.running 0)) =
      true by decide +kernel)
  obtain ⟨conflict, hdone⟩ := result_of_conflicted hcheck
  exact ⟨c, conflict, hexec, Hold.hold_fixed_all_or_nothing (by decide +kernel) (by decide +kernel) hexec
    hdone⟩

/-- What environment 1 holds until the instant 50. -/
def until50 : Leases :=
  (∅ : Leases).set (resource 5001) ⟨⟨1⟩, 50⟩

/-- An environment that held the first port loses it at the conflict over the second. -/
theorem held_port_given_back : ∃ c conflict,
    (machine (Fin 2) alone).exec ((wants until50).called alone 0 (pinned until50)) beside = some c ∧
      c.running 0 = some (.done ((wants until50).call, .ok (.fixed (some conflict)))) ∧
        (pinned until50).leasesOf ⟨1⟩ = until50 ∧
          ¬(wants until50).AllOrNothing (.ok (.fixed (some conflict))) c.world.registry := by
  obtain ⟨c, hexec, hcheck⟩ := (Option.any_eq_true _ _).mp (show ((machine (Fin 2) alone).exec
    ((wants until50).called alone 0 (pinned until50)) beside).any (fun c ↦
      conflicted (wants until50) (c.running 0) && !(wants until50).Intact c.world.registry) =
        true by decide +kernel)
  obtain ⟨hconflicted, hlost⟩ := Bool.and_eq_true_iff.mp hcheck
  obtain ⟨conflict, hdone⟩ := result_of_conflicted hconflicted
  refine ⟨c, conflict, hexec, hdone, by decide +kernel, fun hwhole ↦ ?_⟩
  rw [decide_eq_true (hwhole.conflict conflict rfl)] at hlost
  cases hlost

end Nodal.Services
