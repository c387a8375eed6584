import Nodal.Lifecycle.PassSound

/-!
# What the registry write is handed

`Outputs` is meant to be the same whether one process ran the plan or several did, each reading what
the ones before it learned out of the journal. The rows of the journal carry it for every step that
answers something. A step that answers `null` writes nothing, and the upsert of `mark_step` then
keeps what the row held before. Where a failure of that step was kept, what it held is the report of
the failure, and a later process reads the report as the output of the step.

`commit_outputs_iff` says exactly when the map is the one of an uninterrupted run.
-/

set_option autoImplicit false

namespace Nodal.Lifecycle

open Nodal.Foundation

/-- The map one uninterrupted run hands to the registry write: what every step answers, where it is
not `null`. -/
def uninterrupted (plan : Plan) (answer : ℕ → Output) : Outputs :=
  plan.positioned.foldl (fun outputs entry ↦ outputs.record entry.1.key (answer entry.2))
    Outputs.new

/-! ### Maps built by a loop -/

section Loops

variable {answer : ℕ → Output} {done : List (ℕ × String)} {entries : List (Step × ℕ)}
  {outputs : Outputs} {key : String}

theorem gather_of_ne {entry : Step × ℕ} (h : key ≠ entry.1.key) :
    gather answer done outputs entry key = outputs key := by
  unfold gather
  split
  · rfl
  · exact Outputs.record_of_ne h

theorem foldl_gather_of_notMem (h : key ∉ entries.map fun entry ↦ entry.1.key) :
    entries.foldl (gather answer done) outputs key = outputs key := by
  induction entries generalizing outputs with
  | nil => rfl
  | cons entry entries ih =>
    rw [List.map_cons, List.mem_cons, not_or] at h
    rw [List.foldl_cons, ih h.2, gather_of_ne h.1]

/-- What the loop leaves under the key of a step. Assumes: no two steps have one key. -/
theorem foldl_gather_apply (hkeys : (entries.map fun entry ↦ entry.1.key).Nodup)
    {entry : Step × ℕ} (hentry : entry ∈ entries) :
    entries.foldl (gather answer done) outputs entry.1.key =
      if (entry.2, entry.1.key) ∈ done ∨ answer entry.2 = .null then outputs entry.1.key
      else some (answer entry.2) := by
  induction entries generalizing outputs with
  | nil => cases hentry
  | cons first entries ih =>
    obtain ⟨hnotin, hkeys⟩ := List.nodup_cons.mp hkeys
    rw [List.foldl_cons]
    rcases List.mem_cons.mp hentry with rfl | hentry
    · rw [foldl_gather_of_notMem hnotin, gather]
      by_cases hdone : (entry.2, entry.1.key) ∈ done
      · simp [hdone]
      · simp [hdone, Outputs.record_self]
    · have hne : entry.1.key ≠ first.1.key := fun heq ↦
        hnotin (List.mem_map.mpr ⟨entry, hentry, heq⟩)
      rw [ih hkeys hentry, gather_of_ne hne]

end Loops

section Rows

variable {rows : List StepRecord} {outputs : Outputs} {key : String}

private theorem foldl_recordRow_of_notMem (h : key ∉ rows.map StepRecord.key) :
    rows.foldl recordRow outputs key = outputs key := by
  induction rows generalizing outputs with
  | nil => rfl
  | cons row rows ih =>
    rw [List.map_cons, List.mem_cons, not_or] at h
    rw [List.foldl_cons, ih h.2, recordRow]
    cases row.output with
    | some output => exact Outputs.record_of_ne h.1
    | none => rfl

private theorem foldl_recordRow_apply (hkeys : (rows.map StepRecord.key).Nodup) {row : StepRecord}
    (hrow : row ∈ rows) (hspoken : row.output ≠ some .null) :
    rows.foldl recordRow Outputs.new row.key = row.output := by
  suffices h : ∀ outputs : Outputs, outputs row.key = none →
      rows.foldl recordRow outputs row.key = row.output from h _ rfl
  induction rows with
  | nil => cases hrow
  | cons first rows ih =>
    intro outputs hnone
    obtain ⟨hnotin, hkeys⟩ := List.nodup_cons.mp hkeys
    rw [List.foldl_cons]
    rcases List.mem_cons.mp hrow with rfl | hrow
    · rw [foldl_recordRow_of_notMem hnotin, recordRow]
      cases houtput : row.output with
      | none => exact hnone
      | some output =>
        have hne : output ≠ .null := fun heq ↦ hspoken (by rw [houtput, heq])
        simp [Outputs.record_self, hne]
    · have hne : row.key ≠ first.key := fun heq ↦ hnotin (List.mem_map.mpr ⟨row, hrow, heq⟩)
      refine ih hkeys hrow _ ?_
      rw [recordRow]
      cases first.output with
      | some output => exact (Outputs.record_of_ne hne).trans hnone
      | none => exact hnone

variable {plan : Plan} {answers : ℕ → Output → Prop} {answer : ℕ → Output} {v : View}

/-- Rows of two positions have two keys. -/
private theorem rows_keys_nodup (hv : Recorded plan answers answer v) (hkeys : plan.keys.Nodup) :
    ((v.steps.values.filter fun row ↦ row.state = .applied).map StepRecord.key).Nodup := by
  have hrows : v.steps.rows.Pairwise fun row row' ↦ row.2.key ≠ row'.2.key := by
    refine v.steps.sorted.imp_of_mem fun {row row'} hrow hrow' hlt heq ↦ ?_
    obtain ⟨_, step, hstep, hkey⟩ := hv.planned _ _ (Table.mem_rows_iff.mp hrow)
    obtain ⟨_, step', hstep', hkey'⟩ := hv.planned _ _ (Table.mem_rows_iff.mp hrow')
    have hfirst : plan.keys[row.1]? = some row.2.key := by
      simp [Plan.keys, hstep, hkey]
    have hsecond : plan.keys[row'.1]? = some row.2.key := by
      simp [Plan.keys, hstep', heq, hkey']
    have hbound : row.1 < plan.keys.length := (List.getElem?_eq_some_iff.mp hfirst).1
    exact hlt.ne ((List.getElem?_inj hbound hkeys).mp (hfirst.trans hsecond.symm))
  have hvalues : v.steps.values.Pairwise fun row row' ↦ row.key ≠ row'.key :=
    List.pairwise_map.mpr hrows
  exact List.pairwise_map.mpr (hvalues.filter _)

/-- What is read out of the journal under the key of a step: the output of its row, where the row is
applied. -/
theorem recordedOutputs_apply (hv : Recorded plan answers answer v) (hkeys : plan.keys.Nodup)
    {position : ℕ} {step : Step} (hstep : plan.steps[position]? = some step) :
    recordedOutputs v.steps.values step.key =
      ((v.steps.get? position).filter fun row ↦ row.state = .applied).bind StepRecord.output := by
  unfold recordedOutputs
  by_cases happlied : RecordedApplied v position
  · obtain ⟨row, hrow, hstate⟩ := happlied
    obtain ⟨_, step', hstep', hkey⟩ := hv.planned position row hrow
    obtain rfl : step' = step := Option.some.inj (hstep'.symm.trans hstep)
    have hmem : row ∈ v.steps.values.filter fun row ↦ row.state = .applied :=
      List.mem_filter.mpr ⟨Table.mem_values_iff.mpr ⟨position, hrow⟩, by simpa using hstate⟩
    rw [← hkey, foldl_recordRow_apply (rows_keys_nodup hv hkeys) hmem (hv.spoken position row hrow)]
    simp [hrow, Option.filter, hstate]
  · have hright : ((v.steps.get? position).filter fun row ↦ row.state = .applied) = none := by
      rw [Option.filter_eq_none_iff]
      intro row hrow hstate
      exact happlied ⟨row, hrow, by simpa using hstate⟩
    rw [hright, foldl_recordRow_of_notMem]
    · rfl
    · intro hmem
      obtain ⟨row, hrow, hkey⟩ := List.mem_map.mp hmem
      obtain ⟨hvalue, hstate⟩ := List.mem_filter.mp hrow
      obtain ⟨other, hother⟩ := Table.mem_values_iff.mp hvalue
      obtain ⟨_, step', hstep', hkey'⟩ := hv.planned other row hother
      have hfirst : plan.keys[position]? = some step.key := by simp [Plan.keys, hstep]
      have hsecond : plan.keys[other]? = some step.key := by
        simp [Plan.keys, hstep', ← hkey', hkey]
      have hbound : position < plan.keys.length := (List.getElem?_eq_some_iff.mp hfirst).1
      obtain rfl : position = other :=
        (List.getElem?_inj hbound hkeys).mp (hfirst.trans hsecond.symm)
      exact happlied ⟨row, hother, by simpa using hstate⟩

end Rows

/-! ### The maps compared -/

section Compared

variable {plan : Plan} {answers : ℕ → Output → Prop} {answer : ℕ → Output} {v : View}

/-- No step that answers `null` is recorded as applied after a failure of it was kept. -/
def NoReportLeft (plan : Plan) (answer : ℕ → Output) (v : View) : Prop :=
  ∀ position < plan.steps.length, answer position = .null → RecordedApplied v position →
    ¬KeptFailure v position

theorem positioned_keys : (plan.positioned.map fun entry ↦ entry.1.key) = plan.keys := by
  have hmap : (plan.positioned.map fun entry ↦ entry.1.key) =
      (plan.positioned.map Prod.fst).map Step.key := by rw [List.map_map]; rfl
  rw [hmap, Plan.positioned, List.zipIdx_map_fst, Plan.keys]

theorem uninterrupted_eq : uninterrupted plan answer =
    plan.positioned.foldl (gather answer []) Outputs.new := by
  unfold uninterrupted
  congr 1

/-- What the uninterrupted run hands over under the key of a step. -/
theorem uninterrupted_apply (hkeys : plan.keys.Nodup) {position : ℕ} {step : Step}
    (hstep : plan.steps[position]? = some step) :
    uninterrupted plan answer step.key =
      if answer position = .null then none else some (answer position) := by
  have hentry : (step, position) ∈ plan.positioned := Plan.mem_positioned_iff.mpr hstep
  rw [uninterrupted_eq, foldl_gather_apply (positioned_keys ▸ hkeys) hentry]
  simp [Outputs.new]

/-- What a pass hands over under the key of a step it found applied: the output of the row. -/
theorem handed_of_applied (hv : Recorded plan answers answer v) (hkeys : plan.keys.Nodup)
    {position : ℕ} {step : Step} {row : StepRecord} (hstep : plan.steps[position]? = some step)
    (hrow : v.steps.get? position = some row) (hstate : row.state = .applied) :
    handed plan answer v step.key = row.output := by
  have hentry : (step, position) ∈ plan.positioned := Plan.mem_positioned_iff.mpr hstep
  have hdone := (mem_keysApplied_iff hv hstep).mpr ⟨row, hrow, hstate⟩
  rw [handed, foldl_gather_apply (positioned_keys ▸ hkeys) hentry, if_pos (.inl hdone),
    recordedOutputs_apply hv hkeys hstep, hrow]
  simp [Option.filter, hstate]

/-- What a pass hands over under the key of a step it applied: the answer, where it is not `null`. -/
theorem handed_of_not_applied (hv : Recorded plan answers answer v) (hkeys : plan.keys.Nodup)
    {position : ℕ} {step : Step} (hstep : plan.steps[position]? = some step)
    (hnot : ¬RecordedApplied v position) :
    handed plan answer v step.key =
      if answer position = .null then none else some (answer position) := by
  have hentry : (step, position) ∈ plan.positioned := Plan.mem_positioned_iff.mpr hstep
  have hdone : (position, step.key) ∉ keysApplied v.steps.values :=
    fun hmem ↦ hnot ((mem_keysApplied_iff hv hstep).mp hmem)
  rw [handed, foldl_gather_apply (positioned_keys ▸ hkeys) hentry]
  by_cases hnull : answer position = .null
  · have hfilter : ((v.steps.get? position).filter fun row ↦ row.state = .applied) = none := by
      rw [Option.filter_eq_none_iff]
      exact fun row hrow hstate ↦ hnot ⟨row, hrow, by simpa using hstate⟩
    rw [if_pos (.inr hnull), if_pos hnull, recordedOutputs_apply hv hkeys hstep, hfilter]
    rfl
  · rw [if_neg (not_or.mpr ⟨hdone, hnull⟩), if_neg hnull]

/-- What neither hands over: a key of no step. -/
theorem handed_of_notMem (hv : Recorded plan answers answer v) {key : String}
    (hkey : key ∉ plan.keys) : handed plan answer v key = none := by
  rw [handed, foldl_gather_of_notMem (positioned_keys ▸ hkey), recordedOutputs,
    foldl_recordRow_of_notMem]
  · rfl
  · intro hmem
    obtain ⟨row, hrow, rfl⟩ := List.mem_map.mp hmem
    obtain ⟨position, hposition⟩ := Table.mem_values_iff.mp (List.mem_filter.mp hrow).1
    obtain ⟨_, step, hstep, hkey'⟩ := hv.planned position row hposition
    exact hkey (List.mem_map.mpr ⟨step, List.mem_of_getElem? hstep, hkey'.symm⟩)

theorem uninterrupted_of_notMem {key : String} (hkey : key ∉ plan.keys) :
    uninterrupted plan answer key = none := by
  rw [uninterrupted_eq, foldl_gather_of_notMem (positioned_keys ▸ hkey)]
  rfl

/-- A pass hands over the map of an uninterrupted run exactly when it found no report of a failure
in the row of a step that answers `null`. Assumes: no two steps have one key, and every step always
answers the same. -/
theorem handed_eq_uninterrupted_iff (hsteady : Steady answers answer)
    (hv : Recorded plan answers answer v) (hkeys : plan.keys.Nodup) :
    handed plan answer v = uninterrupted plan answer ↔ NoReportLeft plan answer v := by
  constructor
  · intro heq position hlt hnull happlied hkept
    obtain ⟨row, hrow, hstate⟩ := happlied
    have hstep : plan.steps[position]? = some plan.steps[position] :=
      List.getElem?_eq_getElem hlt
    have hnone := congrFun heq plan.steps[position].key
    rw [handed_of_applied hv hkeys hstep hrow hstate, uninterrupted_apply hkeys hstep,
      if_pos hnull] at hnone
    obtain ⟨row', hrow', houtput⟩ := (hv.silent hsteady position hnull).mpr hkept
    obtain rfl : row' = row := Option.some.inj (hrow'.symm.trans hrow)
    exact houtput hnone
  · intro hclean
    funext key
    by_cases hkey : key ∈ plan.keys
    · obtain ⟨step, hmem, rfl⟩ := List.mem_map.mp hkey
      obtain ⟨position, hlt, hget⟩ := List.mem_iff_getElem.mp hmem
      have hstep : plan.steps[position]? = some step := by
        rw [List.getElem?_eq_getElem hlt, hget]
      rw [uninterrupted_apply hkeys hstep]
      by_cases happlied : RecordedApplied v position
      · obtain ⟨row, hrow, hstate⟩ := happlied
        rw [handed_of_applied hv hkeys hstep hrow hstate]
        split
        · rename_i hnull
          by_contra houtput
          exact hclean position hlt hnull ⟨row, hrow, hstate⟩
            ((hv.silent hsteady position hnull).mp ⟨row, hrow, houtput⟩)
        · rename_i hanswer
          exact hv.answered hsteady position row hrow hstate hanswer
      · exact handed_of_not_applied hv hkeys hstep happlied
    · rw [handed_of_notMem hv hkey, uninterrupted_of_notMem hkey]

end Compared

/-! ### The map of a history -/

section Histories

variable {id : OperationId} {plan : Plan} {answer : ℕ → Output} {c₀ c₁ c₂ : Stage}
  {process : Process} {job : Job} {before after : List Happening} {kind : String}
  {outputs : Outputs}
  {next : Effect.Answer (.commit id kind outputs) →
    Program Effect Effect.Answer (Except Error Report)}

/-- A process hands over what its pass is owed to hand over, from the journal it found. -/
theorem commit_outputs_eq_handed (hidle : Idle c₀) (huntouched : Untouched id c₀.world)
    (halong : machine.Along (InOrder id plan fun position output ↦ output = answer position) c₀
      (before ++ .enter process job :: after))
    (hacts : ∀ label ∈ after, ∃ choice, label = .act process choice)
    (hbefore : machine.exec c₀ before = some c₁)
    (hexec : machine.exec c₀ (before ++ .enter process job :: after) = some c₂)
    (hcommit : c₂.running process = some (.perform (.commit id kind outputs) next)) :
    outputs = handed plan answer (c₁.world.view id) ∧
      Recorded plan (fun position output ↦ output = answer position) answer
        (c₁.world.view id) := by
  obtain ⟨found, hfound, _, hinv, p, hp, hsafe⟩ := last_session answer hidle huntouched halong
    hacts hbefore hexec
  obtain rfl : p = .perform (.commit id kind outputs) next := Option.some.inj (hp.symm.trans hcommit)
  obtain ⟨howed, _⟩ := hsafe c₂.world rfl hinv
  obtain ⟨_, hhanded, _⟩ := howed rfl
  exact ⟨hfound ▸ hhanded fun _ _ houtput ↦ houtput, hfound ▸ hinv.found⟩

/-- The outputs a process hands to the registry write are those of an uninterrupted run exactly when
no step that answers `null` was recorded as applied, when the process started, after a failure of it
had been kept. Assumes: a history of one process at a time, in which nothing was done about the
operation before; the keys of the plan are distinct and a step answers the same whenever it is
applied. -/
theorem commit_outputs_iff (hkeys : plan.keys.Nodup) (hidle : Idle c₀)
    (huntouched : Untouched id c₀.world)
    (halong : machine.Along (InOrder id plan fun position output ↦ output = answer position) c₀
      (before ++ .enter process job :: after))
    (hacts : ∀ label ∈ after, ∃ choice, label = .act process choice)
    (hbefore : machine.exec c₀ before = some c₁)
    (hexec : machine.exec c₀ (before ++ .enter process job :: after) = some c₂)
    (hcommit : c₂.running process = some (.perform (.commit id kind outputs) next)) :
    outputs = uninterrupted plan answer ↔ NoReportLeft plan answer (c₁.world.view id) := by
  obtain ⟨houtputs, hrecorded⟩ := commit_outputs_eq_handed hidle huntouched halong hacts hbefore
    hexec hcommit
  rw [houtputs]
  exact handed_eq_uninterrupted_iff (fun _ _ houtput ↦ houtput) hrecorded hkeys

end Histories

/-! ### A report that is handed over -/

/-- A base build of two steps, which keeps what it built when a step fails. -/
def build : Plan where
  kind := "build"
  subject := "base"
  params := ""
  recovery := .resume
  steps := [⟨"clone"⟩, ⟨"install"⟩]
  records := none
  fits := by decide

/-- The process of this machine that came `n`th. -/
def nth (n : ℕ) : Process := ⟨⟨"here", n⟩, n⟩

/-- The steps `failing` fails on, and the others succeed with nothing to say. -/
def failingOn (failing : ℕ → Bool) : (effect : Effect) → effect.Choice :=
  choosing (.ok build) (fun position ↦ if failing position then .error "no space" else .ok .null)
    (fun _ ↦ .ok ()) (.ok .null)

/-- The clone fails and is kept; the first retry applies it, and the install fails and is kept. -/
def keptTwice : List (Session Process Job Effect Effect.Choice) :=
  [sitting (nth 1) (.run 0 build) 6 (failingOn fun _ ↦ true),
    sitting (nth 2) (.retry 0 build) 12 (failingOn fun position ↦ position = 1)]

/-- The second retry, up to the registry write. -/
def secondRetry : Session Process Job Effect Effect.Choice :=
  sitting (nth 3) (.retry 0 build) 7 (failingOn fun _ ↦ false)

private theorem along_keptTwice : machine.Along
    (InOrder 0 build fun _ output ↦ output = .null) beginning
    (keptTwice.flatMap Session.complete ++ secondRetry.steps) := by
  have hact : ∀ process failing, Follows 0 build (fun _ output ↦ output = .null)
      (.act process (failingOn failing)) := fun process failing ↦
    follows_choosing (fun plan' h ↦ (Except.ok.inj h).symm) fun position output h ↦ by
      split at h
      · cases h
      · exact (Except.ok.inj h).symm
  refine (alone_sessions fun _ ↦ rfl).and fun label hlabel ↦ ?_
  rcases List.mem_append.mp hlabel with hlabel | hlabel
  · obtain ⟨session, hsession, hlabel⟩ := List.mem_flatMap.mp hlabel
    rcases List.mem_cons.mp hsession with rfl | hsession
    · exact follows_sitting follows_run (hact _ _) label hlabel
    · rw [List.mem_singleton.mp hsession] at hlabel
      exact follows_sitting follows_retry (hact _ _) label hlabel
  · exact follows_sitting follows_retry (hact _ _) label (List.mem_append_left _ hlabel)

/-- The second retry comes to its registry write with something under the key of the clone. -/
private theorem exec_keptTwice : ∃ c₁ c₂ kind outputs next,
    machine.exec beginning (keptTwice.flatMap Session.complete) = some c₁ ∧
      machine.exec beginning (keptTwice.flatMap Session.complete ++ secondRetry.steps) = some c₂ ∧
      c₂.running (nth 3) = some (.perform (.commit 0 kind outputs) next) ∧
      outputs ≠ uninterrupted build fun _ ↦ .null := by
  have hbefore : (machine.exec beginning (keptTwice.flatMap Session.complete)).isSome = true := by
    decide +kernel
  have hafter : ((machine.exec beginning (keptTwice.flatMap Session.complete ++
      secondRetry.steps)).bind fun c ↦ (commitCall c (nth 3)).map fun call ↦
        (call.1, (call.2 "clone").isSome)) = some (0, true) := by
    decide +kernel
  obtain ⟨c₁, hc₁⟩ := Option.isSome_iff_exists.mp hbefore
  obtain ⟨c₂, hc₂, hcall⟩ := Option.bind_eq_some_iff.mp hafter
  obtain ⟨⟨id, outputs⟩, hcommit, hclone⟩ := Option.map_eq_some_iff.mp hcall
  obtain ⟨rfl, hsome⟩ := Prod.mk.inj hclone
  obtain ⟨kind, next, hrunning⟩ := commitCall_eq_some hcommit
  refine ⟨c₁, c₂, kind, outputs, next, hc₁, hc₂, hrunning, fun heq ↦ ?_⟩
  rw [heq] at hsome
  cases hsome

/-- The outputs of a history need not be those of an uninterrupted run: the report of the failed
clone is handed over as what the clone produced. -/
theorem kept_report_handed : ∃ c₁ c₂ kind outputs next, build.keys.Nodup ∧
    machine.Along (InOrder 0 build fun _ output ↦ output = .null) beginning
      (keptTwice.flatMap Session.complete ++ secondRetry.steps) ∧
    machine.exec beginning (keptTwice.flatMap Session.complete) = some c₁ ∧
    machine.exec beginning (keptTwice.flatMap Session.complete ++ secondRetry.steps) = some c₂ ∧
    c₂.running (nth 3) = some (.perform (.commit 0 kind outputs) next) ∧
    outputs ≠ uninterrupted build fun _ ↦ .null := by
  obtain ⟨c₁, c₂, kind, outputs, next, hbefore, hexec, hrunning, hne⟩ := exec_keptTwice
  exact ⟨c₁, c₂, kind, outputs, next, by decide, along_keptTwice, hbefore, hexec, hrunning, hne⟩

/-- `commit_outputs_iff` at that history: the second retry found the report. -/
theorem commit_outputs_iff_keptTwice : ∃ c₁,
    machine.exec beginning (keptTwice.flatMap Session.complete) = some c₁ ∧
      ¬NoReportLeft build (fun _ ↦ .null) (c₁.world.view 0) := by
  obtain ⟨c₁, c₂, kind, outputs, next, hbefore, hexec, hrunning, hne⟩ := exec_keptTwice
  refine ⟨c₁, hbefore, fun hclean ↦ hne ?_⟩
  exact (commit_outputs_iff (by decide) (fun _ ↦ rfl) untouched_beginning along_keptTwice
    (fun label hlabel ↦ by
      obtain ⟨choice, _, rfl⟩ := List.mem_map.mp hlabel
      exact ⟨choice, rfl⟩) hbefore hexec hrunning).mpr hclean

end Nodal.Lifecycle
