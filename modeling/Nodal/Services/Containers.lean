import Nodal.Foundation.Text

/-!
# What is said of the containers of a machine

`services/docker.rs`: the running containers are listed and then inspected a batch at a time, and containers
are removed a batch at a time. A batch is one command, which acts on the names it can and exits with a
failure when one name failed, and a failure is taken for a daemon that does not answer. So what is said is
true exactly when no listed container has gone by the time its batch is inspected, and of each batch that is
removed every name goes or none (`truthful_iff`).
-/

set_option autoImplicit false

namespace Nodal.Services.Containers

open Foundation Foundation.Text

/-! ### Invocations -/

structure Output where
  stdout : Text
  stderr : Text
  code : Option ℤ

def Output.ok (output : Output) : Bool := output.code = some 0

inductive Error
  /-- The binary could not be started. -/
  | toolSpawn
  /-- A document that could not be read, by the column it could not be read at. -/
  | tool (column : ℕ)
  deriving DecidableEq

/-- What `docker` is asked: `ps --quiet --no-trunc`, `inspect --format {{json .}}` of so many containers, or
`rm --force --volumes` of so many. -/
inductive Args
  | ps
  | inspect (ids : List Text)
  | rm (names : List Text)

/-- What each call produces, by how many came before it. -/
abbrev Docker := ℕ → Args → Except Error Output

/-- Why an invocation that ran did not work, as one line. -/
def reason (output : Output) : Text :=
  let first := trim ((lines output.stderr).head?.getD [])
  if first = [] then "docker exited without an answer".toList else first

/-- One invocation: its output when it worked, and the reason when it did not. -/
def run (docker : Docker) (call : ℕ) (args : Args) : Except Error (Except Text Output) :=
  match docker call args with
  | .error .toolSpawn => .ok (.error "docker is not installed".toList)
  | .error other => .error other
  | .ok output => if output.ok then .ok (.ok output) else .ok (.error (reason output))

/-- How many containers one invocation is asked about. -/
def BATCH : ℕ := 200

def chunksFrom {α : Type} : ℕ → List α → List (List α)
  | 0, _ => []
  | fuel + 1, list => if list.isEmpty then [] else list.take BATCH :: chunksFrom fuel (list.drop BATCH)

def chunks {α : Type} (list : List α) : List (List α) := chunksFrom list.length list

/-- The words of a text that has one on a line. -/
def wordLines (text : Text) : List Text := ((lines text).map trim).filter (· ≠ [])

/-! ### The survey -/

/-- A container as `docker inspect` writes it. -/
structure Inspected where
  name : Text
  labels : Option (List (Text × Text))
  mounts : List (Option Text)

/-- One running container, reduced to what attribution reads. -/
structure Container where
  name : Text
  labels : List (Text × Text)
  mounts : List Text
  deriving DecidableEq

def container (inspected : Inspected) : Container where
  name := inspected.name.dropWhile (· = '/')
  labels := inspected.labels.getD []
  mounts := inspected.mounts.filterMap id

/-- How a container is written on a line, and how the line is read: by the column it cannot be read at, or
the container. -/
structure Format where
  render : Inspected → Text
  decode : Text → Except ℕ Inspected

/-- A container is written on one line, and is read from it. -/
structure Format.Reads (format : Format) (inspected : Inspected) : Prop where
  decode_render : format.decode (format.render inspected) = .ok inspected
  unbroken : '\n' ∉ format.render inspected
  closed : (format.render inspected).getLast? ≠ some '\r'
  written : trim (format.render inspected) ≠ []

inductive Survey
  | ran (containers : List Container)
  | unavailable (why : Text)

variable (format : Format)

def containersIn (text : Text) : Except Error (List Container) :=
  ((lines text).filter (trim · ≠ [])).mapM fun line ↦
    ((format.decode line).map container).mapError .tool

/-- Inspect batch after batch. With the answer, how many calls were made. -/
def inspectAll (docker : Docker) : ℕ → List (List Text) → List Container → Except Error Survey × ℕ
  | call, [], containers => (.ok (.ran containers), call)
  | call, batch :: batches, containers =>
    match run docker call (.inspect batch) with
    | .error error => (.error error, call + 1)
    | .ok (.error why) => (.ok (.unavailable why), call + 1)
    | .ok (.ok output) =>
      match containersIn format output.stdout with
      | .error error => (.error error, call + 1)
      | .ok more => inspectAll docker (call + 1) batches (containers ++ more)

/-- Every running container, or why there is no answer. -/
def survey (docker : Docker) : Except Error Survey × ℕ :=
  match run docker 0 .ps with
  | .error error => (.error error, 1)
  | .ok (.error why) => (.ok (.unavailable why), 1)
  | .ok (.ok listed) => inspectAll format docker 1 (chunks (wordLines listed.stdout)) []

/-! ### The removal -/

structure Removed where
  containers : List Text
  why : Option Text

/-- Remove batch after batch. With the report, how many calls were made. -/
def removeAll (docker : Docker) : ℕ → List (List Text) → List Text → Except Error Removed × ℕ
  | call, [], containers => (.ok ⟨containers, none⟩, call)
  | call, batch :: batches, containers =>
    match run docker call (.rm batch) with
    | .error error => (.error error, call + 1)
    | .ok (.error why) => (.ok ⟨containers, some why⟩, call + 1)
    | .ok (.ok output) => removeAll docker (call + 1) batches (containers ++ wordLines output.stdout)

/-- Remove containers by name, stopping them first. -/
def remove (docker : Docker) (names : List Text) : Except Error Removed × ℕ :=
  if names = [] then (.ok ⟨[], none⟩, 0) else removeAll docker 0 (chunks names) []

/-! ### The machine -/

/-- An identifier or a name of a container. -/
structure Word where
  text : Text
  nonempty : text ≠ []
  unbroken : ∀ c ∈ text, isWhitespace c = false

/-- Why the daemon could not be asked. -/
inductive Refusal
  | notInstalled
  | failed (stdout stderr : Text) (code : Option ℤ) (h : code ≠ some 0)

/-- What a machine does while it is asked. `listed` ran when they were listed, `inspected` is what is left to
inspect under each identifier when its batch is, and `removed` says which names of a batch a call removes. -/
structure Machine (format : Format) where
  refused : ℕ → Option Refusal
  listed : List Word
  inspected : Text → Option Inspected
  removed : ℕ → ℕ → Bool
  reads : ∀ id, ∀ document ∈ inspected id, format.Reads document

def Refusal.answer : Refusal → Except Error Output
  | notInstalled => .error .toolSpawn
  | failed stdout stderr code _ => .ok ⟨stdout, stderr, code⟩

/-- One text on a line. -/
def onLines (texts : List Text) : Text := texts.flatMap (· ++ ['\n'])

namespace Machine

variable {format} (machine : Machine format)

/-- The names of a batch that a call removes. -/
def took (call : ℕ) (batch : List Text) : List Text :=
  (batch.zipIdx.filter fun named ↦ machine.removed call named.2).map Prod.fst

/-- Every name of a batch is removed by a call. -/
def whole (call : ℕ) (batch : List Text) : Bool := batch.zipIdx.all fun named ↦ machine.removed call named.2

/-- `docker` on the machine: a command acts on the names it can, and fails when one of them failed. -/
def docker : Docker := fun call args ↦
  match machine.refused call with
  | some refusal => refusal.answer
  | none => .ok <| match args with
    | .ps => ⟨onLines (machine.listed.map (·.text)), [], some 0⟩
    | .inspect ids =>
      ⟨onLines ((ids.filterMap machine.inspected).map format.render),
        if ids.all (machine.inspected · |>.isSome) then [] else "Error: No such object".toList,
        if ids.all (machine.inspected · |>.isSome) then some 0 else some 1⟩
    | .rm names =>
      ⟨onLines (machine.took call names),
        if machine.whole call names then [] else "Error: No such container".toList,
        if machine.whole call names then some 0 else some 1⟩

end Machine

/-! ### What is true of it -/

namespace Machine

variable {format} (machine : Machine format)

/-- Each listed container is named, and the daemon is said not to answer only when a call that was made found
that it did not. -/
structure SurveyTrue : Prop where
  answered : ∃ answer, (survey format (machine.docker)).1 = .ok answer
  named : ∀ containers, (survey format (machine.docker)).1 = .ok (.ran containers) →
    ∀ id ∈ machine.listed, ∀ inspected ∈ machine.inspected id.text, container inspected ∈ containers
  unasked : ∀ why, (survey format (machine.docker)).1 = .ok (.unavailable why) →
    ∃ call < (survey format (machine.docker)).2, machine.refused call ≠ none

/-- The names that batches lose to the calls that were made. -/
def goneFrom (calls : ℕ) : ℕ → List (List Text) → List Text
  | _, [] => []
  | call, batch :: batches =>
    (if call < calls ∧ (machine.refused call).isNone = true then machine.took call batch else []) ++
      goneFrom calls (call + 1) batches

/-- The report of a removal is the names that are gone because of it. -/
def RemoveTrue (names : List Word) : Prop :=
  ∃ report, (remove (machine.docker) (names.map (·.text))).1 = .ok report ∧
    report.containers = machine.goneFrom (remove (machine.docker) (names.map (·.text))).2 0
      (chunks (names.map (·.text)))

/-- As long as calls are answered, what a batch asks for is there. -/
def StaysFrom : ℕ → List (List Text) → Prop
  | _, [] => True
  | call, batch :: batches => machine.refused call = none →
    (∀ id ∈ batch, (machine.inspected id).isSome = true) ∧ StaysFrom (call + 1) batches

/-- No listed container goes before its batch is inspected. -/
def Stays : Prop :=
  machine.refused 0 = none → machine.StaysFrom 1 (chunks (machine.listed.map (·.text)))

/-- As long as calls are answered, every name of a batch is removed, up to a batch of which none is. -/
def WholeFrom : ℕ → List (List Text) → Prop
  | _, [] => True
  | call, batch :: batches => machine.refused call = none →
    if machine.whole call batch = true then WholeFrom (call + 1) batches else machine.took call batch = []

end Machine

/-! ### Batches and lines -/

theorem flatten_chunksFrom {α : Type} {fuel : ℕ} {list : List α} (h : list.length ≤ fuel) :
    (chunksFrom fuel list).flatten = list := by
  induction fuel generalizing list with
  | zero => rw [List.length_eq_zero_iff.mp (Nat.le_zero.mp h)]; rfl
  | succ fuel ih =>
    rw [chunksFrom]
    cases list with
    | nil => rfl
    | cons first rest =>
      have hdrop : ((first :: rest).drop BATCH).length ≤ fuel := by
        rw [List.length_drop, BATCH]
        omega
      rw [List.isEmpty_cons, if_neg Bool.false_ne_true, List.flatten_cons, ih hdrop, List.take_append_drop]

theorem flatten_chunks {α : Type} (list : List α) : (chunks list).flatten = list :=
  flatten_chunksFrom (Nat.le_refl _)

/-- A word on a line. -/
def IsWord (text : Text) : Prop := text ≠ [] ∧ ∀ c ∈ text, isWhitespace c = false

theorem IsWord.notMem {text : Text} {c : Char} (h : IsWord text) (hc : isWhitespace c = true) : c ∉ text :=
  fun hmem ↦ by rw [h.2 c hmem] at hc; cases hc

theorem wordLines_onLines {texts : List Text} (h : ∀ text ∈ texts, IsWord text) :
    wordLines (onLines texts) = texts := by
  have hlines : lines (onLines texts) = texts := by
    rw [onLines, lines_flatMap fun text htext ↦ (h text htext).notMem (by decide)]
    refine List.map_congr_left (fun text htext ↦ ?_) |>.trans (List.map_id texts)
    exact chomp_eq_self fun hlast ↦ (h text htext).notMem (by decide) (List.mem_of_getLast? hlast)
  have htrim : texts.map trim = texts :=
    List.map_congr_left (fun text htext ↦ trim_eq_self (h text htext).2) |>.trans (List.map_id texts)
  rw [wordLines, hlines, htrim, List.filter_eq_self]
  exact fun text htext ↦ decide_eq_true (h text htext).1

variable {format}

theorem containersIn_onLines {inspected : List Inspected}
    (h : ∀ document ∈ inspected, format.Reads document) :
    containersIn format (onLines (inspected.map format.render)) = .ok (inspected.map container) := by
  have hlines : lines (onLines (inspected.map format.render)) = inspected.map format.render := by
    rw [onLines, lines_flatMap, List.map_map]
    · exact List.map_congr_left fun document hdocument ↦ chomp_eq_self (h document hdocument).closed
    · exact List.forall_mem_map.mpr fun document hdocument ↦ (h document hdocument).unbroken
  have hfilter : (inspected.map format.render).filter (trim · ≠ []) = inspected.map format.render := by
    refine List.filter_eq_self.mpr (List.forall_mem_map.mpr fun document hdocument ↦ ?_)
    exact decide_eq_true (h document hdocument).written
  rw [containersIn, hlines, hfilter]
  clear hlines hfilter
  induction inspected with
  | nil => rfl
  | cons document inspected ih =>
    obtain ⟨hdocument, hinspected⟩ := List.forall_mem_cons.mp h
    rw [List.map_cons, List.mapM_cons, ih hinspected, hdocument.decode_render]
    rfl

/-! ### What a call answers -/

section Calls

variable {machine : Machine format} {call calls : ℕ} {batch : List Text} {batches : List (List Text)}

/-- A call that is refused answers a reason. -/
theorem run_refused {refusal : Refusal} (h : machine.refused call = some refusal) (args : Args) :
    ∃ why, run (machine.docker) call args = .ok (.error why) := by
  have hdocker : machine.docker call args = refusal.answer := by
    unfold Machine.docker
    rw [h]
  rw [run, hdocker]
  cases refusal with
  | notInstalled => exact ⟨_, rfl⟩
  | failed stdout stderr code hcode =>
    refine ⟨reason ⟨stdout, stderr, code⟩, ?_⟩
    show (if (Output.mk stdout stderr code).ok then _ else _) = _
    rw [if_neg]
    exact fun hok ↦ hcode (of_decide_eq_true hok)

theorem run_ps (h : machine.refused call = none) :
    run (machine.docker) call .ps =
      .ok (.ok ⟨onLines (machine.listed.map (·.text)), [], some 0⟩) := by
  rw [run, Machine.docker, h]
  rfl

/-- An inspection answers when all it asks for is there. -/
theorem run_inspect (h : machine.refused call = none) :
    if ∀ id ∈ batch, (machine.inspected id).isSome = true then
      ∃ output, run (machine.docker) call (.inspect batch) = .ok (.ok output) ∧
        containersIn format output.stdout = .ok ((batch.filterMap machine.inspected).map container)
    else ∃ why, run (machine.docker) call (.inspect batch) = .ok (.error why) := by
  rw [run, Machine.docker, h]
  dsimp only
  have hall : batch.all (machine.inspected · |>.isSome) = true ↔
      ∀ id ∈ batch, (machine.inspected id).isSome = true := List.all_eq_true
  by_cases hthere : ∀ id ∈ batch, (machine.inspected id).isSome = true
  · rw [if_pos hthere, hall.mpr hthere]
    refine ⟨_, rfl, containersIn_onLines fun document hdocument ↦ ?_⟩
    obtain ⟨id, -, hid⟩ := List.mem_filterMap.mp hdocument
    exact machine.reads id document hid
  · rw [if_neg hthere, eq_false_of_ne_true (hall.not.mpr hthere)]
    exact ⟨_, rfl⟩

/-- A removal answers when every name of it is removed. -/
theorem run_rm (h : machine.refused call = none) (hwords : ∀ name ∈ batch, IsWord name) :
    if machine.whole call batch = true then
      ∃ output, run (machine.docker) call (.rm batch) = .ok (.ok output) ∧
        wordLines output.stdout = machine.took call batch
    else ∃ why, run (machine.docker) call (.rm batch) = .ok (.error why) := by
  have htook : ∀ name ∈ machine.took call batch, IsWord name := by
    intro name hname
    obtain ⟨⟨named, index⟩, hnamed, rfl⟩ := List.mem_map.mp hname
    exact hwords named (List.fst_mem_of_mem_zipIdx (List.mem_filter.mp hnamed).1)
  rw [run, Machine.docker, h]
  dsimp only
  cases hwhole : machine.whole call batch with
  | true => exact ⟨_, rfl, wordLines_onLines htook⟩
  | false => exact ⟨_, rfl⟩

/-- From a call on, what the batches answer: all that is left of them, or a refusal exactly where nothing
has gone. -/
theorem inspectAll_spec (hearlier : ∀ earlier < call, machine.refused earlier = none)
    (containers : List Container) :
    ((∃ why, (inspectAll format (machine.docker) call batches containers).1 = .ok (.unavailable why)) ∨
      (inspectAll format (machine.docker) call batches containers).1 = .ok
        (.ran (containers ++ (batches.flatten.filterMap machine.inspected).map container))) ∧
    ((∀ why, (inspectAll format (machine.docker) call batches containers).1 = .ok (.unavailable why) →
      ∃ asked < (inspectAll format (machine.docker) call batches containers).2,
        machine.refused asked ≠ none) ↔ machine.StaysFrom call batches) := by
  induction batches generalizing call containers with
  | nil =>
    rw [inspectAll, List.flatten_nil, List.filterMap_nil, List.map_nil, List.append_nil]
    exact ⟨Or.inr rfl, iff_of_true (fun _ h ↦ nomatch h) trivial⟩
  | cons batch batches ih =>
    rw [inspectAll, Machine.StaysFrom]
    cases hrefused : machine.refused call with
    | some refusal =>
      obtain ⟨why, hrun⟩ := @run_refused format _ _ _ hrefused (.inspect batch)
      rw [hrun]
      refine ⟨Or.inl ⟨why, rfl⟩, iff_of_true (fun _ _ ↦ ⟨call, Nat.lt_succ_self call, ?_⟩) fun h ↦ nomatch h⟩
      rw [hrefused]
      exact Option.some_ne_none refusal
    | none =>
      have hcall := @run_inspect format _ _ batch hrefused
      rw [forall_prop_of_true rfl]
      have hbefore : ∀ earlier < call + 1, machine.refused earlier = none := by
        intro earlier hlt
        rcases Nat.lt_succ_iff_lt_or_eq.mp hlt with hless | rfl
        · exact hearlier earlier hless
        · exact hrefused
      split_ifs at hcall with hthere
      · obtain ⟨output, hrun, hcontainers⟩ := hcall
        rw [hrun]
        dsimp only
        rw [hcontainers, and_iff_right hthere]
        dsimp only
        have hlater := ih hbefore (containers ++ (batch.filterMap machine.inspected).map container)
        rwa [List.append_assoc, ← List.map_append, ← List.filterMap_append] at hlater
      · obtain ⟨why, hrun⟩ := hcall
        rw [hrun]
        refine ⟨Or.inl ⟨why, rfl⟩, iff_of_false (fun h ↦ ?_) fun h ↦ hthere h.1⟩
        obtain ⟨asked, hasked, hne⟩ := h why rfl
        exact hne (hbefore asked hasked)

/-- No call is made before the calls that were made are over. -/
theorem goneFrom_of_le (h : calls ≤ call) : machine.goneFrom calls call batches = [] := by
  induction batches generalizing call with
  | nil => rfl
  | cons batch batches ih =>
    rw [Machine.goneFrom, if_neg fun hboth ↦ absurd hboth.1 (Nat.not_lt.mpr h), ih (Nat.le_succ_of_le h)]
    rfl

theorem le_removeAll (docker : Docker) (containers : List Text) :
    call ≤ (removeAll docker call batches containers).2 := by
  induction batches generalizing call containers with
  | nil => exact Nat.le_refl call
  | cons batch batches ih =>
    rw [removeAll]
    cases run docker call (.rm batch) with
    | error error => exact Nat.le_succ call
    | ok answer =>
      cases answer with
      | error why => exact Nat.le_succ call
      | ok output => exact Nat.le_of_succ_le (ih _)

/-- From a call on, the report is what is gone exactly where every batch goes whole, up to one of which
nothing does. -/
theorem removeAll_spec (hwords : ∀ batch ∈ batches, ∀ name ∈ batch, IsWord name) (containers : List Text) :
    ∃ report, (removeAll (machine.docker) call batches containers).1 = .ok report ∧
      (report.containers = containers ++ machine.goneFrom
        (removeAll (machine.docker) call batches containers).2 call batches ↔
          machine.WholeFrom call batches) := by
  induction batches generalizing call containers with
  | nil => exact ⟨_, rfl, iff_of_true (List.append_nil containers).symm trivial⟩
  | cons batch batches ih =>
    obtain ⟨hbatch, hbatches⟩ := List.forall_mem_cons.mp hwords
    have hstop : machine.goneFrom (call + 1) call (batch :: batches) =
        if (machine.refused call).isNone = true then machine.took call batch else [] := by
      rw [Machine.goneFrom, goneFrom_of_le (Nat.le_refl _), List.append_nil]
      exact if_congr (and_iff_right (Nat.lt_succ_self call)) rfl rfl
    rw [removeAll, Machine.WholeFrom]
    cases hrefused : machine.refused call with
    | some refusal =>
      obtain ⟨why, hrun⟩ := @run_refused format _ _ _ hrefused (.rm batch)
      rw [hrun]
      refine ⟨_, rfl, iff_of_true ?_ fun h ↦ nomatch h⟩
      rw [hstop, hrefused]
      exact (List.append_nil containers).symm
    | none =>
      have hcall := @run_rm format _ _ batch hrefused hbatch
      rw [forall_prop_of_true rfl]
      split_ifs at hcall ⊢ with hwhole
      · obtain ⟨output, hrun, hlines⟩ := hcall
        rw [hrun]
        dsimp only
        rw [hlines]
        obtain ⟨report, hreport, hlater⟩ := @ih (call + 1) hbatches (containers ++ machine.took call batch)
        refine ⟨report, hreport, ?_⟩
        rw [Machine.goneFrom, if_pos ⟨le_removeAll _ _, by rw [hrefused]; rfl⟩, ← List.append_assoc]
        exact hlater
      · obtain ⟨why, hrun⟩ := hcall
        rw [hrun]
        refine ⟨_, rfl, ?_⟩
        rw [hstop, hrefused]
        show containers = containers ++ machine.took call batch ↔ _
        exact List.self_eq_append_right

end Calls

section Machine

variable {machine : Machine format} {names : List Word}

theorem mem_chunks {α : Type} {list chunk : List α} {a : α} (hchunk : chunk ∈ chunks list) (ha : a ∈ chunk) :
    a ∈ list := by
  rw [← flatten_chunks list]
  exact List.mem_flatten_of_mem hchunk ha

theorem Word.isWord (word : Word) : IsWord word.text := ⟨word.nonempty, word.unbroken⟩

theorem surveyTrue_iff : machine.SurveyTrue ↔ machine.Stays := by
  have hlines : wordLines (onLines (machine.listed.map (·.text))) = machine.listed.map (·.text) :=
    wordLines_onLines (List.forall_mem_map.mpr fun id _ ↦ id.isWord)
  cases hrefused : machine.refused 0 with
  | some refusal =>
    obtain ⟨why, hrun⟩ := @run_refused format _ _ _ hrefused .ps
    have hsurvey : survey format (machine.docker) = (.ok (.unavailable why), 1) := by
      rw [survey, hrun]
    refine iff_of_true ⟨⟨_, by rw [hsurvey]⟩, ?_, ?_⟩ fun h ↦ absurd (hrefused.symm.trans h) nofun
    · rw [hsurvey]
      exact fun _ h ↦ nomatch h
    · rw [hsurvey]
      exact fun _ _ ↦ ⟨0, Nat.one_pos, by rw [hrefused]; exact Option.some_ne_none refusal⟩
  | none =>
    have hsurvey : survey format (machine.docker) =
        inspectAll format (machine.docker) 1 (chunks (machine.listed.map (·.text))) [] := by
      rw [survey, run_ps hrefused]
      dsimp only
      rw [hlines]
    have hbefore : ∀ earlier < 1, machine.refused earlier = none := by
      intro earlier hlt
      rw [Nat.lt_one_iff.mp hlt, hrefused]
    obtain ⟨hanswer, hunasked⟩ :=
      @inspectAll_spec format machine 1 (chunks (machine.listed.map (·.text))) hbefore []
    rw [Machine.Stays, forall_prop_of_true hrefused, ← hunasked, ← hsurvey]
    rw [← hsurvey] at hanswer
    refine ⟨fun h ↦ h.unasked, fun h ↦ ⟨?_, fun containers hran id hid inspected hinspected ↦ ?_, h⟩⟩
    · rcases hanswer with ⟨why, hwhy⟩ | hran
      · exact ⟨_, hwhy⟩
      · exact ⟨_, hran⟩
    · rcases hanswer with ⟨why, hwhy⟩ | hran'
      · rw [hran] at hwhy
        cases hwhy
      · rw [hran] at hran'
        cases hran'
        rw [List.nil_append, flatten_chunks]
        exact List.mem_map_of_mem (List.mem_filterMap.mpr ⟨id.text, List.mem_map_of_mem hid, hinspected⟩)

theorem removeTrue_iff :
    machine.RemoveTrue names ↔ machine.WholeFrom 0 (chunks (names.map (·.text))) := by
  rw [Machine.RemoveTrue, remove]
  by_cases hnames : names.map (·.text) = []
  · rw [if_pos hnames, hnames]
    exact iff_of_true ⟨_, rfl, rfl⟩ trivial
  · rw [if_neg hnames]
    have hwords : ∀ batch ∈ chunks (names.map (·.text)), ∀ name ∈ batch, IsWord name := by
      intro batch hbatch name hname
      obtain ⟨word, -, rfl⟩ := List.mem_map.mp (mem_chunks hbatch hname)
      exact word.isWord
    obtain ⟨report, hreport, hgone⟩ := @removeAll_spec format machine 0 _ hwords []
    rw [List.nil_append] at hgone
    rw [← hgone]
    constructor
    · rintro ⟨other, hother, hgone⟩
      rw [hreport] at hother
      cases hother
      exact hgone
    · exact fun h ↦ ⟨report, hreport, h⟩

end Machine

/-- The survey and the removal tell the truth exactly when no listed container goes before its batch is
inspected, and of each batch that is removed every name goes or none. -/
theorem truthful_iff (format : Format) (machine : Machine format) (names : List Word) :
    machine.SurveyTrue ∧ machine.RemoveTrue names ↔
      machine.Stays ∧ machine.WholeFrom 0 (chunks (names.map (·.text))) :=
  and_congr surveyTrue_iff removeTrue_iff

/-- A database, as it is inspected. -/
def database : Inspected := ⟨"/shop-db".toList, none, []⟩

/-- How the database is written. -/
def databaseLine : Text :=
  "\x7b\"Name\":\"/shop-db\",\"Config\":\x7b\"Labels\":null\x7d,\"Mounts\":[]\x7d".toList

def ofDatabase : Format where
  render _ := databaseLine
  decode text := if text = databaseLine then .ok database else .error 0

theorem ofDatabase_reads : ofDatabase.Reads database where
  decode_render := by
    show (if databaseLine = databaseLine then Except.ok database else Except.error 0) = _
    exact if_pos rfl
  unbroken := by decide +kernel
  closed := by decide +kernel
  written := by decide +kernel

/-- A container of which one is left and another has gone, under each of the two calls. -/
def vanishing : Machine ofDatabase where
  refused _ := none
  listed := [⟨"3f2a".toList, by decide +kernel, forall_of_all (by decide +kernel)⟩,
    ⟨"77c1".toList, by decide +kernel, forall_of_all (by decide +kernel)⟩]
  inspected id := if id = "3f2a".toList then some database else none
  removed _ index := index = 0
  reads id document h := by
    by_cases hid : id = "3f2a".toList
    · rw [if_pos hid] at h
      cases h
      exact ofDatabase_reads
    · rw [if_neg hid] at h
      cases h

/-- The names of the two. -/
def two : List Word :=
  [⟨"shop-db".toList, by decide +kernel, forall_of_all (by decide +kernel)⟩,
    ⟨"shop-web".toList, by decide +kernel, forall_of_all (by decide +kernel)⟩]

/-- A container that has gone makes the daemon one that does not answer, and one that cannot be removed keeps
the one that was out of the report. -/
theorem vanished_untrue :
    (survey ofDatabase vanishing.docker).1 = .ok (.unavailable "Error: No such object".toList) ∧
      (remove vanishing.docker (two.map (·.text))).1 =
        .ok ⟨[], some "Error: No such container".toList⟩ ∧
      vanishing.goneFrom (remove vanishing.docker (two.map (·.text))).2 0 (chunks (two.map (·.text))) =
        ["shop-db".toList] ∧
      ¬vanishing.SurveyTrue ∧ ¬vanishing.RemoveTrue two := by
  have hsurvey : (survey ofDatabase vanishing.docker).1 =
      .ok (.unavailable "Error: No such object".toList) := by
    rfl
  have hremove : (remove vanishing.docker (two.map (·.text))).1 =
      .ok ⟨[], some "Error: No such container".toList⟩ := by
    rfl
  have hgone : vanishing.goneFrom (remove vanishing.docker (two.map (·.text))).2 0
      (chunks (two.map (·.text))) = ["shop-db".toList] := by
    decide +kernel
  refine ⟨hsurvey, hremove, hgone, fun h ↦ ?_, fun ⟨report, hreport, hequal⟩ ↦ ?_⟩
  · obtain ⟨call, -, hrefused⟩ := h.unasked _ hsurvey
    exact hrefused rfl
  · rw [hremove] at hreport
    cases hreport
    rw [hgone] at hequal
    cases hequal

end Nodal.Services.Containers
