import Nodal.Hook.Approvals

/-!
# Approvals made side by side

`lifecycle/hooks.rs`: `approve` opens the record, changes one project's entry and saves the whole of
it. Each of the file operations is a step of its own, so any number of approvals interleave between
them, and saving is two of them: the file is emptied and then filled.

What a call saves is the record it opened with one entry changed. So the file ends with exactly the
last approval of each project where no call opened it between another's emptying and filling, and the
file a call empties is still the one it opened (`approved_of_undisturbed`).
-/

set_option autoImplicit false

namespace Nodal.Hook

open Foundation

/-! ### The calls -/

/-- The file operations of an approval. The filling of the file carries whose approval it is. -/
inductive Call
  | read
  | createDir
  | truncate
  | write (text : String) (project : String) (hooks : Hooks)
  | own

/-- What a file operation answers. -/
abbrev Answer : Call → Type
  | .read => Except String (Option String)
  | _ => Except String Unit

/-- How a file operation fails, and how much of a text had reached the file. -/
structure Fault where
  why : String
  left : String
  deriving DecidableEq, Repr

/-- What the outside chooses for a file operation. -/
abbrev Choice (_ : Call) : Type := Option Fault

abbrev Doing := Attempt Call Answer Error

/-- A file operation whose failure ends the call. -/
def attempt {α : Type} (answer : Except String α) : Doing α :=
  match answer with
  | .ok value => return value
  | .error why => throw (.io why)

/-- Read the file. One that is not there approves nothing. -/
def Approvals.open' (host : Host) : Doing Approvals := do
  let file ← attempt (← Attempt.call .read)
  match opened host file with
  | some approvals => return approvals
  | none => throw .recipe

/-- Write the file: its directory, the text, and the mode that makes it the owner's alone. -/
def Approvals.save (host : Host) (approvals : Approvals) (project : String) (hooks : Hooks) :
    Doing Unit := do
  attempt (← Attempt.call .createDir)
  match host.encode approvals with
  | none => throw .storeEncode
  | some text =>
    attempt (← Attempt.call .truncate)
    attempt (← Attempt.call (.write text project hooks))
    attempt (← Attempt.call .own)

/-- Approve exactly the hooks a project declares now, and answer how many that is. -/
def approve (host : Host) (project : String) (hooks : Hooks) : Doing ℕ := do
  let approvals ← Approvals.open' host
  Approvals.save host (approvals.approve host project hooks) project hooks
  return (approvedOf host hooks).rows.length

/-! ### The file -/

/-- The file, with what the calls have done to it. -/
structure World (ι : Type) where
  /-- What is at the record's path. -/
  file : Option String
  /-- What each call found there. -/
  held : ι → Option (Option String)
  /-- The call that has emptied the file and not filled it. -/
  filling : Option ι
  /-- Every approval that reached the file, in order. -/
  made : List (String × Hooks)

variable {ι : Type} [DecidableEq ι]

/-- What one file operation does. -/
def perform (i : ι) (effect : Call) (choice : Choice effect) (w : World ι) :
    Answer effect × World ι :=
  match effect, choice with
  | .read, none => (.ok w.file, { w with held := Function.update w.held i (some w.file) })
  | .read, some fault => (.error fault.why, w)
  | .createDir, none => (.ok (), w)
  | .createDir, some fault => (.error fault.why, w)
  | .truncate, none => (.ok (), { w with file := some "", filling := some i })
  | .truncate, some fault => (.error fault.why, w)
  | .write text project hooks, none =>
    (.ok (), { w with file := some text, filling := none, made := w.made ++ [(project, hooks)] })
  | .write _ _ _, some fault => (.error fault.why, { w with file := some fault.left })
  | .own, none => (.ok (), w)
  | .own, some fault => (.error fault.why, w)

/-- Any number of approvals, each of one project's hooks. -/
def machine (ι : Type) [DecidableEq ι] (host : Host) :
    Machine ι (String × Hooks) (World ι) Call Answer Choice (Except Error ℕ) where
  program _ job := (approve host job.1 job.2).run
  enter _ _ w := some w
  leave _ w := w
  perform := perform

/-- The last approval of a project that reached the file. -/
def lastMade (host : Host) (made : List (String × Hooks)) (project : String) : Option Hooks :=
  (made.reverse.find? fun approval ↦ host.keyOf approval.1 = host.keyOf project).map Prod.snd

/-- The record after approvals, one after the other. -/
def approvalsOf (host : Host) (start : Approvals) (made : List (String × Hooks)) : Approvals :=
  made.foldl (fun approvals approval ↦ approvals.approve host approval.1 approval.2) start

/-- The file approves, for each project, exactly the commands of its last approval, and what it
approved at the start for one nobody approved since. -/
def Exact (host : Host) (start : Approvals) (w : World ι) : Prop :=
  ∃ approvals, opened host w.file = some approvals ∧ ∀ project phase command,
    approvals.allows host project phase command = match lastMade host w.made project with
      | some hooks => decide (phase.command hooks = some command)
      | none => start.allows host project phase command

/-- No call opens the file, or empties it, between another's emptying and filling; the file a call
empties is still what it opened; and a call that has emptied the file fills it. -/
def Undisturbed (c : Config ι (World ι) Call Answer (Except Error ℕ)) :
    Label ι (String × Hooks) Call Choice → Prop
  | .enter _ _ => True
  | .act i choice =>
    match c.running i with
    | some (.perform .read _) => c.world.filling = none
    | some (.perform .truncate _) =>
      c.world.filling = none ∧ c.world.held i = some c.world.file
    | some (.perform (.write text project hooks) _) => choice (.write text project hooks) = none
    | _ => True
  | .leave i => c.world.filling ≠ some i

/-- A record with a file, before any call. -/
def World.start (file : Option String) : World ι := ⟨file, fun _ ↦ none, none, []⟩

/-! ### Approvals one after the other -/

variable {host : Host} {start : Approvals} {made : List (String × Hooks)}

/-- The record after approvals allows what the last of each project declares. -/
theorem allows_approvalsOf (hhost : host.Faithful) (project : String) (phase : Phase)
    (command : String) : (approvalsOf host start made).allows host project phase command =
      match lastMade host made project with
      | some hooks => decide (phase.command hooks = some command)
      | none => start.allows host project phase command := by
  induction made using List.reverseRecOn with
  | nil => rfl
  | append_singleton made approval ih =>
    have hfold : approvalsOf host start (made ++ [approval]) =
        (approvalsOf host start made).approve host approval.1 approval.2 := by
      simp [approvalsOf]
    rw [hfold, allows_approve hhost]
    by_cases hkey : host.keyOf project = host.keyOf approval.1
    · have hlast : lastMade host (made ++ [approval]) project = some approval.2 := by
        simp [lastMade, hkey]
      rw [if_pos hkey, hlast]
    · have hlast : lastMade host (made ++ [approval]) project = lastMade host made project := by
        simp [lastMade, Ne.symm hkey]
      rw [if_neg hkey, hlast, ih]

/-! ### What a call counts on -/

/-- The record the file holds is the approvals made so far, unless a call is filling it. -/
def Reflects (host : Host) (start : Approvals) (w : World ι) : Prop :=
  w.filling = none → opened host w.file = some (approvalsOf host start w.made)

/-- What a call counts on, and what it owes: it fills the file with the approvals made so far and
its own. -/
def approving (host : Host) (start : Approvals) : Contract ι (World ι) Call Choice where
  inv := Reflects host start
  rely i s t := t.held i = s.held i ∧
    (s.filling = some i → t.filling = some i ∧ t.made = s.made)
  rely_refl _ _ := ⟨rfl, fun h ↦ ⟨h, rfl⟩⟩
  rely_trans _ := fun hst htu ↦ ⟨htu.1.trans hst.1, fun h ↦
    ⟨(htu.2 (hst.2 h).1).1, (htu.2 (hst.2 h).1).2.trans (hst.2 h).2⟩⟩
  assume i effect choice w := match effect with
    | .read => w.filling = none
    | .truncate => w.filling = none ∧ w.held i = some w.file
    | .write _ _ _ => choice = none
    | _ => True
  pre i effect w := match effect with
    | .write text project hooks => w.filling = some i ∧
      host.encode ((approvalsOf host start w.made).approve host project hooks) = some text
    | _ => True

variable {i : ι} {w : World ι} {project : String} {hooks : Hooks} {α β : Type}

/-- What a call holds after it opened the record. -/
def Holds (host : Host) (i : ι) (approvals : Approvals) (w : World ι) : Prop :=
  ∃ file, w.held i = some file ∧ opened host file = some approvals

/-- A failed file operation ends a call. -/
theorem safe_attempt {answer : Except String α} {f : α → Doing β} {Q : Except Error β → World ι → Prop}
    (h : ∀ value, answer = .ok value →
      Safe (machine ι host) (approving host start) i Q (f value).run w)
    (hfails : ∀ error t, Q (.error error) t) :
    Safe (machine ι host) (approving host start) i Q (attempt answer >>= f).run w := by
  cases answer with
  | ok value => exact h value rfl
  | error why => exact fun t _ _ ↦ hfails _ t

/-- Opening the record finds the approvals of what is then in the file. -/
theorem safe_open : Safe (machine ι host) (approving host start) i
    (fun result t ↦ ∀ approvals, result = .ok approvals → Holds host i approvals t)
    (Approvals.open' host).run w := by
  unfold Approvals.open'
  rw [Attempt.run_call_bind]
  intro t _ _
  refine ⟨trivial, fun choice _ ↦ ?_⟩
  refine safe_attempt (fun file hfile ↦ ?_) (fun _ _ _ h ↦ nomatch h)
  cases choice with
  | some fault => cases hfile
  | none =>
    obtain rfl : t.file = file := Except.ok.inj hfile
    split
    · next approvals hopened =>
      rintro u ⟨hheld, _⟩ _ _ heq
      refine ⟨t.file, ?_, (Except.ok.inj heq) ▸ hopened⟩
      rw [hheld]
      simp [machine, perform]
    · exact fun _ _ _ _ h ↦ nomatch h

/-- A call that holds the record fills the file with it and its own approval. -/
theorem safe_save {approvals : Approvals} (hw : Holds host i approvals w) :
    Safe (machine ι host) (approving host start) i (fun _ _ ↦ True)
      (Approvals.save host (approvals.approve host project hooks) project hooks).run w := by
  obtain ⟨file, hheld, hopened⟩ := hw
  unfold Approvals.save
  rw [Attempt.run_call_bind]
  intro t ⟨hheldt, _⟩ _
  refine ⟨trivial, fun choice _ ↦ safe_attempt (fun _ hdir ↦ ?_) fun _ _ ↦ trivial⟩
  have hworld : (perform i .createDir choice t).2 = t := by cases choice <;> rfl
  split
  · exact fun _ _ _ ↦ trivial
  · next text hencoded =>
    rw [Attempt.run_call_bind]
    rintro u ⟨hheldu, _⟩ hinv
    refine ⟨trivial, fun choice hassume ↦ safe_attempt (fun _ hemptied ↦ ?_) fun _ _ ↦ trivial⟩
    -- The file is still what the call opened, so the record it holds is the approvals so far.
    have hsame : file = u.file := by
      have hchain : u.held i = some file := by
        rw [hheldu]
        exact (congrArg (fun w ↦ w.held i) hworld).trans (hheldt.trans hheld)
      exact Option.some.inj (hchain.symm.trans hassume.2)
    have happrovals : approvals = approvalsOf host start u.made :=
      Option.some.inj (hopened.symm.trans (hsame ▸ hinv hassume.1))
    cases choice with
    | some fault => cases hemptied
    | none =>
      rw [Attempt.run_call_bind]
      rintro v ⟨_, hfilling⟩ _
      obtain ⟨hmine, hmade⟩ := hfilling rfl
      refine ⟨⟨hmine, ?_⟩, fun choice _ ↦ safe_attempt (fun _ _ ↦ ?_) fun _ _ ↦ trivial⟩
      · rw [hmade]
        exact happrovals ▸ hencoded
      · refine fun _ _ _ ↦ ⟨trivial, fun choice _ ↦ ?_⟩
        cases choice <;> exact fun _ _ _ ↦ trivial

/-- Every approval keeps the contract. -/
theorem safe_approve : Safe (machine ι host) (approving host start) i (fun _ _ ↦ True)
    (approve host project hooks).run w := by
  refine safe_attempt_bind (safe_open.mono fun result t hresult ↦ ?_)
  cases result with
  | error error => exact fun _ _ _ ↦ trivial
  | ok approvals =>
    refine safe_attempt_bind ((safe_save (hresult approvals rfl)).mono fun result _ _ ↦ ?_)
    cases result with
    | error error => exact fun _ _ _ ↦ trivial
    | ok _ => exact fun _ _ _ ↦ trivial

/-! ### The calls together -/

/-- On undisturbed steps the contract fits. -/
theorem sound_approving (hhost : host.Faithful) :
    Sound (machine ι host) (approving host start) (fun _ _ _ ↦ True) Undisturbed where
  assume := by
    intro c i choice effect rest hP hrunning
    simp only [Undisturbed, hrunning] at hP
    cases effect <;> exact hP
  act := by
    intro c i choice effect rest hP hrunning hinv hpre
    simp only [Undisturbed, hrunning] at hP
    cases effect with
    | read =>
      cases hchoice : choice .read with
      | none =>
        refine ⟨hinv, fun j p hj _ ↦ Or.inl ⟨?_, fun h ↦ ⟨h, rfl⟩⟩⟩
        simp [machine, perform, Function.update_of_ne hj]
      | some fault => exact ⟨hinv, fun j p _ _ ↦ Or.inl ⟨rfl, fun h ↦ ⟨h, rfl⟩⟩⟩
    | createDir =>
      cases hchoice : choice .createDir <;>
        exact ⟨hinv, fun j p _ _ ↦ Or.inl ⟨rfl, fun h ↦ ⟨h, rfl⟩⟩⟩
    | own =>
      cases hchoice : choice .own <;>
        exact ⟨hinv, fun j p _ _ ↦ Or.inl ⟨rfl, fun h ↦ ⟨h, rfl⟩⟩⟩
    | truncate =>
      cases hchoice : choice .truncate with
      | none =>
        refine ⟨fun h ↦ ?_, fun j p _ _ ↦ Or.inl ⟨rfl, fun h ↦ ?_⟩⟩
        · simp [machine, perform] at h
        · rw [hP.1] at h
          cases h
      | some fault => exact ⟨hinv, fun j p _ _ ↦ Or.inl ⟨rfl, fun h ↦ ⟨h, rfl⟩⟩⟩
    | write text project hooks =>
      rw [hP]
      refine ⟨fun _ ↦ ?_, fun j p hj _ ↦ Or.inl ⟨rfl, fun h ↦ ?_⟩⟩
      · simp only [machine, perform, opened, approvalsOf, List.foldl_append, List.foldl_cons,
          List.foldl_nil]
        exact hhost.decode hpre.2
      · exact absurd (Option.some.inj (hpre.1.symm.trans h)) (Ne.symm hj)
  enter := by
    intro c i job world _ _ hworld hinv
    obtain rfl : c.world = world := Option.some.inj hworld
    exact ⟨hinv, safe_approve, fun j p _ _ ↦ Or.inl ⟨rfl, fun h ↦ ⟨h, rfl⟩⟩⟩
  leave := by
    intro c i p _ _ hinv
    exact ⟨hinv, fun j q _ _ ↦ Or.inl ⟨rfl, fun h ↦ ⟨h, rfl⟩⟩⟩

/-- A call that is filling the file is running. -/
def Filled (c : Config ι (World ι) Call Answer (Except Error ℕ)) : Prop :=
  ∀ i, c.world.filling = some i → c.running i ≠ none

theorem filled_next {c c' : Config ι (World ι) Call Answer (Except Error ℕ)}
    {label : Label ι (String × Hooks) Call Choice} (hP : Undisturbed c label)
    (hnext : (machine ι host).next c label = some c') (hc : Filled c) : Filled c' := by
  intro j hj
  cases label with
  | enter i job =>
    obtain ⟨_, world, hworld, rfl⟩ := Machine.next_enter_eq_some.mp hnext
    obtain rfl : c.world = world := Option.some.inj hworld
    by_cases hji : j = i
    · simp [hji]
    · simpa [Function.update_of_ne hji] using hc j hj
  | act i choice =>
    obtain ⟨effect, rest, _, rfl⟩ := Machine.next_act_eq_some.mp hnext
    by_cases hji : j = i
    · simp [hji]
    · have hbefore : c.world.filling = some j := by
        have hkept : (perform i effect (choice effect) c.world).2.filling = some j →
            c.world.filling = some j := by
          cases effect <;> cases choice _ <;> simp [perform, Ne.symm hji]
        exact hkept hj
      simpa [Function.update_of_ne hji] using hc j hbefore
  | leave i =>
    obtain ⟨p, _, rfl⟩ := Machine.next_leave_eq_some.mp hnext
    have hji : j ≠ i := by
      rintro rfl
      exact hP hj
    simpa [Function.update_of_ne hji] using hc j hj

/-- Assumes: a host that is faithful; a file that holds a record, and no call running; a run in which
no call opens or empties the file between another's emptying and filling, empties it when it is no
longer what the call opened, or stops between the two. Once all calls have ended, the file approves
for each project exactly the commands of its last approval, and nothing else. -/
theorem approved_of_undisturbed (hhost : host.Faithful) {file : Option String}
    (hfile : opened host file = some start) {labels : List (Label ι (String × Hooks) Call Choice)}
    {c' : Config ι (World ι) Call Answer (Except Error ℕ)}
    (halong : (machine ι host).Along Undisturbed ⟨World.start file, fun _ ↦ none⟩ labels)
    (hexec : (machine ι host).exec ⟨World.start file, fun _ ↦ none⟩ labels = some c')
    (hidle : Idle c') : Exact host start c'.world := by
  have hguarded : Guarded (machine ι host) (approving host start) (fun _ _ _ ↦ True) c' :=
    (sound_approving hhost).guarded_exec halong hexec ⟨fun _ ↦ hfile, fun _ _ h ↦ nomatch h⟩
  have hfilled : Filled c' :=
    Machine.exec_induction (fun _ _ _ ↦ filled_next) halong hexec fun _ h ↦ nomatch h
  have hnone : c'.world.filling = none := by
    cases hfilling : c'.world.filling with
    | none => rfl
    | some i => exact absurd (hidle i) (hfilled i hfilling)
  exact ⟨_, hguarded.1 hnone, fun project phase command ↦ allows_approvalsOf hhost project phase command⟩

instance (c : Config ι (World ι) Call Answer (Except Error ℕ))
    (label : Label ι (String × Hooks) Call Choice) : Decidable (Undisturbed c label) :=
  match label with
  | .enter _ _ => .isTrue trivial
  | .leave i => inferInstanceAs (Decidable (c.world.filling ≠ some i))
  | .act i choice => by
    unfold Undisturbed
    dsimp only
    split <;> infer_instance

/-! ### Two projects of one machine -/

/-- A host over a list of documents. -/
def tabled (known : List (Approvals × String)) : Host where
  keyOf := id
  digest := id
  encode approvals := (known.find? (·.1 = approvals)).map Prod.snd
  decode text := (known.find? (·.2 = text)).map Prod.fst

theorem tabled_faithful {known : List (Approvals × String)} (hempty : (∅, "") ∈ known)
    (happart : known.Pairwise fun row row' ↦ row.2 ≠ row'.2) : (tabled known).Faithful := by
  have hdecode {approvals : Approvals} {text : String} (hknown : (approvals, text) ∈ known) :
      (tabled known).decode text = some approvals := by
    clear hempty
    induction known with
    | nil => cases hknown
    | cons first rest ih =>
      obtain ⟨hfirst, hrest⟩ := List.pairwise_cons.mp happart
      rcases List.mem_cons.mp hknown with rfl | hknown
      · simp [tabled]
      · have hne : first.2 ≠ text := hfirst (approvals, text) hknown
        simpa [tabled, hne] using ih hrest hknown
  refine ⟨fun _ _ h ↦ h, fun {approvals text} hencoded ↦ hdecode ?_, hdecode hempty⟩
  obtain ⟨row, hfound, rfl⟩ := Option.map_eq_some_iff.mp hencoded
  have happrovals : row.1 = approvals := by simpa using List.find?_some hfound
  exact happrovals ▸ List.mem_of_find?_eq_some hfound

/-- The hooks of a recipe that declares one command, before a merge. -/
def merging (command : String) : Hooks := ⟨none, none, some command, none, none, none⟩

/-- The hooks of a recipe that declares none. -/
def noHooks : Hooks := ⟨none, none, none, none, none, none⟩

/-- The record of one project that declares one command. -/
def recorded (project command : String) : Approvals :=
  (∅ : Approvals).set project ((∅ : Table String String).set "pre_merge" command)

/-- The document that records the command of `/q` alone. -/
def document : String := "[\"/q\"]\npre_merge = \"make\"\n"

/-- Every document the two projects can leave. -/
def documents : List (Approvals × String) :=
  [(∅, ""), (recorded "/q" "make", document),
    (recorded "/p" "check", "[\"/p\"]\npre_merge = \"check\"\n"),
    ((recorded "/q" "make").set "/p" ((∅ : Table String String).set "pre_merge" "check"),
      "[\"/p\"]\npre_merge = \"check\"\n\n[\"/q\"]\npre_merge = \"make\"\n")]

/-- One project that has dropped its command, approved while the other's approval holds the record
as it was: `false` approves `/p`, and `true` approves `/q`, which declares nothing any more. -/
def overlapped : List (Label Bool (String × Hooks) Call Choice) :=
  [.enter false ("/p", merging "check"), .enter true ("/q", noHooks)] ++
    [false, true, true, true, true, true, false, false, false, false].map
      (fun i ↦ .act i fun _ ↦ none) ++ [.leave false, .leave true]

/-- The same two approvals, one after the other. -/
def inTurn : List (Label Bool (String × Hooks) Call Choice) :=
  [.enter true ("/q", noHooks)] ++ List.replicate 5 (.act true fun _ ↦ none) ++ [.leave true] ++
    [.enter false ("/p", merging "check")] ++ List.replicate 5 (.act false fun _ ↦ none) ++
      [.leave false]

theorem documents_faithful : (tabled documents).Faithful :=
  tabled_faithful (by decide +kernel) (by decide +kernel)

/-- Two approvals in turn leave what each asked for. -/
theorem approved_inTurn :
    ∃ c', (machine Bool (tabled documents)).exec ⟨World.start (some document), fun _ ↦ none⟩ inTurn =
        some c' ∧ Exact (tabled documents) (recorded "/q" "make") c'.world := by
  have hrun : (((machine Bool (tabled documents)).exec
      ⟨World.start (some document), fun _ ↦ none⟩ inTurn).any fun c' ↦
        (c'.running false).isNone && (c'.running true).isNone) = true := by
    decide +kernel
  obtain ⟨c', hexec, hended⟩ := (Option.any_eq_true _ _).mp hrun
  refine ⟨c', hexec, approved_of_undisturbed documents_faithful (by decide +kernel)
    (by decide +kernel) hexec fun i ↦ ?_⟩
  cases i <;> simp_all

/-- Overlapping, the call for `/p` puts back the command that `/q` had dropped. -/
theorem dropped_command_approved_again :
    ∃ c', (machine Bool (tabled documents)).exec ⟨World.start (some document), fun _ ↦ none⟩
        overlapped = some c' ∧ Idle c' ∧
      lastMade (tabled documents) c'.world.made "/q" = some noHooks ∧
      ¬Exact (tabled documents) (recorded "/q" "make") c'.world := by
  have hrun : (((machine Bool (tabled documents)).exec
      ⟨World.start (some document), fun _ ↦ none⟩ overlapped).any fun c' ↦
        (c'.running false).isNone && (c'.running true).isNone &&
          decide (lastMade (tabled documents) c'.world.made "/q" = some noHooks) &&
          (opened (tabled documents) c'.world.file).any fun approvals ↦
            approvals.allows (tabled documents) "/q" .preMerge "make") = true := by
    decide +kernel
  obtain ⟨c', hexec, hended⟩ := (Option.any_eq_true _ _).mp hrun
  simp only [Bool.and_eq_true, Option.isNone_iff_eq_none, decide_eq_true_eq] at hended
  obtain ⟨⟨⟨hfalse, htrue⟩, hlast⟩, hopened⟩ := hended
  obtain ⟨approvals, happrovals, hallowed⟩ := (Option.any_eq_true _ _).mp hopened
  refine ⟨c', hexec, fun i ↦ by cases i <;> assumption, hlast, ?_⟩
  rintro ⟨exact, hexact, hall⟩
  obtain rfl := Option.some.inj (happrovals.symm.trans hexact)
  have hrefused := hall "/q" .preMerge "make"
  rw [hlast, hallowed] at hrefused
  exact absurd hrefused (by decide)

end Nodal.Hook
