import Nodal.Foundation.Yields
import Nodal.Lifecycle.InTurn
import Nodal.Reclaim.Steps
import Nodal.Removal.Covered

/-!
# What a reclaim moves away, and what it deletes

The reading that lets a home go is taken before the hook runs and before anything is stopped; the move
is made after both, and only the process table is read again. So what the home carries at the move is
what the reading covered, and what the hook and other processes wrote since (`moved_covered`). The refs
on the remote go between the hook and the first step, and a reclaim that is refused at the move has
deleted them.
-/

set_option autoImplicit false

namespace Nodal.Reclaim

open Git Removal Foundation Foundation.Ancestry Foundation.Attempt Lifecycle

/-! ### What a home carries -/

/-- A piece of work in a home. -/
inductive Item
  | commit (oid : Oid)
  | path (path : RelPath)
  deriving DecidableEq, Repr

/-- A path of the working tree carries work that no commit has. -/
def Uncommitted (disk : Disk) (home : Path) (path : RelPath) : Prop :=
  ∃ repository, disk.repository home = some repository ∧ ∃ entry ∈ repository.status,
    entry.path = path ∧ entry.isUncommitted = true ∧ isNodalsOwn entry = false

/-- What the home of a question carries. -/
def Carries (input : Input) (disk : Disk) : Item → Prop
  | .commit oid => InHome disk input oid
  | .path path => Uncommitted disk input.home path

/-- What a safe reading of a home covered: each commit it read is somewhere else as well, and it passes
over no path. -/
def Covers (input : Input) (disk : Disk) : Item → Prop
  | .commit oid => InHome disk input oid ∧ (HeadRead disk input → Covered disk input oid)
  | .path _ => False

/-- A reading of a home that answered safe. -/
def AnsweredSafe (input : Input) (disk : Disk) : Prop :=
  ∃ assessment now, assess disk input = .ok assessment ∧
    (assessment.verdict disk [] now).isSafe = true

theorem covers_of_safe {input : Input} {disk : Disk} {item : Item} (hsafe : AnsweredSafe input disk)
    (hitem : Carries input disk item) : Covers input disk item := by
  obtain ⟨assessment, now, hassess, hverdict⟩ := hsafe
  cases item with
  | commit oid => exact ⟨hitem, fun hhead ↦ (safe_covered hhead hassess hverdict).2 oid hitem⟩
  | path path =>
    obtain ⟨status, found, hstatus, hfound, rfl⟩ := assess_eq_ok hassess
    obtain ⟨hrefuses, -⟩ := safe_parts hverdict
    obtain ⟨repository, hrepository, entry, hentry, -, huncommitted, hforeign⟩ := hitem
    obtain ⟨other, hother, rfl⟩ := Disk.runOk_eq_ok hstatus
    obtain rfl : repository = other := Option.some.inj (hrepository.symm.trans hother)
    have hown := clean_of_working (fun group hgroup ↦ hrefuses group (List.mem_append_left _ hgroup))
      entry hentry huncommitted
    rw [hforeign] at hown
    cases hown

/-! ### The record of a home -/

section Recorded

variable {history : Oid → List Oid} {repository after : Repository history} {name : RefName}
  {made tip commit : Oid}

/-- A commit newer than a store adds nothing to what the store's own commits reach. -/
theorem reaches_of_newer {κ : Type} {parents cut : κ → List κ} {nodes : List κ} {made a b : κ}
    (hnewest : NewestFirst parents (made :: nodes)) (hcut : ∀ node, cut node ⊆ parents node)
    (ha : a ∈ nodes) (h : Reaches cut (made :: nodes) a b) : b ∈ nodes ∧ Reaches cut nodes a b := by
  induction h with
  | refl => exact ⟨ha, Relation.ReflTransGen.refl⟩
  | tail hreach hstep ih =>
    obtain ⟨hmem, hab⟩ := ih
    obtain ⟨hparent, hnode⟩ := hstep
    have hold := (List.mem_cons.mp hnode).resolve_left fun heq ↦
      ((List.pairwise_cons.mp hnewest).1 _ hmem).2 (hcut _ (heq ▸ hparent))
    exact ⟨hold, hab.tail ⟨hparent, hold⟩⟩

/-- The record of a home is a new commit behind a ref of Nodal's own. -/
theorem recordedOn_eq_some (h : recordedOn repository name made = some after) :
    (NewestFirst history (made :: repository.commits) ∧ made ∉ repository.refs.map Ref.oid ∧
      repository.headCommit ≠ some made ∧ repository.head ≠ .symbolic name) ∧
    after.refs = ⟨name, made⟩ :: repository.refs.filter (·.name ≠ name) ∧
    after.commits = made :: repository.commits ∧ after.head = repository.head ∧
    after.status = repository.status ∧ after.shallow = repository.shallow := by
  unfold recordedOn at h
  split at h
  · next hfresh =>
    obtain rfl := Option.some.inj h
    exact ⟨hfresh, rfl, rfl, rfl, rfl, rfl⟩
  · cases h

theorem headCommit_recordedOn (h : recordedOn repository name made = some after) :
    after.headCommit = repository.headCommit := by
  obtain ⟨⟨-, -, -, hname⟩, hrefs, -, hhead, -, -⟩ := recordedOn_eq_some h
  unfold Repository.headCommit
  rw [hhead, hrefs]
  cases hnamed : repository.head with
  | detached oid => rfl
  | symbolic branch =>
    have hother : name ≠ branch := by
      rintro rfl
      exact hname hnamed
    have hfind : (repository.refs.filter (·.name ≠ name)).find? (·.name = branch) =
        repository.refs.find? (·.name = branch) := by
      rw [List.find?_filter]
      congr 1
      funext ref
      by_cases hbranch : ref.name = branch
      · simp [hbranch, Ne.symm hother]
      · simp [hbranch]
    dsimp only
    rw [List.find?_cons_of_neg (by simpa using hother), hfind]

/-- The record adds no commit to what the home's own work reaches. -/
theorem holds_of_recordedOn (h : recordedOn repository name made = some after)
    (hname : startsWith NAMESPACE name = true)
    (htip : tip ∈ workTips after none ++ after.headCommit.toList) (hholds : after.Holds tip commit) :
    tip ∈ workTips repository none ++ repository.headCommit.toList ∧
      repository.Holds tip commit := by
  have hhead := headCommit_recordedOn h
  obtain ⟨⟨hnewest, hunnamed, hnothead, -⟩, hrefs, hcommits, -, -, hshallow⟩ := recordedOn_eq_some h
  have hparents : after.parents = repository.parents := by
    funext node
    rw [Repository.parents, Repository.parents, hshallow]
  have hwork : workTips after none ⊆ workTips repository none := by
    intro tip htip
    have hits : isItsOwn name = false := by simp [isItsOwn, hname]
    simp only [workTips, hrefs, List.filter_cons, hits, Bool.false_eq_true, if_false,
      Option.bind_none, Option.toList_none, List.map_nil, List.append_nil] at htip ⊢
    obtain ⟨ref, href, rfl⟩ := List.mem_map.mp htip
    have hmem := List.mem_filter.mp href
    exact List.mem_map_of_mem (List.mem_filter.mpr ⟨List.mem_of_mem_filter hmem.1, hmem.2⟩)
  rw [hhead] at htip
  have hbefore : tip ∈ workTips repository none ++ repository.headCommit.toList :=
    (List.mem_append.mp htip).elim (fun h ↦ List.mem_append_left _ (hwork h)) (List.mem_append_right _)
  have hne : tip ≠ made := by
    rintro rfl
    rcases List.mem_append.mp hbefore with hown | hnamed
    · refine hunnamed ?_
      simp only [workTips, Option.bind_none, Option.toList_none, List.map_nil, List.append_nil] at hown
      obtain ⟨ref, href, heq⟩ := List.mem_map.mp hown
      exact heq ▸ List.mem_map_of_mem (List.mem_of_mem_filter href)
    · exact hnothead (Option.mem_toList.mp hnamed)
  obtain ⟨hmem, hreach⟩ := hholds
  rw [hcommits] at hmem hreach
  rw [hparents] at hreach
  have hstored := (List.mem_cons.mp hmem).resolve_left hne
  exact ⟨hbefore, hstored, (reaches_of_newer hnewest repository.parents_subset hstored hreach).2⟩

/-- The record of a home adds no work to it. -/
theorem carries_of_recorded {input : Input} {disk : Disk} {repository after : Repository disk.history}
    {item : Item} (hwork : input.work = none) (hrepository : disk.repository input.home = some repository)
    (h : recordedOn repository name made = some after) (hname : startsWith NAMESPACE name = true)
    (hitem : Carries input (place disk input.home (some after)) item) : Carries input disk item := by
  have hplaced : (place disk input.home (some after)).repository input.home = some after :=
    Function.update_self ..
  cases item with
  | commit oid =>
    obtain ⟨other, hother, tip, htip, hholds⟩ := hitem
    obtain rfl : after = other := Option.some.inj (hplaced.symm.trans hother)
    rw [hwork] at htip
    obtain ⟨hbefore, hstored⟩ := holds_of_recordedOn h hname htip hholds
    exact ⟨repository, hrepository, tip, hwork ▸ hbefore, hstored⟩
  | path path =>
    obtain ⟨other, hother, entry, hentry, hcarries⟩ := hitem
    obtain rfl : after = other := Option.some.inj (hplaced.symm.trans hother)
    obtain ⟨-, -, -, -, hstatus, -⟩ := recordedOn_eq_some h
    exact ⟨repository, hrepository, entry, hstatus ▸ hentry, hcarries⟩

end Recorded

/-! ### What the log has to hold -/

variable (setting : Setting)

/-- How a disk came of an earlier one, by the log: others wrote, and Nodal recorded the home. -/
inductive Since (start : Disk) : List Event → Disk → Prop
  | refl : Since start [] start
  | wrote {since : List Event} {before : Disk} (after : Disk) (h : Since start since before) :
      Since start (.wrote before after :: since) after
  | recorded {since : List Event} {before : Disk} {repository after : Repository before.history}
      {name : RefName} {made : Oid} (h : Since start since before)
      (hname : startsWith NAMESPACE name = true)
      (hrepository : before.repository setting.home = some repository)
      (hafter : recordedOn repository name made = some after) :
      Since start (.recorded before (place before setting.home (some after)) :: since)
        (place before setting.home (some after))
  | passed {since : List Event} {disk : Disk} (h : Since start since disk) :
      Since start (.passed :: since) disk
  | deleted {since : List Event} {disk : Disk} (names : List RefName) (h : Since start since disk) :
      Since start (.deleted names :: since) disk

/-- The disk is as a safe reading of the home found it, but for what came since. -/
def Rested (log : List Event) (disk : Disk) : Prop :=
  ∃ input start since rest, log = since ++ .read input start :: rest ∧ input.home = setting.home ∧
    input.work = none ∧ AnsweredSafe input start ∧ Since setting start since disk

/-- A reading of the home answered safe, or there was no home to read. -/
def Cleared (log : List Event) : Prop :=
  .gone ∈ log ∨ ∃ input start, .read input start ∈ log ∧ input.home = setting.home ∧
    AnsweredSafe input start

/-- The `pre_reclaim` hook ended well, after the home was cleared. -/
def Passed (log : List Event) : Prop :=
  ∃ later rest, log = later ++ .passed :: rest ∧ Cleared setting rest

/-- What an event needs of what came before it. -/
def Due : Event → List Event → Prop
  | .moved before _, earlier => Rested setting earlier before
  | .deleted names, earlier =>
    (∀ name ∈ names, startsWith (space setting.unit) name = true) ∧ Passed setting earlier
  | _, _ => True

/-- Every event has what it needs. -/
def Accounted : List Event → Prop
  | [] => True
  | event :: earlier => Due setting event earlier ∧ Accounted earlier

variable {setting} {start disk : Disk} {since log : List Event} {event : Event} {item : Item}
  {input : Input}

theorem Accounted.due {later earlier : List Event} (h : Accounted setting (later ++ event :: earlier)) :
    Due setting event earlier := by
  induction later with
  | nil => exact h.1
  | cons head later ih => exact ih h.2

/-- What a home carries it carried then, or a write since brought it. -/
theorem Since.brought (h : Since setting start since disk) (hhome : input.home = setting.home)
    (hwork : input.work = none) (hitem : Carries input disk item) :
    Carries input start item ∨ ∃ before after, .wrote before after ∈ since ∧
      ¬Carries input before item ∧ Carries input after item := by
  induction h with
  | refl => exact .inl hitem
  | @wrote since before after h ih =>
    by_cases hbefore : Carries input before item
    · refine (ih hbefore).imp_right ?_
      rintro ⟨was, now, hwrote, hbrought⟩
      exact ⟨was, now, List.mem_cons_of_mem _ hwrote, hbrought⟩
    · exact .inr ⟨before, after, List.mem_cons_self .., hbefore, hitem⟩
  | recorded h hname hrepository hafter ih =>
    rw [← hhome] at hrepository hitem
    refine (ih (carries_of_recorded hwork hrepository hafter hname hitem)).imp_right ?_
    rintro ⟨was, now, hwrote, hbrought⟩
    exact ⟨was, now, List.mem_cons_of_mem _ hwrote, hbrought⟩
  | passed h ih | deleted names h ih =>
    refine (ih hitem).imp_right ?_
    rintro ⟨was, now, hwrote, hbrought⟩
    exact ⟨was, now, List.mem_cons_of_mem _ hwrote, hbrought⟩

theorem Cleared.cons (h : Cleared setting log) : Cleared setting (event :: log) := by
  refine h.imp (List.mem_cons_of_mem _) ?_
  rintro ⟨input, start, hread, hsafe⟩
  exact ⟨input, start, List.mem_cons_of_mem _ hread, hsafe⟩

theorem Passed.cons (h : Passed setting log) : Passed setting (event :: log) := by
  obtain ⟨later, rest, rfl, hrest⟩ := h
  exact ⟨event :: later, rest, rfl, hrest⟩

/-- What comes after a reading leaves the home rested, where it is one of the things that may come. -/
theorem Rested.cons {disk' : Disk} (h : Rested setting log disk)
    (hsince : ∀ {start since}, Since setting start since disk →
      Since setting start (event :: since) disk') : Rested setting (event :: log) disk' := by
  obtain ⟨input, start, since, rest, rfl, hhome, hwork, hsafe, h⟩ := h
  exact ⟨input, start, event :: since, rest, rfl, hhome, hwork, hsafe, hsince h⟩

theorem Rested.cleared (h : Rested setting log disk) : Cleared setting log := by
  obtain ⟨input, start, since, rest, rfl, hhome, -, hsafe, -⟩ := h
  exact .inr ⟨input, start, List.mem_append_right _ (List.mem_cons_self ..), hhome, hsafe⟩

/-! ### What a process owes -/

section Guarding

variable {process : Process} {s t : Site} {command : Command}

/-- What other processes do while a reclaim runs. -/
def Beside : Site → Site → Prop := Relation.ReflTransGen fun s t ↦ ∃ left, t = s.leave left

theorem Beside.turn (h : Beside s t) : t.turn = s.turn := by
  induction h with
  | refl => rfl
  | tail _ hstep ih =>
    obtain ⟨left, rfl⟩ := hstep
    exact ih

/-- The reclaim runs in this process, or it has ended. -/
def Mine (process : Process) (s : Site) : Prop := s.turn = .of process ∨ s.turn = .over

/-- What has to hold when a process performs a command. -/
def Owes (setting : Setting) (process : Process) (command : Command) (s : Site) : Prop :=
  match command with
  | .write => True
  | .rename .away => s.turn = .of process ∧ Rested setting s.log s.disk
  | .delete _ names => s.turn = .of process ∧
      (∀ name ∈ owned names, startsWith (space setting.unit) name = true) ∧ Passed setting s.log
  | _ => Mine process s

/-- While the reclaim runs the others only write, and it does not begin again. -/
def guarding (setting : Setting) : Contract Process Site Command Command.Choice where
  inv s := Accounted setting s.log
  rely process s t := (s.turn = .of process → Beside s t) ∧ (s.turn = .over → t.turn = .over)
  rely_refl _ _ := ⟨fun _ ↦ Relation.ReflTransGen.refl, id⟩
  rely_trans _ _ _ _ hst htu :=
    ⟨fun hs ↦ (hst.1 hs).trans (htu.1 ((hst.1 hs).turn.trans hs)), htu.2 ∘ hst.2⟩
  assume _ _ _ _ := True
  pre process command s := Owes setting process command s

theorem turn_edit {path : Path} {f : Repository s.disk.history → Repository s.disk.history} :
    (s.edit path f).turn = s.turn := by
  unfold Site.edit
  split <;> rfl

/-- No command begins a reclaim or ends one. -/
theorem turn_perform (choice : command.Choice) : (perform setting command choice s).2.turn = s.turn := by
  cases command with
  | placed | assess _ | hook _ =>
    dsimp only [perform]
    split <;> rfl
  | snapshot _ | delete _ _ | rename _ =>
    dsimp only [perform]
    split <;> first | rfl | (split <;> rfl)
  | sweep _ | unadopt => exact turn_edit
  | _ => rfl

theorem accounted_edit {path : Path} {f : Repository s.disk.history → Repository s.disk.history}
    (h : Accounted setting s.log) : Accounted setting (s.edit path f).log := by
  unfold Site.edit
  split
  · exact h
  · exact ⟨trivial, h⟩

/-- A process that owes nothing more leaves every event with what it needs. -/
theorem accounted_perform (choice : command.Choice) (h : Accounted setting s.log)
    (howes : Owes setting process command s) :
    Accounted setting (perform setting command choice s).2.log := by
  cases command with
  | placed | assess _ =>
    dsimp only [perform]
    split
    · exact h
    · exact ⟨trivial, h⟩
  | snapshot _ =>
    dsimp only [perform]
    split
    · exact h
    · exact h
    · split
      · exact h
      · exact h
      · exact ⟨trivial, h⟩
  | hook _ =>
    dsimp only [perform]
    split
    · exact ⟨trivial, trivial, h⟩
    · exact ⟨trivial, h⟩
  | delete _ names =>
    obtain ⟨-, hunder, hpassed⟩ := howes
    dsimp only [perform]
    split
    · exact h
    · split
      · exact ⟨⟨hunder, hpassed⟩, h⟩
      · exact ⟨⟨fun name hname ↦ hunder name (List.mem_of_mem_filter hname), hpassed⟩, h⟩
  | rename way =>
    dsimp only [perform]
    split
    · exact h
    · split
      · cases way with
        | away => exact ⟨howes.2, h⟩
        | back => exact ⟨trivial, h⟩
      · exact h
  | sweep _ | unadopt => exact accounted_edit h
  | write => exact ⟨trivial, h⟩
  | _ => exact h

/-- What one process does is what the others may count on. -/
theorem rely_perform {other : Process} (choice : command.Choice)
    (howes : Owes setting process command s) (hother : other ≠ process) :
    (guarding setting).rely other s (perform setting command choice s).2 := by
  refine ⟨fun hturn ↦ ?_, fun hover ↦ (turn_perform choice).trans hover⟩
  have hnot : ¬Mine process s := by
    rintro (hmine | hover)
    · exact hother (Turn.of.inj (hturn.symm.trans hmine))
    · exact nomatch hturn.symm.trans hover
  cases command with
  | write => exact Relation.ReflTransGen.single ⟨choice, rfl⟩
  | delete _ _ => exact absurd (.inl howes.1) hnot
  | rename way =>
    cases way with
    | away => exact absurd (.inl howes.1) hnot
    | back => exact absurd howes hnot
  | _ => exact absurd howes hnot

/-! ### What a script leads to -/

/-- A script of one process leads from an assertion to another, or ends with an error. -/
abbrev Brings (setting : Setting) (process : Process) {α : Type} (P : Site → Prop) (x : Script α)
    (Q : α → Site → Prop) : Prop :=
  Yields (performance setting).beside (guarding setting) process (Mine process) P x Q

/-- While the reclaim runs in this process. -/
def During (process : Process) (X : Site → Prop) (s : Site) : Prop := s.turn = .of process ∧ X s

/-- What a plan may count on: there was no home, or it is as a safe reading found it. -/
def Fit (setting : Setting) (placed : Placement) (s : Site) : Prop :=
  match placed with
  | .gone => .gone ∈ s.log
  | _ => Rested setting s.log s.disk

variable {α : Type} {P : Site → Prop} {X : Site → Prop} {placed : Placement}

theorem During.mine (h : During process X s) : Mine process s := .inl h.1

theorem stable_mine : Stable (guarding setting) process (Mine process) := by
  rintro s t ⟨hruns, hover⟩ - (hturn | hturn)
  · exact .inl ((hruns hturn).turn.trans hturn)
  · exact .inr (hover hturn)

/-- What a write of others keeps outlasts them. -/
theorem stable_during (hwrite : ∀ s left, X s → X (s.leave left)) :
    Stable (guarding setting) process (During process X) := by
  rintro s t ⟨hruns, -⟩ - ⟨hturn, hX⟩
  have hbeside := hruns hturn
  refine ⟨hbeside.turn.trans hturn, ?_⟩
  clear hruns
  induction hbeside with
  | refl => exact hX
  | tail _ hstep ih =>
    obtain ⟨left, rfl⟩ := hstep
    exact hwrite _ left ih

theorem Rested.leave (h : Rested setting s.log s.disk) (left : Left) :
    Rested setting (s.leave left).log (s.leave left).disk :=
  h.cons fun hsince ↦ hsince.wrote left.disk

theorem Fit.leave (h : Fit setting placed s) (left : Left) : Fit setting placed (s.leave left) := by
  cases placed with
  | gone => exact List.mem_cons_of_mem _ h
  | managed | root => exact Rested.leave h left

theorem Fit.note_passed (h : Fit setting placed s) : Fit setting placed (s.note .passed) := by
  cases placed with
  | gone => exact List.mem_cons_of_mem _ h
  | managed | root => exact Rested.cons h Since.passed

theorem Fit.unref (h : Fit setting placed s) (remote : String) (names : List RefName) :
    Fit setting placed (s.unref remote names) := by
  cases placed with
  | gone => exact List.mem_cons_of_mem _ h
  | managed | root => exact Rested.cons h (Since.deleted names)

theorem Fit.cleared (h : Fit setting placed s) : Cleared setting s.log := by
  cases placed with
  | gone => exact .inl h
  | managed | root => exact Rested.cleared h

/-- A command that only asks. -/
def Command.asks : Command → Bool
  | .placed | .assess _ | .snapshot _ | .hook _ | .delete _ _ | .rename _ | .sweep _ | .unadopt
  | .write => false
  | _ => true

theorem perform_of_asks (hasks : command.asks = true) (choice : command.Choice) :
    (perform setting command choice s).2 = s := by
  cases command <;> first | rfl | cases hasks

theorem owes_of_asks (hasks : command.asks = true) (hmine : Mine process s) :
    Owes setting process command s := by
  cases command <;> first | exact hmine | cases hasks

theorem brings_asking (hasks : command.asks = true) (hP : Stable (guarding setting) process P)
    (hmine : ∀ s, P s → Mine process s) : Brings setting process P (call command) fun _ ↦ P := by
  refine yields_call hP (fun _ ↦ hP) (fun s _ hs ↦ owes_of_asks hasks (hmine s hs))
    fun choice s _ hs ↦ ?_
  have hsame : (perform setting command choice s).2 = s := perform_of_asks hasks choice
  exact hsame.symm ▸ hs

/-- A command while the reclaim runs. -/
theorem brings_call {Y : command.Answer → Site → Prop} (hX : ∀ s left, X s → X (s.leave left))
    (hY : ∀ answer s left, Y answer s → Y answer (s.leave left))
    (howes : ∀ s, During process X s → Owes setting process command s)
    (hstep : ∀ choice s, X s →
      Y (perform setting command choice s).1 (perform setting command choice s).2) :
    Brings setting process (During process X) (call command) fun answer ↦ During process (Y answer) :=
  yields_call (stable_during hX) (fun answer ↦ stable_during (hY answer)) (fun s _ ↦ howes s)
    fun choice s _ h ↦ ⟨(turn_perform choice).trans h.1, hstep choice s h.2⟩

/-- A command that may fail. -/
theorem brings_ran {x : Script (Except String α)} {Q : α → Site → Prop}
    {T : Except String α → Site → Prop} (hx : Brings setting process P x T)
    (hQ : ∀ value, Stable (guarding setting) process (Q value))
    (hvalue : ∀ value s, T (.ok value) s → Q value s)
    (herror : ∀ why s, T (.error why) s → Mine process s) :
    Brings setting process P (ran x) Q := by
  refine yields_bind stable_mine hx fun answer ↦ ?_
  cases answer with
  | ok value => exact yields_pure (hQ value) (hvalue value)
  | error why => exact yields_throw stable_mine (herror why)

/-- A question that may fail. -/
theorem brings_ran_same {x : Script (Except String α)} (hx : Brings setting process P x fun _ ↦ P)
    (hP : Stable (guarding setting) process P) (hmine : ∀ s, P s → Mine process s) :
    Brings setting process P (ran x) fun _ ↦ P :=
  brings_ran hx (fun _ ↦ hP) (fun _ _ ↦ id) fun _ ↦ hmine

/-! ### The reading -/

theorem stable_running : Stable (guarding setting) process (During process fun _ ↦ True) :=
  stable_during fun _ _ ↦ id

theorem stable_fit : Stable (guarding setting) process (During process (Fit setting placed)) :=
  stable_during fun _ left h ↦ h.leave left

theorem brings_placement : Brings setting process (During process fun _ ↦ True) (placement setting)
    fun placed ↦ During process fun s ↦ placed = .gone → .gone ∈ s.log := by
  have hstable (absent : Prop) : Stable (guarding setting) process
      (During process fun s ↦ absent → .gone ∈ s.log) :=
    stable_during fun _ _ h habsent ↦ List.mem_cons_of_mem _ (h habsent)
  have hplaced : Brings setting process (During process fun _ ↦ True) (call Command.placed)
      fun answer ↦ During process fun s ↦ answer = .ok false → .gone ∈ s.log := by
    refine brings_call (fun _ _ ↦ id) (fun _ _ _ h hfalse ↦ List.mem_cons_of_mem _ (h hfalse))
      (fun _ h ↦ h.mine) fun marker s _ ↦ ?_
    dsimp only [perform]
    split
    · cases marker <;> exact fun hfalse ↦ nomatch hfalse
    · exact fun _ ↦ List.mem_cons_self ..
  refine yields_bind stable_mine (brings_ran hplaced (fun there ↦ hstable (there = false))
    (fun there s h ↦ ⟨h.1, fun hthere ↦ h.2 (hthere ▸ rfl)⟩) fun why s h ↦ h.mine) fun there ↦ ?_
  cases there with
  | true =>
    refine yields_pure (hstable _) fun s h ↦ ⟨h.1, ?_⟩
    cases setting.managed <;> exact fun hgone ↦ nomatch hgone
  | false => exact yields_pure (hstable _) fun s h ↦ ⟨h.1, fun _ ↦ h.2 rfl⟩

/-- A reading that answers safe leaves the home rested. -/
theorem brings_assess {declared : List RelPath} {siblings : List Path} :
    Brings setting process (During process fun _ ↦ True)
      (call (Command.assess (asked setting declared siblings)))
      fun answer ↦ During process fun s ↦ ∀ assessment verdict, answer = .ok (assessment, verdict) →
        verdict.isSafe = true → Rested setting s.log s.disk := by
  refine brings_call (fun _ _ ↦ id) (fun _ _ left h assessment verdict hanswer hsafe ↦
    Rested.leave (h assessment verdict hanswer hsafe) left) (fun _ h ↦ h.mine) fun now s _ ↦ ?_
  dsimp only [perform]
  split
  · intro assessment verdict hanswer
    cases hanswer
  · next assessment hassess =>
    rintro _ _ hanswer hsafe
    obtain ⟨rfl, rfl⟩ := Prod.mk.inj (Except.ok.inj hanswer)
    exact ⟨_, s.disk, [], s.log, rfl, rfl, rfl, ⟨assessment, now, hassess, hsafe⟩, Since.refl⟩

/-- An unforced reclaim goes on only where the reading answers safe, or where there is no home. -/
theorem brings_examine (hforce : setting.force = false) {declared : List RelPath} :
    Brings setting process (During process fun s ↦ placed = .gone → .gone ∈ s.log)
      (examine setting placed declared)
      fun findings ↦ During process fun s ↦ findings = [] ∧ Fit setting placed s := by
  have hstable (findings : List Finding) : Stable (guarding setting) process
      (During process fun s ↦ findings = [] ∧ Fit setting placed s) :=
    stable_during fun _ left h ↦ ⟨h.1, h.2.leave left⟩
  have hbegun : Stable (guarding setting) process
      (During process fun s ↦ placed = .gone → .gone ∈ s.log) :=
    stable_during fun _ _ h hgone ↦ List.mem_cons_of_mem _ (h hgone)
  unfold examine
  split
  · next hgone =>
    subst hgone
    exact yields_pure (hstable _) fun s h ↦ ⟨h.1, rfl, h.2 rfl⟩
  · next hthere =>
    refine yields_bind stable_mine (brings_asking rfl hbegun fun _ h ↦ h.mine) fun siblings ↦ ?_
    refine yields_bind stable_mine (brings_assess.mono (fun _ h ↦ ⟨h.1, trivial⟩) fun _ _ ↦ id)
      fun answer ↦ ?_
    cases answer with
    | error failure => exact yields_throw stable_mine fun _ h ↦ h.mine
    | ok answer =>
      obtain ⟨assessment, verdict⟩ := answer
      dsimp only
      split
      · next hsafe =>
        refine yields_pure (hstable _) fun s h ↦ ⟨h.1, rfl, ?_⟩
        have hrested := h.2 assessment verdict rfl hsafe
        cases placed with
        | gone => exact (hthere rfl).elim
        | managed | root => exact hrested
      · rw [hforce]
        exact yields_throw stable_mine fun _ h ↦ h.mine

/-- Before anything runs, an unforced reclaim has its home read or knows that it is gone. -/
theorem brings_claimed (hforce : setting.force = false) :
    Brings setting process (During process fun _ ↦ True) (claimed setting)
      fun params ↦ During process (Fit setting params.placed) := by
  have hrows : Brings setting process (During process fun _ ↦ True) (ran (call Command.rows))
      fun _ ↦ During process fun _ ↦ True :=
    brings_ran_same (brings_asking rfl stable_running fun _ h ↦ h.mine) stable_running
      fun _ h ↦ h.mine
  refine yields_bind stable_mine hrows fun _ ↦ ?_
  refine yields_bind stable_mine brings_placement fun placed ↦ ?_
  have hbegun : Stable (guarding setting) process
      (During process fun s ↦ placed = .gone → .gone ∈ s.log) :=
    stable_during fun _ _ h hgone ↦ List.mem_cons_of_mem _ (h hgone)
  refine yields_bind stable_mine (brings_asking rfl hbegun fun _ h ↦ h.mine) fun declared ↦ ?_
  refine yields_bind stable_mine (brings_examine hforce) fun findings ↦ ?_
  have hfound : Stable (guarding setting) process
      (During process fun s ↦ findings = [] ∧ Fit setting placed s) :=
    stable_during fun _ left h ↦ ⟨h.1, h.2.leave left⟩
  have hunread : Brings setting process
      (During process fun s ↦ findings = [] ∧ Fit setting placed s) (refuseUnread setting placed)
      fun _ ↦ During process fun s ↦ findings = [] ∧ Fit setting placed s := by
    unfold refuseUnread
    split
    · refine yields_bind stable_mine (brings_asking rfl hfound fun _ h ↦ h.mine) fun seen ↦ ?_
      split
      · split
        · exact yields_pure hfound fun _ ↦ id
        · exact yields_throw stable_mine fun _ h ↦ h.mine
      · exact yields_pure hfound fun _ ↦ id
    · exact yields_pure hfound fun _ ↦ id
  refine yields_bind stable_mine hunread fun _ ↦ ?_
  -- A safe reading has no findings, so there is nothing to record.
  have hsnapshot : Brings setting process
      (During process fun s ↦ findings = [] ∧ Fit setting placed s)
      (snapshot setting placed findings) fun _ ↦ During process (Fit setting placed) := by
    by_cases hnone : findings = []
    · unfold snapshot
      rw [if_pos (.inr hnone)]
      exact yields_pure stable_fit fun _ h ↦ ⟨h.1, h.2.2⟩
    · exact fun s h ↦ (hnone h.2.1).elim
  refine yields_bind stable_mine hsnapshot fun _ ↦ ?_
  refine yields_bind stable_mine (brings_ran_same (brings_asking rfl stable_fit fun _ h ↦ h.mine)
    stable_fit fun _ h ↦ h.mine) fun _ ↦ ?_
  exact yields_pure stable_fit fun _ ↦ id

/-! ### The hook and the refs -/

/-- The home is cleared and the hook has ended well. -/
def Ready (setting : Setting) (placed : Placement) (s : Site) : Prop :=
  Fit setting placed s ∧ Passed setting s.log

theorem Ready.leave (h : Ready setting placed s) (left : Left) : Ready setting placed (s.leave left) :=
  ⟨h.1.leave left, h.2.cons⟩

theorem stable_ready : Stable (guarding setting) process (During process (Ready setting placed)) :=
  stable_during fun _ left h ↦ h.leave left

theorem brings_hook : Brings setting process (During process (Fit setting placed))
    (ran (call (Command.hook .preReclaim))) fun _ ↦ During process (Ready setting placed) := by
  have hcall : Brings setting process (During process (Fit setting placed))
      (call (Command.hook .preReclaim)) fun answer ↦ During process fun s ↦
        Fit setting placed s ∧ ∀ value, answer = .ok value → Passed setting s.log := by
    refine brings_call (fun _ left h ↦ h.leave left)
      (fun _ _ left h ↦ ⟨h.1.leave left, fun value hvalue ↦ (h.2 value hvalue).cons⟩)
      (fun _ h ↦ h.mine) ?_
    rintro ⟨ended, left⟩ s hfit
    dsimp only [perform]
    split
    · exact ⟨(hfit.leave left).note_passed,
        fun _ _ ↦ ⟨[], _, rfl, hfit.cleared.cons⟩⟩
    · next hended =>
      refine ⟨hfit.leave left, fun value hvalue ↦ (hended ⟨rfl, ?_⟩).elim⟩
      rw [hvalue]
      rfl
  exact brings_ran hcall (fun _ ↦ stable_ready) (fun value s h ↦ ⟨h.1, h.2.1, h.2.2 value rfl⟩)
    fun why s h ↦ h.mine

/-- What is deleted on the remote was listed there under the unit's own namespace. -/
theorem brings_prunedOn {remote : String} : Brings setting process
    (During process (Ready setting placed)) (prunedOn setting remote)
    fun _ ↦ During process (Ready setting placed) := by
  have hlisted : Brings setting process (During process (Ready setting placed))
      (call (Command.lsRemote remote (space setting.unit))) fun answer ↦ During process fun s ↦
        Ready setting placed s ∧ ∀ names, answer = .ok names →
          ∀ name ∈ names, startsWith (space setting.unit) name = true := by
    refine brings_call (fun _ left h ↦ h.leave left) (fun _ _ left h ↦ ⟨h.1.leave left, h.2⟩)
      (fun _ h ↦ h.mine) fun reached s h ↦ ⟨h, fun names hnames name hname ↦ ?_⟩
    dsimp only [perform] at hnames
    cases reached with
    | error why => cases hnames
    | ok _ =>
      obtain rfl := Except.ok.inj hnames
      exact (List.mem_filter.mp hname).2
  refine yields_bind stable_mine hlisted fun answer ↦ ?_
  cases answer with
  | error why => exact yields_pure stable_ready fun _ h ↦ ⟨h.1, h.2.1⟩
  | ok names =>
    dsimp only
    split
    · exact yields_pure stable_ready fun _ h ↦ ⟨h.1, h.2.1⟩
    · have hdelete : Brings setting process (During process fun s ↦ Ready setting placed s ∧
          ∀ name ∈ names, startsWith (space setting.unit) name = true)
          (call (Command.delete remote names)) fun _ ↦ During process (Ready setting placed) := by
        refine brings_call (fun _ left h ↦ ⟨h.1.leave left, h.2⟩) (fun _ _ left h ↦ h.leave left)
          (fun s h ↦ ⟨h.1, fun name hname ↦ h.2.2 name (List.mem_of_mem_filter hname), h.2.1.2⟩)
          fun sent s h ↦ ?_
        dsimp only [perform]
        split
        · exact h.1
        · split
          · exact ⟨h.1.1.unref _ _, h.1.2.cons⟩
          · exact ⟨h.1.1.unref _ _, h.1.2.cons⟩
      refine yields_bind stable_mine (hdelete.mono (fun s h ↦ ⟨h.1, h.2.1, h.2.2 names rfl⟩)
        fun _ _ ↦ id) fun _ ↦ yields_pure stable_ready fun _ ↦ id

theorem brings_pruneRefs : Brings setting process (During process (Ready setting placed))
    (pruneRefs setting) fun _ ↦ During process (Ready setting placed) := by
  have hasking {command : Command} (hasks : command.asks = true) : Brings setting process
      (During process (Ready setting placed)) (call command)
      fun _ ↦ During process (Ready setting placed) :=
    brings_asking hasks stable_ready fun _ h ↦ h.mine
  have hend : Brings setting process (During process (Ready setting placed)) (pure ())
      fun _ ↦ During process (Ready setting placed) := yields_pure stable_ready fun _ ↦ id
  refine yields_bind stable_mine (brings_ran_same (hasking rfl) stable_ready fun _ h ↦ h.mine)
    fun pushed ↦ ?_
  split
  · exact hend
  · refine yields_bind stable_mine (hasking rfl) fun there ↦ ?_
    split
    · exact hend
    · refine yields_bind stable_mine (hasking rfl) fun opened ↦ ?_
      cases opened with
      | error failure => exact hend
      | ok _ =>
        refine yields_bind stable_mine (hasking rfl) fun answer ↦ ?_
        cases answer with
        | error failure => exact hend
        | ok remotes =>
          dsimp only
          split
          · exact hend
          · exact brings_prunedOn

/-! ### The steps -/

variable {params : Params} {k : ℕ} {work : Work} {id : OperationId}

/-- What holds where step `k` is next: a home still to be moved is rested. -/
def Standing (setting : Setting) (process : Process) (params : Params) (k : ℕ) (s : Site) : Prop :=
  Mine process s ∧ (k ≤ 1 → params.placed = .managed →
    During process (fun s ↦ Rested setting s.log s.disk) s)

theorem stable_rested : Stable (guarding setting) process
    (During process fun s ↦ Rested setting s.log s.disk) :=
  stable_during fun _ left h ↦ h.leave left

theorem stable_standing : Stable (guarding setting) process (Standing setting process params k) :=
  fun s t hrely hinv h ↦ ⟨stable_mine s t hrely hinv h.1,
    fun hk hplaced ↦ stable_rested s t hrely hinv (h.2 hk hplaced)⟩

/-- A command a process may perform leaves the reclaim its own. -/
theorem brings_doing (hP : Stable (guarding setting) process P) (hmine : ∀ s, P s → Mine process s)
    (howes : ∀ s, P s → Owes setting process command s) :
    Brings setting process P (call command) fun _ ↦ Mine process := by
  refine yields_call hP (fun _ ↦ stable_mine) (fun s _ ↦ howes s) fun choice s _ h ↦ ?_
  have hturn : (perform setting command choice s).2.turn = s.turn := turn_perform choice
  exact (hmine s h).imp hturn.trans hturn.trans

theorem brings_moveTree {way : Way} (hP : Stable (guarding setting) process P)
    (hmine : ∀ s, P s → Mine process s) (howes : ∀ s, P s → Owes setting process (.rename way) s) :
    Brings setting process P (moveTree setting way) fun _ ↦ Mine process := by
  refine yields_bind stable_mine (brings_asking rfl hP hmine) fun there ↦ ?_
  split
  · exact yields_pure stable_mine hmine
  · refine yields_bind stable_mine (brings_ran_same (brings_asking rfl hP hmine) hP hmine) fun _ ↦ ?_
    exact brings_ran (brings_doing hP hmine howes) (fun _ ↦ stable_mine) (fun _ _ ↦ id) fun _ _ ↦ id

theorem brings_refuse (hP : Stable (guarding setting) process P)
    (hmine : ∀ s, P s → Mine process s) :
    Brings setting process P (refuse setting) fun _ ↦ P := by
  refine yields_bind stable_mine (brings_asking rfl hP hmine) fun seen ↦ ?_
  split
  · exact yields_pure hP fun _ ↦ id
  · exact yields_throw stable_mine hmine
  · exact yields_throw stable_mine hmine

/-- The home moves where it is rested, whatever was refused before. -/
theorem brings_trashHome {force : Bool} : Brings setting process
    (During process fun s ↦ Rested setting s.log s.disk) (TrashHome setting force).apply
    fun _ ↦ Mine process := by
  have hmove : Brings setting process (During process fun s ↦ Rested setting s.log s.disk)
      (moveTree setting .away) fun _ ↦ Mine process :=
    brings_moveTree stable_rested (fun _ h ↦ h.mine) fun _ ↦ id
  cases force with
  | true => exact yields_bind stable_mine hmove fun _ ↦ yields_pure stable_mine fun _ ↦ id
  | false =>
    refine yields_bind stable_mine (brings_refuse stable_rested fun _ h ↦ h.mine) fun seen ↦ ?_
    exact yields_bind stable_mine hmove fun _ ↦ yields_pure stable_mine fun _ ↦ id

theorem works_cases (h : (works setting params)[k]? = some work) :
    (k = 0 ∧ work = StopRuntime) ∨
    (k = 1 ∧ params.placed = .managed ∧ work = TrashHome setting params.force) ∨
    (2 ≤ k ∧ work = TrashPrune setting) ∨
    (params.placed ≠ .managed ∧
      (work = HomePrune setting params.force ∨ work = Unadopt setting)) := by
  cases k with
  | zero => exact .inl ⟨rfl, (Option.some.inj h).symm⟩
  | succ k =>
    right
    have h : (if params.placed = .managed then [TrashHome setting params.force, TrashPrune setting]
        else if setting.managed then []
        else (if params.prune then [HomePrune setting params.force] else []) ++
          [Unadopt setting])[k]? = some work := h
    split at h
    · next hplaced =>
      match k with
      | 0 => exact .inl ⟨rfl, hplaced, (Option.some.inj h).symm⟩
      | 1 => exact .inr (.inl ⟨Nat.le_refl 2, (Option.some.inj h).symm⟩)
      | _ + 2 => cases h
    · next hplaced =>
      refine .inr (.inr ⟨hplaced, ?_⟩)
      have hmem := List.mem_of_getElem? h
      split at hmem
      · cases hmem
      · simp only [List.mem_append, List.mem_ite_nil_right, List.mem_singleton] at hmem
        exact hmem.imp_left And.right

/-- What applies one step leads to where the next is due. -/
theorem brings_apply (h : (works setting params)[k]? = some work) :
    Brings setting process (Standing setting process params k) work.apply
      fun _ ↦ Standing setting process params (k + 1) := by
  have hlate {work : Work} (hk : 1 ≤ k ∨ params.placed ≠ .managed)
      (hwork : Brings setting process (Mine process) work.apply fun _ ↦ Mine process) :
      Brings setting process (Standing setting process params k) work.apply
        fun _ ↦ Standing setting process params (k + 1) :=
    hwork.mono (fun _ h ↦ h.1) fun _ _ hmine ↦
      ⟨hmine, fun hle hplaced ↦ (hk.elim (by omega) fun hnot ↦ hnot hplaced).elim⟩
  have hsweep (path : Path) : Brings setting process (Mine process)
      (call (Command.sweep path) >>= fun _ ↦ pure (.value "\x7b\x7d" : Output))
      fun _ ↦ Mine process :=
    yields_bind stable_mine (brings_doing stable_mine (fun _ ↦ id) fun _ ↦ id) fun _ ↦
      yields_pure stable_mine fun _ ↦ id
  rcases works_cases h with ⟨rfl, rfl⟩ | ⟨rfl, hplaced, rfl⟩ | ⟨hk, rfl⟩ | ⟨hplaced, rfl | rfl⟩
  · have hstop : Brings setting process (Standing setting process params 0)
        (ran (call Command.stop)) fun _ ↦ Standing setting process params 0 :=
      brings_ran_same (brings_asking rfl stable_standing fun _ h ↦ h.1) stable_standing fun _ h ↦ h.1
    exact yields_bind stable_mine hstop fun _ ↦
      yields_pure stable_standing fun s h ↦ ⟨h.1, fun _ ↦ h.2 (Nat.zero_le 1)⟩
  · exact brings_trashHome.mono (fun s h ↦ h.2 (Nat.le_refl 1) hplaced) fun _ _ hmine ↦
      ⟨hmine, fun hle ↦ by omega⟩
  · exact hlate (.inl (by omega)) (hsweep _)
  · refine hlate (.inr hplaced) ?_
    cases hforce : params.force with
    | true => exact hsweep _
    | false => exact yields_bind stable_mine (brings_refuse stable_mine fun _ ↦ id) fun _ ↦ hsweep _
  · refine hlate (.inr hplaced) ?_
    refine yields_bind stable_mine (brings_asking rfl stable_mine fun _ ↦ id) fun there ↦ ?_
    have hnothing : Brings setting process (Mine process) (pure nothing : Script Output)
        fun _ ↦ Mine process := yields_pure stable_mine fun _ ↦ id
    split
    · refine yields_bind stable_mine (brings_ran (brings_doing stable_mine (fun _ ↦ id) fun _ ↦ id)
        (fun _ ↦ stable_mine) (fun _ _ ↦ id) fun _ _ ↦ id) fun _ ↦ hnothing
    · exact hnothing

/-- What undoes a step keeps the reclaim this process's, or ended. -/
theorem brings_undo (h : (works setting params)[k]? = some work) :
    Brings setting process (Mine process) work.undo fun _ ↦ Mine process := by
  have hnothing : Brings setting process (Mine process) (pure () : Script Unit)
      fun _ ↦ Mine process := yields_pure stable_mine fun _ ↦ id
  rcases works_cases h with ⟨rfl, rfl⟩ | ⟨rfl, hplaced, rfl⟩ | ⟨hk, rfl⟩ | ⟨hplaced, rfl | rfl⟩
  · exact hnothing
  · exact brings_moveTree stable_mine (fun _ ↦ id) fun _ ↦ id
  · exact hnothing
  · exact hnothing
  · exact hnothing

theorem Rested.snapshot {name : RefName} (hname : startsWith NAMESPACE name = true)
    (made : Command.Choice (.snapshot name)) (h : Rested setting s.log s.disk) :
    Rested setting (perform setting (.snapshot name) made s).2.log
      (perform setting (.snapshot name) made s).2.disk := by
  dsimp only [perform]
  split
  · exact h
  · exact h
  · next made repository hrepository =>
    split
    · exact h
    · exact h
    · next after hhead hafter =>
      obtain ⟨oid, -, hrecorded⟩ := Option.bind_eq_some_iff.mp hafter
      exact h.cons fun hsince ↦ hsince.recorded hname hrepository hrecorded

theorem startsWith_pre {unit operation : String} : startsWith NAMESPACE (pre unit operation) = true := by
  rfl

theorem brings_recorded : Brings setting process (Standing setting process params 0)
    (recorded setting id) fun _ ↦ Standing setting process params 0 := by
  have hsnapshot : Brings setting process (Standing setting process params 0)
      (call (Command.snapshot (pre setting.unit (toString id))))
      fun _ ↦ Standing setting process params 0 := by
    refine yields_call stable_standing (fun _ ↦ stable_standing) (fun _ _ h ↦ h.1) fun made s _ h ↦ ?_
    have hturn : (perform setting (.snapshot (pre setting.unit (toString id))) made s).2.turn =
        s.turn := turn_perform made
    refine ⟨h.1.imp hturn.trans hturn.trans, fun hk hplaced ↦ ?_⟩
    obtain ⟨hrunning, hrested⟩ := h.2 hk hplaced
    exact ⟨hturn.trans hrunning, hrested.snapshot startsWith_pre made⟩
  refine yields_bind stable_mine (brings_asking rfl stable_standing fun _ h ↦ h.1) fun opened ↦ ?_
  cases opened with
  | error failure => exact yields_pure stable_standing fun _ h ↦ h
  | ok _ => exact brings_ran_same hsnapshot stable_standing fun _ h ↦ h.1

/-- The steps of a reclaim, each in its turn. -/
theorem inTurn : InTurn (performance setting) (guarding setting) process (deeds setting id params)
    (plan setting params).steps.length (Mine process) (Standing setting process params) where
  relies := stable_mine
  undoes k s hmine := by
    dsimp only [deeds]
    cases hwork : (works setting params)[k]? with
    | none => exact fun t hrely hinv ↦ stable_mine s t hrely hinv hmine
    | some work =>
      refine (brings_undo hwork s hmine).mono fun result t h ↦ ?_
      cases result <;> exact h
  registers _ _ _ _ _ h := (Prod.mk.inj (Except.ok.inj h)).2.symm
  stays k := stable_standing
  begins s h := h.1
  snapshot s h := by
    refine (brings_recorded s h).mono fun result t h ↦ ?_
    cases result with
    | error why => exact ⟨h, fun _ hnone ↦ nomatch hnone⟩
    | ok taken => exact ⟨h.1, fun _ _ ↦ h⟩
  applies k _ s h _ := by
    dsimp only [deeds]
    cases hwork : (works setting params)[k]? with
    | none => exact fun t hrely hinv ↦ ⟨stable_mine s t hrely hinv h.1, fun _ hnone ↦ nomatch hnone⟩
    | some work =>
      refine (brings_apply hwork s h).mono fun result t h ↦ ?_
      cases result with
      | error why => exact ⟨h, fun _ hnone ↦ nomatch hnone⟩
      | ok output => exact ⟨h.1, fun _ _ ↦ h⟩

/-! ### The processes -/

/-- A process of the machine leads from an assertion about what it acts on to another. -/
abbrev Reaches (setting : Setting) (process : Process) {α : Type} (P : Site → Prop) (x : Doing α)
    (Q : α → Site → Prop) : Prop :=
  Yields (machine setting) (whole (guarding setting)) process (fun w ↦ Mine process w.outside)
    (fun w ↦ P w.outside) x fun value w ↦ Q value w.outside

theorem reaches_performed {x : Script α} {Q : α → Site → Prop} (h : Brings setting process P x Q) :
    Reaches setting process P (performed x) Q := by
  intro w hw
  have hM : (machine setting).perform = (performance setting).perform := rfl
  refine safe_map ((safe_outside_whole hM (h w.outside hw)).mono fun result w' hresult ↦ ?_)
  cases result <;> exact hresult

/-- An unforced reclaim owes nothing more than the contract asks for, in any order with the others. -/
theorem reaches_reclaim (hforce : setting.force = false) :
    Reaches setting process (During process fun _ ↦ True) (reclaim setting id)
      fun _ ↦ Mine process := by
  have hM : (machine setting).perform = (performance setting).perform := rfl
  have hmine : Stable (whole (guarding setting)) process fun w ↦ Mine process w.outside :=
    fun w w' ↦ stable_mine w.outside w'.outside
  refine yields_bind hmine (reaches_performed (brings_claimed hforce)) fun prepared ↦ ?_
  refine yields_bind hmine (reaches_performed brings_hook) fun _ ↦ ?_
  have htethers : Brings setting process (During process (Ready setting prepared.placed))
      (ran (call Command.tethers)) fun _ ↦ During process (Ready setting prepared.placed) :=
    brings_ran_same (brings_asking rfl stable_ready fun _ h ↦ h.mine) stable_ready fun _ h ↦ h.mine
  refine yields_bind hmine (reaches_performed htethers) fun tethers ↦ ?_
  refine yields_bind hmine (reaches_performed brings_pruneRefs) fun _ ↦ ?_
  refine yields_bind (Q := fun _ w ↦ Mine process w.outside) hmine (fun w hready ↦ ?_) fun _ ↦ ?_
  · have hstands : Standing setting process { prepared with tethers } 0 w.outside := by
      refine ⟨hready.mine, fun _ hplaced ↦ ⟨hready.1, ?_⟩⟩
      have hmanaged : prepared.placed = .managed := hplaced
      have hfit := hready.2.1
      rw [hmanaged] at hfit
      exact hfit
    refine (inTurn.safe_run hM rfl hstands).mono fun result w' h ↦ ?_
    cases result <;> exact h
  · have hpost : Brings setting process (Mine process)
        (ran (call (Command.hook .postReclaim))) fun _ ↦ Mine process :=
      brings_ran (brings_doing stable_mine (fun _ h ↦ h) fun _ h ↦ h) (fun _ ↦ stable_mine)
        (fun _ _ h ↦ h) fun _ _ h ↦ h
    exact reaches_performed hpost

theorem safe_programOf (hforce : setting.force = false) {job : Job} {w w' : Performed Site}
    (henter : enter setting process job w = some w') :
    Safe (machine setting) (whole (guarding setting)) process (fun _ _ ↦ True)
      (programOf setting job) w' := by
  have hM : (machine setting).perform = (performance setting).perform := rfl
  unfold enter at henter
  split at henter
  · cases job with
    | reclaim id =>
      dsimp only at henter
      split at henter
      · obtain rfl := Option.some.inj henter
        exact safe_map ((reaches_reclaim hforce _ ⟨rfl, trivial⟩).mono fun _ _ _ ↦ trivial)
      · cases henter
    | rollBack id params =>
      dsimp only at henter
      split at henter
      · next hgone =>
        obtain rfl := Option.some.inj henter
        exact safe_map ((inTurn.toUndoable.safe_rollBack hM (.inr hgone.1)).mono fun _ _ _ ↦ trivial)
      · cases henter
    | write => exact fun _ _ _ ↦ ⟨trivial, fun _ _ _ _ _ ↦ trivial⟩
  · cases henter

/-- Who enters begins the reclaim, or leaves what it acts on as it was. -/
theorem outside_enter {job : Job} {w w' : Performed Site}
    (henter : enter setting process job w = some w') :
    (w.outside.turn = .before ∧ w'.outside.log = w.outside.log) ∨ w'.outside = w.outside := by
  unfold enter at henter
  split at henter
  · cases job with
    | reclaim id =>
      dsimp only at henter
      split at henter
      · next hbegins =>
        obtain rfl := Option.some.inj henter
        exact .inl ⟨hbegins.1, rfl⟩
      · cases henter
    | rollBack id params =>
      dsimp only at henter
      split at henter
      · obtain rfl := Option.some.inj henter
        exact .inr rfl
      · cases henter
    | write =>
      obtain rfl := Option.some.inj henter
      exact .inr rfl
  · cases henter

/-- An unforced reclaim keeps the contract beside writers, and so does whoever takes it back. -/
theorem sound_guarding (hforce : setting.force = false) :
    Sound (machine setting) (whole (guarding setting)) (fun _ _ _ ↦ True) (fun _ _ ↦ True) where
  assume {c i choice effect rest} _ _ := by cases effect <;> trivial
  act {c i choice effect rest} _ _ hinv hpre := by
    cases effect with
    | outside command =>
      exact ⟨accounted_perform _ hinv hpre, fun j p hj _ ↦ .inl (rely_perform _ hpre hj)⟩
    | journal effect =>
      have hkept : ((machine setting).perform i (.journal effect) (choice (.journal effect))
          c.world).2.outside = c.world.outside := by
        rcases outside_stated (performance setting) i c.world effect (choice (.journal effect)) with
          heq | ⟨id, outputs, output, s, hregister, heq⟩
        · exact heq
        · exact heq.trans (Prod.mk.inj (Except.ok.inj hregister)).2.symm
      refine ⟨?_, fun j p _ _ ↦ .inl ?_⟩
      · change Accounted setting _
        rw [hkept]
        exact hinv
      · change (guarding setting).rely j c.world.outside _
        rw [hkept]
        exact (guarding setting).rely_refl j _
  enter {c i job world} _ _ hworld hinv := by
    refine ⟨?_, safe_programOf hforce hworld, fun j p _ _ ↦ .inl ?_⟩
    · change Accounted setting world.outside.log
      rcases outside_enter hworld with ⟨-, hlog⟩ | heq
      · exact hlog ▸ hinv
      · exact heq ▸ hinv
    · change (guarding setting).rely j c.world.outside world.outside
      rcases outside_enter hworld with ⟨hbefore, -⟩ | heq
      · exact ⟨fun hturn ↦ (nomatch hbefore.symm.trans hturn),
          fun hover ↦ (nomatch hbefore.symm.trans hover)⟩
      · exact heq ▸ (guarding setting).rely_refl j _
  leave {c i p} _ _ hinv := by
    have hleft : (leave i c.world).outside = if c.world.outside.turn = .of i then
        { c.world.outside with turn := .over } else c.world.outside := rfl
    refine ⟨?_, fun j q hj _ ↦ .inl ?_⟩
    · change Accounted setting (leave i c.world).outside.log
      rw [hleft]
      split <;> exact hinv
    · change (guarding setting).rely j c.world.outside (leave i c.world).outside
      rw [hleft]
      split
      · next hturn =>
        exact ⟨fun hother ↦ (hj (Turn.of.inj (hother.symm.trans hturn))).elim, fun _ ↦ rfl⟩
      · exact (guarding setting).rely_refl j _

end Guarding

/-! ### Every run -/

/-- Nobody is alive, the reclaim has not begun, and the log is empty. -/
structure Beginning (c : Stage) : Prop where
  idle : Idle c
  turn : c.world.outside.turn = .before
  log : c.world.outside.log = []

/-- What a moved home carried was covered by the safe reading before, or a write since brought it. -/
def MovesCovered (setting : Setting) (log : List Event) : Prop :=
  ∀ later before after earlier, log = later ++ .moved before after :: earlier →
    ∃ input start since rest, earlier = since ++ .read input start :: rest ∧
      input.home = setting.home ∧ AnsweredSafe input start ∧
      ∀ item, Carries input before item → Covers input start item ∨
        ∃ was now, .wrote was now ∈ since ∧ ¬Carries input was item ∧ Carries input now item

/-- What was deleted on the remote is the unit's, and went after the home was cleared and the hook had
ended well. -/
def DeletesOwn (setting : Setting) (log : List Event) : Prop :=
  ∀ later names earlier, log = later ++ .deleted names :: earlier →
    (∀ name ∈ names, startsWith (space setting.unit) name = true) ∧ Passed setting earlier

/-- A unit on the branch of the project's checkout. -/
def unforced : Setting where
  unit := "unit"
  slug := "unit"
  home := "/home"
  trash := "/trash"
  root := "/project"
  managed := true
  force := false
  prune := false

private theorem caughtUp_ordered : NewestFirst (fun _ ↦ []) [(⟨1⟩ : Oid)] := by
  decide

/-- A home at the checkout's commit, with what its working tree carries. -/
def caughtUp (status : List Entry) : Disk :=
  .ordinaries (fun _ ↦ []) (fun _ ↦ [])
    (fun path ↦
      if path = "/home" then
        some { Repository.ordinary [⟨["refs", "heads", "main"], ⟨1⟩⟩]
            (.symbolic ["refs", "heads", "main"]) [⟨1⟩] caughtUp_ordered with
          remotes := ["origin"], origin := some "app", status }
      else if path = "/project" then
        some (.ordinary [⟨["refs", "heads", "main"], ⟨1⟩⟩]
          (.symbolic ["refs", "heads", "main"]) [⟨1⟩] caughtUp_ordered)
      else none) fun _ _ ↦ none

/-- Nothing has begun, and the unit's snapshot is on the remote. -/
def pushedUnit : Stage where
  world := {
    journal := { journal := ⟨∅, fun _ ↦ ∅, Lifecycle.Journal.keyed_empty⟩, processes := [], past := [], named := [],
                 log := fun _ ↦ [] }
    outside := { disk := caughtUp [], there := fun path ↦ path = "/home"
                 remote := fun _ ↦ [space "unit" ++ ["head"]], turn := .before, log := [] } }
  running _ := none

/-- What a hook leaves that writes a file nobody commits. -/
def drafted : Left where
  disk := caughtUp [⟨["draft"], .untracked⟩]
  there path := path = "/home"
  remote _ := [space "unit" ++ ["head"]]

/-- What the outside chooses where every command runs: what a hook leaves, and what stands in the
home. -/
def granted (left : Left) (seen : Runtime) : (act : Act Command) → act.Choice Command.Choice
  | .journal effect =>
    match effect with
    | .isRunning _ _ => false
    | .rebuild _ _ | .snapshot _ _ _ | .endApply _ _ => .error ""
    | .endUndo _ _ => .ok ()
    | .commit _ _ _ => .ok nothing
    | .start _ _ | .markStep _ _ | .finish _ _ | .reopen _ | .steps _ | .unfinished | .beginApply _ _
    | .beginUndo _ _ => ()
  | .outside command =>
    match command with
    | .recipe | .siblings => []
    | .assess _ => (0 : ℕ)
    | .processes => seen
    | .snapshot _ => .ok (some ⟨7⟩)
    | .hook _ => (.ok (), left)
    | .tethers => .ok []
    | .wasPushed => .ok true
    | .sweep _ => fun _ ↦ true
    | .unadopt => (.ok (), fun _ ↦ true)
    | .write => left
    | .rows | .placed | .prepared | .stop | .createParent _ | .rename _ | .lsRemote _ _
    | .delete _ _ => .ok ()
    | .isDir _ | .openRepository _ | .remotes _ => ()

/-- The process of the reclaim. -/
def reclaimer : Process := ⟨⟨"host", 1⟩, 0⟩

/-- A reclaim, for as many of its effects. -/
def reclaiming (left : Left) (seen : Runtime) (count : ℕ) : List Happening :=
  .enter reclaimer (.reclaim 1) :: List.replicate count (.act reclaimer (granted left seen))

theorem beginning_pushedUnit : Beginning pushedUnit := ⟨fun _ ↦ rfl, rfl, rfl⟩

instance (disk : Disk) (home : Path) (path : RelPath) : Decidable (Uncommitted disk home path) :=
  match hrepository : disk.repository home with
  | none => isFalse fun ⟨_, hsome, _⟩ ↦ nomatch hrepository.symm.trans hsome
  | some repository =>
    decidable_of_iff (∃ entry ∈ repository.status,
      entry.path = path ∧ entry.isUncommitted = true ∧ isNodalsOwn entry = false)
      ⟨fun h ↦ ⟨repository, hrepository, h⟩, fun ⟨_, hother, h⟩ ↦
        Option.some.inj (hrepository.symm.trans hother) ▸ h⟩

/-- What comes of a run, where it passes a check. -/
theorem exec_of_any {setting : Setting} {c : Stage} {labels : List Happening} {check : Stage → Bool}
    (h : ((machine setting).exec c labels).any check = true) :
    ∃ c', (machine setting).exec c labels = some c' ∧ check c' = true :=
  (Option.any_eq_true ..).mp h

end Nodal.Reclaim
