import Nodal.Env.Entering

/-!
# An activation as a partition of the declared names

`env/mod.rs`: three lists of a recipe declare names, each with a source of its own, and a name that a
list's source does not answer is missing for that list. The variables keep a name once (`dedupe`); the
missing entries are not compared with each other or with the variables. So each declared name is one
variable or one missing entry exactly when the names some list lacks are each declared once, and are
not of the identity (`partition_iff`).
-/

set_option autoImplicit false

namespace Nodal.Env

open Foundation

/-! ### What the lists of a recipe come to -/

/-- Every name a recipe declares, once for each time it is declared. -/
def Recipe.declared (recipe : Recipe) : List EnvName :=
  recipe.generated ++ recipe.requiredLocal ++ recipe.secrets

/-- A list of names was asked for: each that has no answer is missing as often as it was asked for,
and the others have a variable. -/
structure Answers (unanswered : EnvName → Prop) (names : List EnvName) (activation : Activation) :
    Prop where
  missing : ∀ name, (unanswered name →
      (activation.missing.map Missing.name).count name = names.count name) ∧
    (¬unanswered name → (activation.missing.map Missing.name).count name = 0)
  vars : ∀ name, name ∈ activation.vars.map EnvVar.name ↔ name ∈ names ∧ ¬unanswered name

namespace Answers

variable {unanswered : EnvName → Prop} {names : List EnvName} {name : EnvName}
  {first others : Activation}

theorem nil : Answers unanswered [] ⟨[], []⟩ :=
  ⟨fun _ ↦ ⟨fun _ ↦ rfl, fun _ ↦ rfl⟩, fun _ ↦ by simp⟩

/-- One name that has an answer. -/
theorem answered (h : ¬unanswered name) (origin : Origin) (value : Text) :
    Answers unanswered [name] ⟨[⟨name, origin, value⟩], []⟩ := by
  refine ⟨fun other ↦ ⟨fun hother ↦ ?_, fun _ ↦ rfl⟩, fun other ↦ ?_⟩
  · have hne : name ≠ other := fun heq ↦ h (heq ▸ hother)
    simp [hne]
  · constructor
    · intro hmem
      obtain rfl : other = name := by simpa using hmem
      exact ⟨List.mem_singleton.mpr rfl, h⟩
    · rintro ⟨hmem, _⟩
      simpa using hmem

/-- One name that has none. -/
theorem lacking (h : unanswered name) (want : Want) :
    Answers unanswered [name] ⟨[], [⟨name, want⟩]⟩ := by
  refine ⟨fun other ↦ ⟨fun _ ↦ rfl, fun hother ↦ ?_⟩, fun other ↦ ?_⟩
  · have hne : name ≠ other := fun heq ↦ hother (heq ▸ h)
    simp [hne]
  · constructor
    · intro hmem
      cases hmem
    · rintro ⟨hmem, hother⟩
      exact absurd (List.mem_singleton.mp hmem ▸ h) hother

theorem cons (h : Answers unanswered [name] first) (h' : Answers unanswered names others) :
    Answers unanswered (name :: names)
      ⟨first.vars ++ others.vars, first.missing ++ others.missing⟩ := by
  have hcount : ∀ other, (name :: names).count other = [name].count other + names.count other :=
    fun other ↦ @List.count_append _ _ other [name] names
  refine ⟨fun other ↦ ?_, fun other ↦ ?_⟩
  · rw [List.map_append, List.count_append, hcount]
    constructor
    · intro hother
      rw [(h.missing other).1 hother, (h'.missing other).1 hother]
    · intro hother
      rw [(h.missing other).2 hother, (h'.missing other).2 hother]
  · have hone : other ∈ [name] ↔ other = name := List.mem_singleton
    rw [List.map_append, List.mem_append, h.vars, h'.vars, hone, List.mem_cons]
    exact or_and_right.symm

end Answers

/-- A name a service is to generate has no answer. -/
def Ungenerated (produced : EnvName → Option Text) (standIns : Option StandIns) (name : EnvName) :
    Prop :=
  produced name = none ∧ standIn standIns name = .ok none

variable {subject : Subject} {recipe : Recipe} {produced : EnvName → Option Text}
  {standIns : Option StandIns} {sources : List Source} {activation : Activation}

theorem fromProducedOne_answers {name : EnvName} {one : Activation}
    (h : fromProducedOne produced standIns name = .ok one) :
    Answers (Ungenerated produced standIns) [name] one := by
  unfold fromProducedOne at h
  split at h
  · next value hvalue =>
    cases h
    exact .answered (fun hnone ↦ by simp [Ungenerated, hvalue] at hnone) _ _
  · next hnone =>
    obtain ⟨answer, hanswer, h⟩ := Git.bind_eq_ok h
    cases answer with
    | some value =>
      cases h
      exact .answered (fun hlacks ↦ by simp [Ungenerated, hanswer] at hlacks) _ _
    | none =>
      cases h
      exact .lacking ⟨hnone, hanswer⟩ _

theorem fromProduced_answers {names : List EnvName} {generated : Activation}
    (h : fromProduced produced standIns names = .ok generated) :
    Answers (Ungenerated produced standIns) names generated := by
  induction names generalizing generated with
  | nil =>
    cases h
    exact .nil
  | cons name rest ih =>
    rw [fromProduced] at h
    obtain ⟨first, hfirst, h⟩ := Git.bind_eq_ok h
    obtain ⟨others, hothers, h⟩ := Git.bind_eq_ok h
    cases h
    exact (fromProducedOne_answers hfirst).cons (ih hothers)

theorem fromSources_answers {want : Want} {names : List EnvName} {asked : Activation}
    (h : fromSources sources want names = .ok asked) :
    Answers (fun name ↦ lookupIn sources name = .ok none) names asked := by
  induction names generalizing asked with
  | nil =>
    cases h
    exact .nil
  | cons name rest ih =>
    rw [fromSources] at h
    obtain ⟨answer, hanswer, h⟩ := Git.bind_eq_ok h
    cases answer with
    | some found =>
      obtain ⟨first, hfirst, h⟩ := Git.bind_eq_ok h
      obtain ⟨others, hothers, h⟩ := Git.bind_eq_ok h
      cases hfirst
      cases h
      exact (Answers.answered (fun hnone ↦ by simp [hanswer] at hnone) _ _).cons (ih hothers)
    | none =>
      obtain ⟨first, hfirst, h⟩ := Git.bind_eq_ok h
      obtain ⟨others, hothers, h⟩ := Git.bind_eq_ok h
      cases hfirst
      cases h
      exact (Answers.lacking hanswer _).cons (ih hothers)

/-! ### What is kept -/

/-- The identity as variables. -/
def identified (subject : Subject) : List EnvVar :=
  (identity subject).map fun (name, value) ↦ ⟨name, .identity, value⟩

theorem identified_names (subject : Subject) : (identified subject).map EnvVar.name = ALL := rfl

theorem nodup_dedupe (seen : List EnvName) (vars : List EnvVar) :
    ((dedupe seen vars).map EnvVar.name).Nodup := by
  fun_induction dedupe with
  | case1 => exact List.nodup_nil
  | case2 seen first rest hfirst ih => exact ih
  | case3 seen first rest hfirst ih =>
    refine List.nodup_cons.mpr ⟨fun hmem ↦ ?_, ih⟩
    obtain ⟨var, hvar, hname⟩ := List.mem_map.mp hmem
    exact (mem_of_mem_dedupe hvar).2 (hname ▸ List.mem_cons_self)

/-- Assumes: distinct names that were not seen yet. Their variables are all kept, before any other. -/
theorem prefix_dedupe {seen : List EnvName} {first : List EnvVar}
    (hfirst : (first.map EnvVar.name).Nodup) (hseen : ∀ var ∈ first, var.name ∉ seen)
    (rest : List EnvVar) : first <+: dedupe seen (first ++ rest) := by
  induction first generalizing seen with
  | nil => exact List.nil_prefix
  | cons var vars ih =>
    obtain ⟨hnot, hvars⟩ := List.nodup_cons.mp hfirst
    have hkept : dedupe seen (var :: vars ++ rest) = var :: dedupe (var.name :: seen) (vars ++ rest) :=
      if_neg (hseen var List.mem_cons_self)
    rw [hkept]
    refine List.prefix_cons_inj var |>.mpr (ih hvars fun other hother hin ↦ ?_)
    rcases List.mem_cons.mp hin with hsame | hin
    · exact hnot (List.mem_map.mpr ⟨other, hother, hsame⟩)
    · exact hseen other (List.mem_cons_of_mem _ hother) hin

theorem mem_names_dedupe {vars : List EnvVar} {name : EnvName} :
    name ∈ (dedupe [] vars).map EnvVar.name ↔ name ∈ vars.map EnvVar.name := by
  constructor
  · intro hmem
    obtain ⟨var, hvar, rfl⟩ := List.mem_map.mp hmem
    exact List.mem_map_of_mem (mem_of_mem_dedupe hvar).1
  · intro hmem
    obtain ⟨var, hvar, rfl⟩ := List.mem_map.mp hmem
    obtain ⟨kept, hkept, hname⟩ := exists_mem_dedupe hvar List.not_mem_nil
    exact hname ▸ List.mem_map_of_mem hkept

/-- An activation was assembled from what the three lists came to. -/
theorem resolve_eq_ok (h : resolve subject recipe produced standIns sources = .ok activation) :
    ∃ generated required secret : Activation,
      Answers (Ungenerated produced standIns) recipe.generated generated ∧
      Answers (fun name ↦ lookupIn sources name = .ok none) recipe.requiredLocal required ∧
      Answers (fun name ↦ lookupIn sources name = .ok none) recipe.secrets secret ∧
      activation = ⟨dedupe [] (identified subject ++ generated.vars ++ required.vars ++ secret.vars),
        generated.missing ++ required.missing ++ secret.missing⟩ := by
  unfold resolve at h
  obtain ⟨generated, hgenerated, h⟩ := Git.bind_eq_ok h
  obtain ⟨required, hrequired, h⟩ := Git.bind_eq_ok h
  obtain ⟨secret, hsecret, h⟩ := Git.bind_eq_ok h
  exact ⟨generated, required, secret, fromProduced_answers hgenerated,
    fromSources_answers hrequired, fromSources_answers hsecret, (Except.ok.inj h).symm⟩

/-! ### Entering -/

/-- Assumes: names that are each there once. Asking keeps them so, and keeps every value there was. -/
theorem asked_spec (secrets : EnvName → Option Text) (names : List EnvName)
    {pairs : List (EnvName × Text)} (hpairs : (pairs.map Prod.fst).Nodup) :
    ((asked secrets names pairs).map Prod.fst).Nodup ∧ pairs <+: asked secrets names pairs := by
  induction names generalizing pairs with
  | nil => exact ⟨hpairs, List.prefix_rfl⟩
  | cons name rest ih =>
    rw [asked]
    split
    · exact ih hpairs
    · next hnew =>
      split
      · next value _ =>
        have hnot : name ∉ pairs.map Prod.fst := by
          intro hmem
          obtain ⟨pair, hpair, hname⟩ := List.mem_map.mp hmem
          exact hnew (List.any_eq_true.mpr ⟨pair, hpair, decide_eq_true hname⟩)
        have hmore : ((pairs ++ [(name, value)]).map Prod.fst).Nodup := by
          rw [List.map_append]
          refine List.nodup_append.mpr ⟨hpairs, List.nodup_singleton _, ?_⟩
          intro other hother last hlast hsame
          obtain rfl : last = name := List.mem_singleton.mp hlast
          exact hnot (hsame ▸ hother)
        obtain ⟨hnodup, hheads⟩ := ih hmore
        exact ⟨hnodup, (List.prefix_append pairs _).trans hheads⟩
      · exact ih hpairs

/-- Entering a home that was written for an activation gives each name once, and the value that
`.nodal/env` holds for it where it holds one. -/
structure Enters (subject : Subject) (activation : Activation) : Prop where
  enters : ∀ (toml : Toml) (tracks : Tracks) (fails : String → Bool) (writing : Writing)
    (files files' : Files) (notes : List String) (reader : EnvName → Option Text),
    tracks.mayWrite ENV = true →
    write toml tracks fails activation (activation.manifest subject writing) files =
      .ok (files', notes) →
    ∃ text pairs, files' ENV = some text ∧ entering toml files' reader = .ok pairs ∧
      (pairs.map Prod.fst).Nodup ∧
      ∀ name value held, (name, value) ∈ pairs → (name, held) ∈ parseDotenv text → value = held

/-- Assumes: variables with distinct names. -/
theorem enters_of_nodup (h : (activation.vars.map EnvVar.name).Nodup) : Enters subject activation := by
  refine ⟨fun toml tracks fails writing files files' notes reader henv hwrite ↦ ?_⟩
  rw [write] at hwrite
  split at hwrite
  · cases hwrite
  · obtain ⟨text, htext, hheld⟩ := (writeEach_eq_ok hwrite).2 (by decide) henv
    obtain rfl : dotenv activation = text := Except.ok.inj htext
    have hnames : ((parseDotenv (dotenv activation)).map Prod.fst).Nodup := by
      rw [parseDotenv_dotenv, List.map_map]
      exact h.sublist (List.filter_sublist.map EnvVar.name)
    obtain ⟨pairs, hentering, hnodup, hheads⟩ : ∃ pairs, entering toml files' reader = .ok pairs ∧
        (pairs.map Prod.fst).Nodup ∧ parseDotenv (dotenv activation) <+: pairs := by
      simp only [entering, hheld]
      cases (files' MANIFEST).bind toml.parse with
      | none => exact ⟨_, rfl, hnames, List.prefix_rfl⟩
      | some manifest =>
        obtain ⟨hnodup, hheads⟩ := asked_spec reader (wanted manifest) hnames
        exact ⟨_, rfl, hnodup, hheads⟩
    refine ⟨dotenv activation, pairs, hheld, hentering, hnodup, fun name value held hin hfile ↦ ?_⟩
    have hsame := List.inj_on_of_nodup_map hnodup hin (hheads.subset hfile) rfl
    exact congrArg Prod.snd hsame

/-! ### The partition -/

/-- The variables have distinct names with the identity first, and each declared name is one variable
or one missing entry. -/
structure Partition (subject : Subject) (recipe : Recipe) (activation : Activation) : Prop where
  distinct : (activation.vars.map EnvVar.name).Nodup
  identity_first : identified subject <+: activation.vars
  once : ∀ name ∈ recipe.declared,
    (activation.vars.map EnvVar.name).count name +
      (activation.missing.map Missing.name).count name = 1

/-- Some list declares the name and the list's source does not answer it. -/
def Lacking (recipe : Recipe) (produced : EnvName → Option Text) (standIns : Option StandIns)
    (sources : List Source) (name : EnvName) : Prop :=
  name ∈ recipe.generated ∧ Ungenerated produced standIns name ∨
    name ∈ recipe.requiredLocal ++ recipe.secrets ∧ lookupIn sources name = .ok none

/-- Assumes: a name that is a variable, once, where the identity has it or a list has it answered, and
missing as often as a list has it without an answer. It is one of the two once in all exactly when a
list that lacks it is the only one to have it, and the identity has it not. -/
private theorem once_iff (identity : Prop) {ungenerated unsourced : Prop} {var generated required secret
    missing missing' missing'' : ℕ} (hvar : var ≤ 1)
    (hkept : 0 < var ↔ identity ∨ (0 < generated ∧ ¬ungenerated) ∨
      ((0 < required ∨ 0 < secret) ∧ ¬unsourced))
    (hgenerated : (ungenerated → missing = generated) ∧ (¬ungenerated → missing = 0))
    (hrequired : (unsourced → missing' = required) ∧ (¬unsourced → missing' = 0))
    (hsecret : (unsourced → missing'' = secret) ∧ (¬unsourced → missing'' = 0))
    (hdeclared : 0 < generated + required + secret) :
    var + (missing + missing' + missing'') = 1 ↔
      ((0 < generated ∧ ungenerated ∨ (0 < required ∨ 0 < secret) ∧ unsourced) →
        generated + required + secret = 1 ∧ ¬identity) := by
  by_cases hungenerated : ungenerated
  · by_cases hunsourced : unsourced
    · simp only [hungenerated, hunsourced, true_implies, not_true_eq_false, and_false, or_false,
        and_true] at *
      by_cases hidentity : identity
      · simp only [hidentity, iff_true, not_true_eq_false, and_false,
          imp_false] at *
        omega
      · simp only [hidentity, iff_false, not_false_eq_true, and_true] at *
        omega
    · simp only [hungenerated, hunsourced, true_implies, not_true_eq_false, not_false_eq_true,
        and_false, or_false, false_or, and_true] at *
      by_cases hidentity : identity
      · simp only [hidentity, true_or, iff_true, not_true_eq_false, and_false,
          imp_false] at *
        omega
      · simp only [hidentity, false_or, not_false_eq_true, and_true] at *
        omega
  · by_cases hunsourced : unsourced
    · simp only [hungenerated, hunsourced, true_implies, not_true_eq_false, not_false_eq_true,
        and_false, or_false, false_or, and_true] at *
      by_cases hidentity : identity
      · simp only [hidentity, true_or, iff_true, not_true_eq_false, and_false,
          imp_false] at *
        omega
      · simp only [hidentity, false_or, not_false_eq_true, and_true] at *
        omega
    · simp only [hungenerated, hunsourced, true_implies, not_false_eq_true, and_true, and_false,
        or_false, false_implies, iff_true] at *
      omega

/-- An activation is a partition of what was declared, which entering keeps, exactly when each name
that some list lacks is declared once in all, and is not of the identity. -/
theorem partition_iff (h : resolve subject recipe produced standIns sources = .ok activation) :
    Partition subject recipe activation ∧ Enters subject activation ↔
      ∀ name, Lacking recipe produced standIns sources name →
        recipe.declared.count name = 1 ∧ name ∉ ALL := by
  obtain ⟨generated, required, secret, hgenerated, hrequired, hsecret, rfl⟩ := resolve_eq_ok h
  have hdistinct := nodup_dedupe []
    (identified subject ++ generated.vars ++ required.vars ++ secret.vars)
  have hfirst : identified subject <+:
      dedupe [] (identified subject ++ generated.vars ++ required.vars ++ secret.vars) := by
    have hnames : ((identified subject).map EnvVar.name).Nodup := by
      rw [identified_names]
      decide
    rw [List.append_assoc, List.append_assoc]
    exact prefix_dedupe hnames (fun _ _ ↦ List.not_mem_nil) _
  have hdeclared : ∀ name, recipe.declared.count name =
      recipe.generated.count name + recipe.requiredLocal.count name + recipe.secrets.count name := by
    intro name
    rw [Recipe.declared, List.count_append, List.count_append]
  have hmissing : ∀ name, ((generated.missing ++ required.missing ++ secret.missing).map
      Missing.name).count name = (generated.missing.map Missing.name).count name +
        (required.missing.map Missing.name).count name +
          (secret.missing.map Missing.name).count name := by
    intro name
    rw [List.map_append, List.map_append, List.count_append, List.count_append]
  have hkept : ∀ name, name ∈ (dedupe []
      (identified subject ++ generated.vars ++ required.vars ++ secret.vars)).map EnvVar.name ↔
        name ∈ ALL ∨ (name ∈ recipe.generated ∧ ¬Ungenerated produced standIns name) ∨
          (name ∈ recipe.requiredLocal ++ recipe.secrets ∧ ¬lookupIn sources name = .ok none) := by
    intro name
    rw [mem_names_dedupe, List.map_append, List.map_append, List.map_append, List.mem_append,
      List.mem_append, List.mem_append, identified_names, hgenerated.vars, hrequired.vars,
      hsecret.vars, List.mem_append]
    tauto
  -- the arithmetic of one name, from whether its sources answer it
  have hname : ∀ name, name ∈ recipe.declared →
      (((dedupe [] (identified subject ++ generated.vars ++ required.vars ++ secret.vars)).map
          EnvVar.name).count name + ((generated.missing ++ required.missing ++ secret.missing).map
            Missing.name).count name = 1 ↔
        (Lacking recipe produced standIns sources name →
          recipe.declared.count name = 1 ∧ name ∉ ALL)) := by
    intro name hin
    rw [hmissing, hdeclared]
    refine (once_iff (name ∈ ALL)
      (List.nodup_iff_count_le_one.mp hdistinct name) ?_ (hgenerated.missing name)
      (hrequired.missing name) (hsecret.missing name) ?_).trans ?_
    · rw [List.count_pos_iff, hkept, List.count_pos_iff, List.count_pos_iff, List.count_pos_iff,
        List.mem_append]
    · rw [← hdeclared]
      exact List.count_pos_iff.mpr hin
    · rw [Lacking, List.count_pos_iff, List.count_pos_iff, List.count_pos_iff, List.mem_append]
  constructor
  · rintro ⟨hpartition, _⟩ name hlacking
    have hin : name ∈ recipe.declared := by
      unfold Recipe.declared
      rcases hlacking with ⟨hmem, _⟩ | ⟨hmem, _⟩
      · exact List.mem_append_left _ (List.mem_append_left _ hmem)
      · rw [List.append_assoc]
        exact List.mem_append_right _ hmem
    exact (hname name hin).mp (hpartition.once name hin) hlacking
  · intro honce
    exact ⟨⟨hdistinct, hfirst, fun name hin ↦ (hname name hin).mpr (honce name)⟩,
      enters_of_nodup hdistinct⟩

def PORT : EnvName := ⟨"PORT".toList, by decide⟩

/-- A service that gives the unit its port. -/
def serving (name : EnvName) : Option Text := if name = PORT then some "3000".toList else none

/-- A person with no secrets. -/
def nobody : List Source := [machineSecrets fun _ ↦ none]

/-- The variables of a unit with a port. -/
def withPort : List EnvVar := identified fixLogin ++ [⟨PORT, .generated, "3000".toList⟩]

theorem partition_port :
    Partition fixLogin ⟨[PORT], [], [API_KEY]⟩ ⟨withPort, [⟨API_KEY, .secret⟩]⟩ ∧
      Enters fixLogin ⟨withPort, [⟨API_KEY, .secret⟩]⟩ := by
  have hresolve : resolve fixLogin ⟨[PORT], [], [API_KEY]⟩ serving none nobody =
      .ok ⟨withPort, [⟨API_KEY, .secret⟩]⟩ := by decide
  refine (partition_iff hresolve).mpr ?_
  rintro name (⟨hmem, hnone, _⟩ | ⟨hmem, _⟩)
  · obtain rfl : name = PORT := List.mem_singleton.mp hmem
    exact absurd hnone (by decide)
  · obtain rfl : name = API_KEY := List.mem_singleton.mp hmem
    decide

/-- A port that a service produced and a person was to say is a variable and a missing entry. -/
theorem port_twice :
    resolve fixLogin ⟨[PORT], [PORT], []⟩ serving none nobody =
        .ok ⟨withPort, [⟨PORT, .requiredLocal⟩]⟩ ∧
      ¬Partition fixLogin ⟨[PORT], [PORT], []⟩ ⟨withPort, [⟨PORT, .requiredLocal⟩]⟩ := by
  refine ⟨by decide, fun hpartition ↦ ?_⟩
  have honce := hpartition.once PORT (by decide)
  exact absurd honce (by decide)

end Nodal.Env
