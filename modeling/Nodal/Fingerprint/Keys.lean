import Mathlib.Data.List.Sort
import Mathlib.Data.Prod.Lex
import Mathlib.Data.Set.Function
import Nodal.Fingerprint.Inputs
import Nodal.Foundation.Framed
import Nodal.Foundation.Sha256

/-!
# The two keys of a tree

`fingerprint/mod.rs` and `fingerprint/digest.rs`: a digest of each class's inputs, and a key of the named
digests. SHA-256 is a parameter, and what is assumed of it is that it tells apart the byte strings that
were hashed for the two listings in hand.

The inputs of a class are sorted by an order in which no two inputs tie, so the order of a listing is
lost. Every field is hashed with its length before it, so nothing else is: a key is known from the
inputs of its classes, and they from it (`keys_separate`).
-/

set_option autoImplicit false

namespace Nodal.Fingerprint

open Foundation Foundation.Text Foundation.Framed

/-! ### Digests -/

inductive Error
  | invalidValue (kind : String) (value : Text)
  deriving DecidableEq

/-- The rule of a content digest. -/
def isDigest (value : Text) : Bool := value ≠ [] && value.length ≤ 128 && value.all isHexDigit

/-- A content digest, lowercase hex. -/
structure Digest where
  text : Text
  shaped : isDigest text = true
  deriving DecidableEq

theorem Digest.text_inj {first second : Digest} : first.text = second.text ↔ first = second := by
  refine ⟨fun h ↦ ?_, congrArg _⟩
  cases first
  cases second
  cases h
  rfl

def Digest.parse (value : Text) : Except Error Digest :=
  if h : isDigest value = true then .ok ⟨value, h⟩ else .error (.invalidValue "digest" value)

/-- What a hasher has taken in. -/
structure Hasher where
  absorbed : List UInt8

namespace Hasher

/-- Add one field. -/
def field (hasher : Hasher) (bytes : List UInt8) : Hasher := ⟨hasher.absorbed ++ frame bytes⟩

/-- Add one field, borrowed as text. -/
def addText (hasher : Hasher) (text : Text) : Hasher := hasher.field (bytes text)

/-- Start a digest in a domain. -/
def new (domain : Text) : Hasher := Hasher.addText ⟨[]⟩ domain

variable (sha : List UInt8 → BitVec 256)

/-- Finish, as lowercase hex. -/
def finish (hasher : Hasher) : Except Error Digest :=
  Digest.parse (hex (bigEndian 32 (sha hasher.absorbed).toNat))

end Hasher

/-! ### The keys -/

def SUB_DOMAIN : Text := "nodal.fingerprint.sub.v1".toList

def WORKSPACE_DOMAIN : Text := "nodal.fingerprint.workspace.v1".toList

def SCHEMA_DOMAIN : Text := "nodal.fingerprint.schema.v1".toList

/-- The stable name of a part inside a key. -/
def partName : FingerprintPart → Text
  | .toolchain => "toolchain".toList
  | .dependencies => "dependencies".toList
  | .schema => "schema".toList
  | .services => "services".toList
  | .recipe => "recipe".toList
  | .generated => "generated".toList
  | .secrets => "secrets".toList

/-- One named part of a fingerprint. -/
structure SubFp where
  part : FingerprintPart
  digest : Digest
  deriving DecidableEq

/-- What two inputs are ordered by: the names of the path, then the mode, then the object id, each by its
bytes. -/
def Input.sortKey (input : Input) : List (List ℕ) ×ₗ (List ℕ ×ₗ List ℕ) :=
  let numbers (text : Text) : List ℕ := (bytes text).map UInt8.toNat
  toLex (input.path.names.map numbers, toLex (numbers input.mode.text, numbers input.oid.text))

/-- A tree's entries bucketed by input class, each bucket sorted. -/
abbrev Selected := List (Class × List Input)

/-- Put an entry into the bucket of each class that covers its path. -/
def bucketed (buckets : Selected) (entry : Entry) : Selected :=
  buckets.map fun bucket ↦
    if bucket.1.isMatch entry.path then (bucket.1, bucket.2 ++ [entry.input]) else bucket

def sorted (inputs : List Input) : List Input :=
  inputs.insertionSort (·.sortKey ≤ ·.sortKey)

/-- Bucket entries by input class. -/
def select (entries : List Entry) : Selected :=
  ((entries.filter isContent).foldl bucketed (CLASSES.map (·, []))).map fun bucket ↦
    (bucket.1, sorted bucket.2)

/-- What a class's digest is taken of. -/
def subHasher (part : FingerprintPart) (inputs : List Input) : Hasher :=
  inputs.foldl (fun hasher input ↦
      ((hasher.field (bytes input.path.text)).addText input.mode.text).addText input.oid.text)
    ((Hasher.new SUB_DOMAIN).addText (partName part))

/-- Fold named sub-fingerprints into a key. -/
def fold (hasher : Hasher) (parts : List SubFp) : Hasher :=
  parts.foldl (fun hasher part ↦ (hasher.addText (partName part.part)).addText part.digest.text)
    hasher

structure Workspace where
  key : Digest
  platform : Str
  parts : List SubFp
  deriving DecidableEq

structure Schema where
  key : Digest
  parts : List SubFp
  deriving DecidableEq

structure Fingerprints where
  workspace : Workspace
  schema : Schema
  deriving DecidableEq

section Computing

variable (sha : List UInt8 → BitVec 256)

def subDigest (part : FingerprintPart) (inputs : List Input) : Except Error Digest :=
  (subHasher part inputs).finish sha

/-- The sub-fingerprints of the classes feeding a key, in table order. -/
def Selected.parts (selected : Selected) (key : Key) : Except Error (List SubFp) :=
  (selected.filter (·.1.key = key)).mapM fun bucket ↦ do
    let digest ← subDigest sha bucket.1.part bucket.2
    return ⟨bucket.1.part, digest⟩

/-- What a workspace key is taken of. -/
def workspaceHasher (platform : Str) (parts : List SubFp) : Hasher :=
  fold ((Hasher.new WORKSPACE_DOMAIN).addText platform.text) parts

/-- What a schema key is taken of. -/
def schemaHasher (parts : List SubFp) : Hasher := fold (Hasher.new SCHEMA_DOMAIN) parts

def computeWorkspace (selected : Selected) (platform : Str) : Except Error Workspace := do
  let parts ← selected.parts sha .workspace
  let key ← (workspaceHasher platform parts).finish sha
  return ⟨key, platform, parts⟩

def computeSchema (selected : Selected) : Except Error Schema := do
  let parts ← selected.parts sha .schema
  let key ← (schemaHasher parts).finish sha
  return ⟨key, parts⟩

/-- Both keys from one listing. -/
def compute (entries : List Entry) (platform : Str) : Except Error Fingerprints := do
  let selected := select entries
  let workspace ← computeWorkspace sha selected platform
  let schema ← computeSchema sha selected
  return ⟨workspace, schema⟩

end Computing

/-! ### What a hasher takes in -/

theorem fits_str (value : Str) : Fits (bytes value.text) := by
  have hlt := value.fits
  unfold Fits
  omega

theorem fits_path (path : TreePath) : Fits (bytes path.text) := by
  have hlt := path.fits
  unfold Fits TreePath.text
  omega

theorem ascii_of_isHexDigit {c : Char} (h : isHexDigit c = true) : c.toNat < 128 := by
  have hnine : '9'.toNat = 57 := rfl
  have hlast : 'f'.toNat = 102 := rfl
  unfold isHexDigit at h
  rw [decide_eq_true_eq] at h
  omega

theorem fits_digest (digest : Digest) : Fits (bytes digest.text) := by
  have hshaped := digest.shaped
  simp only [isDigest, Bool.and_eq_true, decide_eq_true_eq, List.all_eq_true] at hshaped
  have hlength := length_bytes_of_ascii fun c hc ↦ ascii_of_isHexDigit (hshaped.2 c hc)
  unfold Fits
  omega

theorem fits_partName (part : FingerprintPart) : Fits (bytes (partName part)) := by
  cases part <;> decide +kernel

theorem partName_inj {first second : FingerprintPart} :
    partName first = partName second ↔ first = second := by
  cases first <;> cases second <;> decide

/-- The fields of one input. -/
def Input.fields (input : Input) : List (List UInt8) :=
  [bytes input.path.text, bytes input.mode.text, bytes input.oid.text]

theorem input_fields_injective : Function.Injective Input.fields := by
  intro first second h
  simp only [Input.fields, List.cons.injEq, and_true, bytes_inj, TreePath.text_inj] at h
  cases first
  cases second
  simp only [Input.mk.injEq]
  exact ⟨h.1, Str.text_inj.mp h.2.1, Str.text_inj.mp h.2.2⟩

/-- The fields of one named part. -/
def SubFp.fields (part : SubFp) : List (List UInt8) :=
  [bytes (partName part.part), bytes part.digest.text]

theorem subFp_fields_injective : Function.Injective SubFp.fields := by
  intro first second h
  simp only [SubFp.fields, List.cons.injEq, and_true, bytes_inj, partName_inj] at h
  cases first
  cases second
  simp only [SubFp.mk.injEq]
  exact ⟨h.1, Digest.text_inj.mp h.2⟩

namespace Hasher

@[simp] theorem absorbed_addText (hasher : Hasher) (text : Text) :
    (hasher.addText text).absorbed = hasher.absorbed ++ frames [bytes text] := by
  simp [addText, field]

@[simp] theorem absorbed_field (hasher : Hasher) (value : List UInt8) :
    (hasher.field value).absorbed = hasher.absorbed ++ frames [value] := by
  simp [field]

@[simp] theorem absorbed_new (domain : Text) : (new domain).absorbed = frames [bytes domain] := by
  simp [new]

end Hasher

theorem absorbed_subHasher (part : FingerprintPart) (inputs : List Input) :
    (subHasher part inputs).absorbed =
      frames ([bytes SUB_DOMAIN, bytes (partName part)] ++ inputs.flatMap Input.fields) := by
  unfold subHasher
  induction inputs using List.reverseRecOn with
  | nil => simp
  | append_singleton inputs input ih =>
    rw [List.foldl_append, List.foldl_cons, List.foldl_nil, List.flatMap_append, ← List.append_assoc,
      frames_append, ← ih]
    simp [Input.fields]

theorem absorbed_fold (hasher : Hasher) (parts : List SubFp) :
    (fold hasher parts).absorbed = hasher.absorbed ++ frames (parts.flatMap SubFp.fields) := by
  unfold fold
  induction parts using List.reverseRecOn with
  | nil => simp
  | append_singleton parts part ih =>
    rw [List.foldl_append, List.foldl_cons, List.foldl_nil, List.flatMap_append, frames_append,
      ← List.append_assoc, ← ih]
    simp [SubFp.fields]

/-- What is hashed of a class tells its inputs, and their order. -/
theorem subHasher_inj {part : FingerprintPart} {first second : List Input} :
    (subHasher part first).absorbed = (subHasher part second).absorbed ↔ first = second := by
  have hfits (inputs : List Input) :
      ∀ field ∈ [bytes SUB_DOMAIN, bytes (partName part)] ++ inputs.flatMap Input.fields,
        Fits field := by
    have hdomain : Fits (bytes SUB_DOMAIN) := by decide +kernel
    intro field hfield
    rcases List.mem_append.mp hfield with hfield | hfield
    · rcases List.mem_cons.mp hfield with rfl | hfield
      · exact hdomain
      · rw [List.mem_singleton.mp hfield]
        exact fits_partName part
    · obtain ⟨input, -, hfield⟩ := List.mem_flatMap.mp hfield
      simp only [Input.fields, List.mem_cons, List.not_mem_nil, or_false] at hfield
      rcases hfield with rfl | rfl | rfl
      · exact fits_path input.path
      · exact fits_str input.mode
      · exact fits_str input.oid
  rw [absorbed_subHasher, absorbed_subHasher, frames_inj (hfits first) (hfits second),
    List.append_right_inj]
  exact flatMap_inj_of_length (by decide : 0 < 3) (fun _ ↦ rfl) input_fields_injective

theorem fits_parts (parts : List SubFp) : ∀ field ∈ parts.flatMap SubFp.fields, Fits field := by
  intro field hfield
  obtain ⟨part, -, hfield⟩ := List.mem_flatMap.mp hfield
  simp only [SubFp.fields, List.mem_cons, List.not_mem_nil, or_false] at hfield
  rcases hfield with rfl | rfl
  · exact fits_partName part.part
  · exact fits_digest part.digest

/-- What is hashed for a workspace key tells the platform and the parts. -/
theorem workspaceHasher_inj {platform other : Str} {first second : List SubFp} :
    (workspaceHasher platform first).absorbed = (workspaceHasher other second).absorbed ↔
      platform = other ∧ first = second := by
  have hdomain : Fits (bytes WORKSPACE_DOMAIN) := by decide +kernel
  have hfields (value : Str) (parts : List SubFp) : (workspaceHasher value parts).absorbed =
      frames (bytes WORKSPACE_DOMAIN :: bytes value.text :: parts.flatMap SubFp.fields) := by
    simp [workspaceHasher, absorbed_fold]
  have hfits (value : Str) (parts : List SubFp) : ∀ field ∈ bytes WORKSPACE_DOMAIN ::
      bytes value.text :: parts.flatMap SubFp.fields, Fits field :=
    List.forall_mem_cons.mpr ⟨hdomain, List.forall_mem_cons.mpr ⟨fits_str value, fits_parts parts⟩⟩
  rw [hfields, hfields, frames_inj (hfits _ _) (hfits _ _), List.cons_inj_right, List.cons.injEq,
    bytes_inj, Str.text_inj,
    flatMap_inj_of_length (by decide : 0 < 2) (fun _ ↦ rfl) subFp_fields_injective]

/-- What is hashed for a schema key tells the parts. -/
theorem schemaHasher_inj {first second : List SubFp} :
    (schemaHasher first).absorbed = (schemaHasher second).absorbed ↔ first = second := by
  have hdomain : Fits (bytes SCHEMA_DOMAIN) := by decide +kernel
  have hfields (parts : List SubFp) : (schemaHasher parts).absorbed =
      frames (bytes SCHEMA_DOMAIN :: parts.flatMap SubFp.fields) := by
    simp [schemaHasher, absorbed_fold]
  have hfits (parts : List SubFp) :
      ∀ field ∈ bytes SCHEMA_DOMAIN :: parts.flatMap SubFp.fields, Fits field :=
    List.forall_mem_cons.mpr ⟨hdomain, fits_parts parts⟩
  rw [hfields, hfields, frames_inj (hfits _) (hfits _), List.cons_inj_right,
    flatMap_inj_of_length (by decide : 0 < 2) (fun _ ↦ rfl) subFp_fields_injective]

/-! ### Sorting and bucketing -/

theorem sortKey_injective : Function.Injective Input.sortKey := by
  intro first second h
  have hnumbers {a b : Text} (hab : (bytes a).map UInt8.toNat = (bytes b).map UInt8.toNat) : a = b :=
    bytes_inj.mp ((List.map_inj_right fun _ _ ↦ UInt8.toNat_inj.mp).mp hab)
  simp only [Input.sortKey, toLex_inj, Prod.mk.injEq] at h
  obtain ⟨hpath, hmode, hoid⟩ := h
  cases first
  cases second
  simp only [Input.mk.injEq]
  refine ⟨TreePath.names_inj.mp ((List.map_inj_right fun _ _ ↦ hnumbers).mp hpath), ?_, ?_⟩
  · exact Str.text_inj.mp (hnumbers hmode)
  · exact Str.text_inj.mp (hnumbers hoid)

/-- Sorted, two lists of inputs are one where each input is in both as many times. -/
theorem sorted_inj {first second : List Input} : sorted first = sorted second ↔ first.Perm second := by
  have htrans : IsTrans Input (·.sortKey ≤ ·.sortKey) := ⟨fun _ _ _ hab hbc ↦ hab.trans hbc⟩
  have htotal : @Std.Total Input (·.sortKey ≤ ·.sortKey) :=
    ⟨fun a b ↦ le_total a.sortKey b.sortKey⟩
  have hperm (inputs : List Input) : (sorted inputs).Perm inputs := List.perm_insertionSort _ inputs
  have hpairwise (inputs : List Input) : (sorted inputs).Pairwise (·.sortKey ≤ ·.sortKey) :=
    List.pairwise_insertionSort _ inputs
  constructor
  · intro h
    exact (hperm first).symm.trans (h ▸ hperm second)
  · intro h
    have hsorted := (hperm first).trans (h.trans (hperm second).symm)
    refine hsorted.eq_of_pairwise (fun a b _ _ hab hba ↦ ?_) (hpairwise first) (hpairwise second)
    exact sortKey_injective (le_antisymm hab hba)

theorem foldl_bucketed (entries : List Entry) (buckets : Selected) :
    entries.foldl bucketed buckets = buckets.map fun bucket ↦
      (bucket.1, bucket.2 ++ (entries.filter (bucket.1.isMatch ·.path)).map Entry.input) := by
  induction entries generalizing buckets with
  | nil => simp
  | cons entry entries ih =>
    rw [List.foldl_cons, ih, bucketed, List.map_map]
    refine List.map_congr_left fun bucket _ ↦ ?_
    by_cases h : bucket.1.isMatch entry.path = true
    · simp [h]
    · simp [h]

/-- Each class has what it selects, sorted. -/
theorem select_eq (entries : List Entry) :
    select entries = CLASSES.map fun row ↦ (row, sorted (row.selected entries)) := by
  rw [select, foldl_bucketed, List.map_map, List.map_map]
  rfl

/-! ### The keys -/

section Computing

variable {sha : List UInt8 → BitVec 256} {entries others : List Entry} {platform other : Str}

theorem isDigest_hex (number : BitVec 256) : isDigest (hex (bigEndian 32 number.toNat)) = true := by
  have hlength : (hex (bigEndian 32 number.toNat)).length = 64 := by
    rw [length_hex, length_bigEndian]
  have hne : hex (bigEndian 32 number.toNat) ≠ [] := by
    intro hnil
    rw [hnil] at hlength
    exact absurd hlength (by decide)
  simp only [isDigest, Bool.and_eq_true, decide_eq_true_eq, List.all_eq_true, hlength]
  exact ⟨⟨hne, by decide⟩, fun c hc ↦ isHexDigit_of_mem_hex hc⟩

/-- The digest a hasher finishes with. -/
def Hasher.digest (sha : List UInt8 → BitVec 256) (hasher : Hasher) : Digest :=
  ⟨hex (bigEndian 32 (sha hasher.absorbed).toNat), isDigest_hex (sha hasher.absorbed)⟩

/-- Hex is always a digest. -/
theorem finish_eq (hasher : Hasher) : hasher.finish sha = .ok (hasher.digest sha) := by
  rw [Hasher.finish, Digest.parse, dif_pos (isDigest_hex (sha hasher.absorbed)), Hasher.digest]

theorem digest_inj {first second : Hasher} : first.digest sha = second.digest sha ↔
    sha first.absorbed = sha second.absorbed := by
  have hpow : 256 ^ 32 = 2 ^ 256 := (Nat.pow_mul 2 8 32).symm
  have hlt (number : BitVec 256) : number.toNat < 256 ^ 32 := hpow ▸ number.isLt
  rw [Hasher.digest, Hasher.digest, Digest.mk.injEq, hex_inj, bigEndian_inj (hlt _) (hlt _),
    BitVec.toNat_inj]

/-- What a class's digest is taken of in a listing. -/
def Class.hasher (row : Class) (entries : List Entry) : Hasher :=
  subHasher row.part (sorted (row.selected entries))

/-- The sub-fingerprints of the classes feeding a key. -/
def partsOf (sha : List UInt8 → BitVec 256) (entries : List Entry) (key : Key) : List SubFp :=
  (CLASSES.filter (·.key = key)).map fun row ↦ ⟨row.part, (row.hasher entries).digest sha⟩

theorem parts_select (key : Key) :
    (select entries).parts sha key = .ok (partsOf sha entries key) := by
  have hfilter : (select entries).filter (·.1.key = key) =
      (CLASSES.filter (·.key = key)).map fun row ↦ (row, sorted (row.selected entries)) := by
    rw [select_eq, List.filter_map]
    rfl
  have hdigest (bucket : Class × List Input) : (do
      let digest ← subDigest sha bucket.1.part bucket.2
      return (⟨bucket.1.part, digest⟩ : SubFp) : Except Error SubFp) =
        pure ⟨bucket.1.part, (subHasher bucket.1.part bucket.2).digest sha⟩ := by
    rw [subDigest, finish_eq]
    rfl
  rw [Selected.parts, hfilter]
  simp only [hdigest]
  rw [List.mapM_pure, List.map_map]
  rfl

/-- Both keys, and the parts they are composed of. -/
theorem compute_eq : compute sha entries platform = .ok
    ⟨⟨(workspaceHasher platform (partsOf sha entries .workspace)).digest sha, platform,
        partsOf sha entries .workspace⟩,
      ⟨(schemaHasher (partsOf sha entries .schema)).digest sha, partsOf sha entries .schema⟩⟩ := by
  simp only [compute, computeWorkspace, computeSchema, parts_select, finish_eq]
  rfl

/-- The byte strings hashed for one listing. -/
def hashed (sha : List UInt8 → BitVec 256) (entries : List Entry) (platform : Str) :
    List (List UInt8) :=
  CLASSES.map (·.hasher entries |>.absorbed) ++
    [(workspaceHasher platform (partsOf sha entries .workspace)).absorbed,
      (schemaHasher (partsOf sha entries .schema)).absorbed]

/-- SHA-256 tells apart what was hashed for two listings. -/
def TellsApart (sha : List UInt8 → BitVec 256) (entries others : List Entry)
    (platform other : Str) : Prop :=
  Set.InjOn sha {input | input ∈ hashed sha entries platform ++ hashed sha others other}

/-- The parts of two listings are equal where each class selects the same inputs of both. -/
theorem partsOf_inj (hsha : TellsApart sha entries others platform other) {key : Key} :
    partsOf sha entries key = partsOf sha others key ↔
      ∀ row ∈ CLASSES, row.key = key → (row.selected entries).Perm (row.selected others) := by
  rw [partsOf, partsOf, List.map_inj_left]
  simp only [List.mem_filter, decide_eq_true_eq, and_imp, SubFp.mk.injEq, true_and]
  refine forall₃_congr fun row hrow _ ↦ ?_
  have hhere : (row.hasher entries).absorbed ∈ hashed sha entries platform :=
    List.mem_append_left _ (List.mem_map_of_mem hrow)
  have hthere : (row.hasher others).absorbed ∈ hashed sha others other :=
    List.mem_append_left _ (List.mem_map_of_mem hrow)
  rw [digest_inj, hsha.eq_iff (List.mem_append_left _ hhere) (List.mem_append_right _ hthere),
    Class.hasher, Class.hasher, subHasher_inj, sorted_inj]

/-- What each class selects is all that the keys are of. -/
theorem compute_congr (h : (entries.filter isContent).Perm (others.filter isContent)) :
    compute sha entries platform = compute sha others platform := by
  have hselected (row : Class) : sorted (row.selected entries) = sorted (row.selected others) :=
    sorted_inj.mpr ((h.filter _).map _)
  have hparts (key : Key) : partsOf sha entries key = partsOf sha others key :=
    List.map_congr_left fun row _ ↦ by rw [Class.hasher, Class.hasher, hselected]
  rw [compute_eq, compute_eq, hparts, hparts]

/-- The workspace keys of two listings are equal exactly where the platforms are and every workspace
class selects the same inputs of both, as often each; the schema keys exactly where every schema class
does; and neither key depends on the order of a listing or on what is not content.

Assumes: SHA-256 tells apart the byte strings hashed for the two listings. -/
theorem keys_separate (hsha : TellsApart sha entries others platform other) :
    ∃ here there, compute sha entries platform = .ok here ∧ compute sha others other = .ok there ∧
      (here.workspace.key = there.workspace.key ↔ platform = other ∧
        ∀ row ∈ CLASSES, row.key = .workspace →
          (row.selected entries).Perm (row.selected others)) ∧
      (here.schema.key = there.schema.key ↔ ∀ row ∈ CLASSES, row.key = .schema →
        (row.selected entries).Perm (row.selected others)) ∧
      ∀ relisted : List Entry, (relisted.filter isContent).Perm (entries.filter isContent) →
        compute sha relisted platform = .ok here := by
  refine ⟨_, _, compute_eq, compute_eq, ?_, ?_, ?_⟩
  · rw [digest_inj, hsha.eq_iff (by simp [hashed]) (by simp [hashed]), workspaceHasher_inj,
      partsOf_inj hsha]
  · rw [digest_inj, hsha.eq_iff (by simp [hashed]) (by simp [hashed]), schemaHasher_inj,
      partsOf_inj hsha]
  · intro relisted h
    rw [compute_congr h, compute_eq]

end Computing

/-! ### A migration -/

/-- The files of a migration at work, by their names and object ids. -/
private theorem fits_example {text : Text} (h : (bytes text).length ≤ 40) :
    (bytes text).length < 2 ^ 63 := by
  omega

/-- A listing that names a directory and nothing in it. -/
def emptied : List Entry := [{
  mode := ⟨"040000".toList, fits_example (by decide)⟩
  kind := .tree
  oid := ⟨List.replicate 40 '1', fits_example (by decide)⟩
  path := ⟨["migrations".toList], by decide, by decide, fits_example (by decide)⟩ }]

/-- A listing with a migration. -/
def migrated : List Entry := [{
  mode := ⟨"100644".toList, fits_example (by decide)⟩
  kind := .blob
  oid := ⟨List.replicate 40 '2', fits_example (by decide)⟩
  path := ⟨["migrations".toList, "1.sql".toList], by decide, by decide, fits_example (by decide)⟩ }]

def linux : Str := ⟨"x86_64-unknown-linux-gnu".toList, fits_example (by decide)⟩

theorem tellsApart_migrated : TellsApart Sha256.sha256 emptied migrated linux linux := by
  have hall : ∀ a ∈ hashed Sha256.sha256 emptied linux ++ hashed Sha256.sha256 migrated linux,
      ∀ b ∈ hashed Sha256.sha256 emptied linux ++ hashed Sha256.sha256 migrated linux,
        Sha256.sha256 a = Sha256.sha256 b → a = b := by
    decide +kernel
  exact hall

/-- A migration moves the schema key and not the workspace key. -/
theorem migration_moves_schema : ∃ here there,
    compute Sha256.sha256 emptied linux = .ok here ∧
      compute Sha256.sha256 migrated linux = .ok there ∧
      here.workspace.key = there.workspace.key ∧ here.schema.key ≠ there.schema.key := by
  obtain ⟨here, there, hhere, hthere, hworkspace, hschema, -⟩ := keys_separate tellsApart_migrated
  refine ⟨here, there, hhere, hthere, hworkspace.mpr ⟨rfl, ?_⟩, fun h ↦ ?_⟩
  · decide
  · have hmoved : ¬∀ row ∈ CLASSES, row.key = .schema →
        (row.selected emptied).Perm (row.selected migrated) := by
      decide
    exact hmoved (hschema.mp h)

end Nodal.Fingerprint
