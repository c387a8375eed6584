import Mathlib
import Nodal.Git.Remote

/-!
# The name two clones of one remote share

`doctor/origin.rs`: the URL of `origin`, reduced to a name. The witness compares these names, and the
machine's report groups clones by them; a project's own identity is `git/remote.rs`'s.

The two agree, and the name tells two repositories apart, on every text that names a server or a
directory in a form both read alike (`reduced`). They part on a path after `host:` that begins at the
root, and one name is two hosts' where a path has an `@` (`reducers_part`).
-/

set_option autoImplicit false

namespace Nodal.Doctor.Origin

open Foundation Git.Remote
open Foundation.Text (splitOnce splitOnceAt)

/-! ### The name -/

/-- Lower case, of the letters of ASCII. -/
def asciiLower (text : Text) : Text := text.map Char.toLower

/-- Trailing slashes and a trailing `.git` taken off. -/
def stripGit (value : Text) : Text :=
  match stripSuffix DOT_GIT (trimSlashes value) with
  | some stripped => trimSlashes stripped
  | none => trimSlashes value

/-- The rest of a URL after `scheme://`, when it has one. -/
def schemeRest (url : Text) : Option Text :=
  match splitOnceAt AFTER_SCHEME url with
  | none => none
  | some (scheme, rest) =>
    if scheme = [] ∨ rest = [] then none
    else if scheme.all Char.isAlpha then some rest
    else none

/-- `user@host:path` as `host/path`. -/
def scp (url : Text) : Option Text :=
  match splitOnce ':' (afterAt url) with
  | none => none
  | some (host, path) =>
    if host = [] ∨ '/' ∈ host ∨ path = [] then none
    else some (asciiLower host ++ '/' :: stripGit path)

/-- The host and the port of an authority. -/
def splitPort (hostport : Text) : Text × Option Text :=
  match rsplitOnce ':' hostport with
  | some (host, port) => if port.all Char.isDigit then (host, some port) else (hostport, none)
  | none => (hostport, none)

/-- The ports a scheme goes to by itself. -/
def DEFAULT_PORTS : List Text := ["22".toList, "80".toList, "443".toList]

/-- The host of `host` or `host:port`, with default ports dropped. -/
def hostOf (hostport : Text) : Text :=
  match splitPort hostport with
  | (host, none) => asciiLower host
  | (host, some port) =>
    if port ∈ DEFAULT_PORTS then asciiLower host else asciiLower host ++ ':' :: port

/-- `host[:port]/path` with userinfo stripped, as `host/path`. -/
def hostPath (rest : Text) : Text :=
  let (hostport, path) := splitAuthority (afterAt rest)
  let host := hostOf hostport
  let path := stripGit path
  if path = [] then host else host ++ '/' :: path

def FILE : Text := "file://".toList

/-- The grouping name for an `origin` URL. -/
def normalize (url : Text) : Text :=
  let trimmed := Text.trim url
  if FILE <+: trimmed then stripGit (trimmed.drop FILE.length)
  else match schemeRest trimmed with
    | some rest => hostPath rest
    | none =>
      match scp trimmed with
      | some name => name
      | none => stripGit trimmed

/-! ### Slashes and the trailing `.git` -/

/-- A path that begins with no slash is tidied at its end only. -/
theorem tidy_eq_stripGit {path : Text} (h : path.head? ≠ some '/') : tidy path = stripGit path := by
  have hbegin : path.dropWhile (· = '/') = path := by
    cases path with
    | nil => rfl
    | cons c path => simpa using h
  rw [tidy, stripGit, hbegin]
  cases stripSuffix DOT_GIT (trimSlashes path) with
  | some stripped => rfl
  | none => exact List.rdropWhile_idempotent _ _

theorem tidy_cons {path : Text} (h : path.head? ≠ some '/') : tidy ('/' :: path) = stripGit path := by
  rw [← tidy_eq_stripGit h]
  rfl

theorem trimSlashes_cons (path : Text) :
    trimSlashes ('/' :: path) = if trimSlashes path = [] then [] else '/' :: trimSlashes path := by
  induction path using List.reverseRecOn with
  | nil => rfl
  | append_singleton path c ih =>
    rw [trimSlashes, trimSlashes, ← List.cons_append]
    by_cases hslash : c = '/'
    · rw [List.rdropWhile_concat_pos _ _ _ (by simpa using hslash),
        List.rdropWhile_concat_pos _ _ _ (by simpa using hslash)]
      exact ih
    · rw [List.rdropWhile_concat_neg _ _ _ (by simpa using hslash),
        List.rdropWhile_concat_neg _ _ _ (by simpa using hslash), if_neg (by simp)]
      rfl

theorem stripSuffix_cons {ending text : Text} (h : ending ≠ '/' :: text) :
    stripSuffix ending ('/' :: text) = (stripSuffix ending text).map ('/' :: ·) := by
  have hsame : ending <:+ '/' :: text ↔ ending <:+ text := by
    rw [List.suffix_cons_iff]
    exact or_iff_right h
  unfold stripSuffix
  by_cases hends : ending <:+ text
  · rw [if_pos (hsame.mpr hends), if_pos hends, Option.map_some]
    have hle := hends.length_le
    rw [List.length_cons, Nat.sub_add_comm hle, List.take_succ_cons]
  · rw [if_neg (mt hsame.mp hends), if_neg hends, Option.map_none]

/-- The path of a directory, with its root. -/
theorem stripGit_cons (path : Text) :
    stripGit ('/' :: path) = if stripGit path = [] then [] else '/' :: stripGit path := by
  have hroot (text : Text) : DOT_GIT ≠ '/' :: text := by simp [DOT_GIT]
  unfold stripGit
  rw [trimSlashes_cons]
  by_cases hempty : trimSlashes path = []
  · rw [if_pos hempty, hempty]
    rfl
  · rw [if_neg hempty, stripSuffix_cons (hroot _)]
    cases stripSuffix DOT_GIT (trimSlashes path) with
    | some stripped => exact trimSlashes_cons stripped
    | none =>
      dsimp only [Option.map_none]
      rw [if_neg hempty]

/-! ### Hosts and ports in lower case -/

theorem not_isUpper_of_isDigit {c : Char} (h : c.isDigit = true) : ¬ c.isUpper = true := by
  rw [Text.isUpper_iff]
  rw [Text.isDigit_iff] at h
  omega

theorem isDigit_toLower (c : Char) : c.toLower.isDigit = c.isDigit := by
  by_cases hc : c.isUpper = true
  · have hlower : c.toLower.isLower = true := by
      rw [Char.isLower_toLower_eq_isAlpha]
      exact Bool.or_eq_true_iff.mpr (.inl hc)
    have hdigit : c.isDigit = false := by
      by_contra h
      exact not_isUpper_of_isDigit (by simpa using h) hc
    rw [hdigit]
    by_contra h
    have hboth : c.toLower.isDigit = true := by simpa using h
    rw [Text.isDigit_iff] at hboth
    rw [Text.isLower_iff] at hlower
    omega
  · rw [Char.toLower_eq_of_not_isUpper hc]

theorem asciiLower_digits {port : Text} (h : port.all Char.isDigit = true) : asciiLower port = port := by
  rw [asciiLower]
  refine (List.map_congr_left fun c hc ↦ ?_).trans (List.map_id port)
  exact Char.toLower_eq_of_not_isUpper (not_isUpper_of_isDigit (List.all_eq_true.mp h c hc))

theorem asciiLower_idempotent (text : Text) : asciiLower (asciiLower text) = asciiLower text := by
  simp [asciiLower, Function.comp_def]

theorem mem_asciiLower {c : Char} (hc : c.isAlpha = false) {text : Text} :
    c ∈ asciiLower text ↔ c ∈ text := by
  rw [asciiLower, List.mem_map]
  constructor
  · rintro ⟨d, hd, hsame⟩
    exact (Text.toLower_eq_iff hc).mp hsame ▸ hd
  · exact fun h ↦ ⟨c, h, (Text.toLower_eq_iff hc).mpr rfl⟩

theorem splitOnce_asciiLower {c : Char} (hc : c.isAlpha = false) (text : Text) :
    splitOnce c (asciiLower text) =
      (splitOnce c text).map fun found ↦ (asciiLower found.1, asciiLower found.2) := by
  induction text with
  | nil => rfl
  | cons d text ih =>
    show splitOnce c (d.toLower :: asciiLower text) = _
    rw [splitOnce, splitOnce, ih]
    by_cases hsame : d = c
    · rw [if_pos hsame, if_pos ((Text.toLower_eq_iff hc).mpr hsame)]
      rfl
    · rw [if_neg hsame, if_neg (mt (Text.toLower_eq_iff hc).mp hsame), Option.map_map, Option.map_map]
      rfl

theorem splitPort_asciiLower (hostport : Text) : splitPort (asciiLower hostport) =
    (asciiLower (splitPort hostport).1, (splitPort hostport).2) := by
  have hreverse : (asciiLower hostport).reverse = asciiLower hostport.reverse := by
    simp [asciiLower]
  have hsplit : rsplitOnce ':' (asciiLower hostport) =
      (rsplitOnce ':' hostport).map fun found ↦ (asciiLower found.1, asciiLower found.2) := by
    rw [rsplitOnce, rsplitOnce, hreverse, splitOnce_asciiLower (by decide), Option.map_map,
      Option.map_map]
    congr 1
    funext found
    simp [asciiLower]
  unfold splitPort
  rw [hsplit]
  cases rsplitOnce ':' hostport with
  | none => rfl
  | some found =>
    have hdigits : (asciiLower found.2).all Char.isDigit = found.2.all Char.isDigit := by
      simp [asciiLower, List.all_map, Function.comp_def, isDigit_toLower]
    dsimp only [Option.map_some]
    rw [hdigits]
    by_cases hport : found.2.all Char.isDigit = true
    · rw [if_pos hport, if_pos hport, asciiLower_digits hport]
    · rw [if_neg hport, if_neg hport]

/-- The name of a host does not depend on its letters' case. -/
theorem hostOf_asciiLower (hostport : Text) : hostOf (asciiLower hostport) = hostOf hostport := by
  unfold hostOf
  rw [splitPort_asciiLower]
  cases splitPort hostport with
  | mk host port =>
    cases port with
    | none => exact asciiLower_idempotent host
    | some port => simp only [asciiLower_idempotent]

theorem splitPort_append {host port : Text} (hport : port.all Char.isDigit = true) :
    splitPort (host ++ ':' :: port) = (host, some port) := by
  have hcolon : ':' ∉ port := fun hmem ↦ absurd (List.all_eq_true.mp hport _ hmem) (by decide)
  rw [splitPort, rsplitOnce_append hcolon]
  exact if_pos hport

/-- What a split leaves: a host with the digits of a port, or the whole. -/
theorem splitPort_cases (hostport : Text) : splitPort hostport = (hostport, none) ∨
    ∃ port, port.all Char.isDigit = true ∧ (splitPort hostport).2 = some port := by
  unfold splitPort
  cases rsplitOnce ':' hostport with
  | none => exact .inl rfl
  | some found =>
    by_cases hport : found.2.all Char.isDigit = true
    · exact .inr ⟨found.2, hport, by simp [hport]⟩
    · exact .inl (by simp [hport])

/-- The host is read back from its name.
Assumes: the host has no port of its own. -/
theorem splitPort_hostOf {hostport : Text}
    (h : (splitPort (splitPort hostport).1).2 = none) :
    (splitPort (hostOf hostport)).1 = asciiLower (splitPort hostport).1 := by
  have halone : (splitPort (asciiLower (splitPort hostport).1)).1 =
      asciiLower (splitPort hostport).1 := by
    rw [splitPort_asciiLower]
    rcases splitPort_cases (splitPort hostport).1 with hwhole | ⟨port, -, hport⟩
    · rw [hwhole]
    · rw [h] at hport
      cases hport
  unfold hostOf
  rcases splitPort_cases hostport with hwhole | ⟨port, hdigits, hport⟩
  · rw [hwhole] at halone ⊢
    exact halone
  · cases hsplit : splitPort hostport with
    | mk host found =>
      rw [hsplit] at hport halone
      dsimp only at hport halone
      rw [hport]
      dsimp only
      split
      · exact halone
      · rw [splitPort_append hdigits]

/-! ### What a remote names -/

/-- What a remote is for a person: a path on a host, or a directory of this machine. -/
inductive Remote where
  | server (host path : Text)
  | directory (path : Text)
  deriving DecidableEq, Repr

/-- A host both reducers read alike: it is there, no mark of another part is in it, its letters fold
the same way in both, and it has no port of its own. -/
structure Site (lower : Text → Text) (hostport : Text) : Prop where
  named : (splitPort hostport).1 ≠ []
  plain : '/' ∉ hostport
  alone : '@' ∉ hostport
  folded : lower hostport = asciiLower hostport
  single : (splitPort (splitPort hostport).1).2 = none

/-- What a text names, in the four forms a remote is written in. -/
inductive Names (lower : Text → Text) (url : Text) : Remote → Prop
  | scheme (name : Text) (user : Option Text) (hostport : Text) (path : Option Text)
      (written : Text.trim url = name ++ AFTER_SCHEME ++ (account user ++ hostport ++ tail path))
      (letters : name ≠ [] ∧ name.all Char.isAlpha = true) (network : name ≠ "file".toList)
      (plain : '/' ∉ account user) (site : Site lower hostport)
      (clean : '@' ∉ path.getD []) (single : (path.getD []).head? ≠ some '/') :
      Names lower url
        (.server (asciiLower (splitPort hostport).1) (stripGit (path.getD [])))
  | scp (user : Option Text) (host path : Text)
      (written : Text.trim url = account user ++ host ++ ':' :: path)
      (bare : splitOnceAt AFTER_SCHEME (Text.trim url) = none)
      (plain : '/' ∉ account user ∧ ':' ∉ account user) (site : Site lower host)
      (colon : ':' ∉ host) (clean : '@' ∉ path) (single : path.head? ≠ some '/')
      (held : stripGit path ≠ []) :
      Names lower url (.server (asciiLower host) (stripGit path))
  | directory (path : Text) (written : Text.trim url = '/' :: path)
      (bare : splitOnceAt AFTER_SCHEME (Text.trim url) = none)
      (path_only : scp (Text.trim url) = none) (single : path.head? ≠ some '/') :
      Names lower url (.directory (stripGit path))
  | file (path : Text) (written : Text.trim url = FILE ++ '/' :: path)
      (single : path.head? ≠ some '/') :
      Names lower url (.directory (stripGit path))

/-! ### The two readings of one text -/

/-- A path under a host, when it is not empty. -/
def below (path : Text) : Text := tail (if path = [] then none else some path)

/-- What a host, which a directory has none of, and a path name. -/
def remoteOf (host path : Text) : Remote :=
  if host = [] then .directory path else .server host path

/-- What both reducers make of a text: one host, as each writes it, and one path. -/
structure Reads (lower : Text → Text) (url hostport path : Text) (remote : Remote) : Prop where
  plain : '/' ∉ hostport
  single : (splitPort (splitPort hostport).1).2 = none
  identity : (identity lower url).getD [] = asciiLower hostport ++ below path
  name : normalize url = hostOf hostport ++ below path
  remote : remote = remoteOf (asciiLower (splitPort hostport).1) path

theorem identity_of_split {lower : Text → Text} {url host path : Text} (hsome : Text.trim url ≠ [])
    (h : Git.Remote.split lower (Text.trim url) = (host, path)) :
    (identity lower url).getD [] = host ++ below (tidy path) := by
  unfold identity
  rw [if_neg hsome, h]
  by_cases hhost : host = []
  · by_cases hpath : tidy path = []
    · simp [hhost, hpath, below, tail]
    · simp [hhost, hpath, below, tail]
  · by_cases hpath : tidy path = []
    · simp [hhost, hpath, below, tail]
    · simp [hhost, hpath, below, tail]

/-- What `hostPath` writes under a host. -/
theorem hostOf_below (host path : Text) :
    (if path = [] then host else host ++ '/' :: path) = host ++ below path := by
  by_cases hpath : path = []
  · simp [hpath, below, tail]
  · simp [hpath, below, tail]

theorem asciiLower_eq_nil {text : Text} : asciiLower text = [] ↔ text = [] := List.map_eq_nil_iff

/-- A scheme of letters is read to its end. -/
theorem letters_plain {name : Text} (h : name.all Char.isAlpha = true) : ':' ∉ name :=
  fun hmem ↦ absurd (List.all_eq_true.mp h _ hmem) (by decide)

/-- Only the scheme `file` is read as a directory's. -/
theorem not_file {name rest : Text} (hletters : name.all Char.isAlpha = true)
    (hname : name ≠ "file".toList) : ¬ FILE <+: name ++ AFTER_SCHEME ++ rest := by
  rintro ⟨after, hafter⟩
  have hsplit := congrArg (splitOnceAt AFTER_SCHEME) hafter
  have hfile : FILE ++ after = "file".toList ++ AFTER_SCHEME ++ after := rfl
  rw [hfile, splitOnceAt_scheme (by decide), splitOnceAt_scheme (letters_plain hletters)] at hsplit
  exact hname (Prod.mk.inj (Option.some.inj hsplit)).1.symm

theorem reads_scheme {lower : Text → Text} {url name hostport : Text} {user path : Option Text}
    (hwritten : Text.trim url = name ++ AFTER_SCHEME ++ (account user ++ hostport ++ tail path))
    (hletters : name ≠ [] ∧ name.all Char.isAlpha = true) (hname : name ≠ "file".toList)
    (hplain : '/' ∉ account user) (hsite : Site lower hostport) (hclean : '@' ∉ path.getD [])
    (hsingle : (path.getD []).head? ≠ some '/') :
    Reads lower url hostport (stripGit (path.getD []))
      (.server (asciiLower (splitPort hostport).1) (stripGit (path.getD []))) := by
  have hauthority : splitAuthority (account user ++ hostport ++ tail path) =
      (account user ++ hostport, path.getD []) :=
    splitAuthority_tail (by simpa using ⟨hplain, hsite.plain⟩) path
  have hafter : afterAt (account user ++ hostport ++ tail path) = hostport ++ tail path := by
    have hnone : '@' ∉ hostport ++ tail path := by
      cases path with
      | none => simpa [tail] using hsite.alone
      | some path => simpa [tail] using ⟨hsite.alone, hclean⟩
    rw [List.append_assoc]
    exact afterAt_account hnone user
  have hcolon : ':' ∉ name := letters_plain hletters.2
  have hsome : Text.trim url ≠ [] := by
    rw [hwritten]
    simp [AFTER_SCHEME]
  have hrest : account user ++ hostport ++ tail path ≠ [] := by
    have hhost : hostport ≠ [] := by
      rintro rfl
      exact hsite.named rfl
    simp [hhost]
  refine ⟨hsite.plain, hsite.single, ?_, ?_, ?_⟩
  · have hsplit : Git.Remote.split lower (Text.trim url) = (asciiLower hostport, path.getD []) := by
      rw [Git.Remote.split, hwritten, splitOnceAt_scheme hcolon]
      dsimp only
      rw [hauthority]
      dsimp only
      rw [Git.Remote.hostOf, afterAt_account hsite.alone, hsite.folded]
    rw [identity_of_split hsome hsplit, tidy_eq_stripGit hsingle]
  · have hscheme : schemeRest (Text.trim url) = some (account user ++ hostport ++ tail path) := by
      rw [schemeRest, hwritten, splitOnceAt_scheme hcolon]
      dsimp only
      rw [if_neg (by simp only [hletters.1, hrest, or_self, not_false_iff]), if_pos hletters.2]
    have hfile : ¬ FILE <+: Text.trim url := by
      rw [hwritten]
      exact not_file hletters.2 hname
    unfold normalize
    dsimp only
    rw [if_neg hfile, hscheme]
    dsimp only
    rw [hostPath, hafter, splitAuthority_tail hsite.plain]
    exact hostOf_below _ _
  · rw [remoteOf, if_neg (mt asciiLower_eq_nil.mp hsite.named)]

/-- A text without the marks of a scheme has no scheme. -/
theorem schemeRest_bare {text : Text} (h : splitOnceAt AFTER_SCHEME text = none) :
    schemeRest text = none := by
  rw [schemeRest, h]

theorem not_file_bare {text : Text} (h : splitOnceAt AFTER_SCHEME text = none) : ¬ FILE <+: text := by
  rintro ⟨after, rfl⟩
  have hfile : FILE ++ after = "file".toList ++ AFTER_SCHEME ++ after := rfl
  rw [hfile, splitOnceAt_scheme (by decide)] at h
  cases h

theorem reads_scp {lower : Text → Text} {url host path : Text} {user : Option Text}
    (hwritten : Text.trim url = account user ++ host ++ ':' :: path)
    (hbare : splitOnceAt AFTER_SCHEME (Text.trim url) = none)
    (hplain : '/' ∉ account user ∧ ':' ∉ account user) (hsite : Site lower host) (hcolon : ':' ∉ host)
    (hclean : '@' ∉ path) (hsingle : path.head? ≠ some '/') (hheld : stripGit path ≠ []) :
    Reads lower url host (stripGit path) (.server (asciiLower host) (stripGit path)) := by
  have hhost : host ≠ [] := by
    rintro rfl
    exact hsite.named rfl
  have hwhole : splitPort host = (host, none) := by
    rw [splitPort, rsplitOnce_eq_none hcolon]
  have hname : hostOf host = asciiLower host := by
    rw [hostOf, hwhole]
  have hpath : path ≠ [] := by
    rintro rfl
    exact hheld rfl
  refine ⟨hsite.plain, hsite.single, ?_, ?_, ?_⟩
  · have hsplit : Git.Remote.split lower (Text.trim url) = (asciiLower host, path) := by
      have hfirst : splitOnce ':' (account user ++ host ++ ':' :: path) =
          some (account user ++ host, path) := Text.splitOnce_append (by simpa using ⟨hplain.2, hcolon⟩)
      have hslash : '/' ∉ account user ++ host := by simpa using ⟨hplain.1, hsite.plain⟩
      rw [Git.Remote.split, hbare]
      dsimp only
      rw [hwritten, scpLike, hfirst]
      dsimp only
      rw [if_neg hslash]
      dsimp only
      rw [Git.Remote.hostOf, afterAt_account hsite.alone, hsite.folded]
    rw [identity_of_split (by simp [hwritten]) hsplit, tidy_eq_stripGit hsingle]
  · have hscp : scp (Text.trim url) = some (asciiLower host ++ '/' :: stripGit path) := by
      have hafter : afterAt (account user ++ host ++ ':' :: path) = host ++ ':' :: path := by
        rw [List.append_assoc]
        exact afterAt_account (by simpa using ⟨hsite.alone, hclean⟩) user
      rw [scp, hwritten, hafter, Text.splitOnce_append hcolon]
      dsimp only
      rw [if_neg (by simp only [hhost, hsite.plain, hpath, or_self, not_false_iff])]
    unfold normalize
    dsimp only
    rw [if_neg (not_file_bare hbare), schemeRest_bare hbare, hscp, hname, ← hostOf_below,
      if_neg hheld]
  · rw [hwhole, remoteOf, if_neg (mt asciiLower_eq_nil.mp hhost)]

/-- A directory's path, after its root. -/
theorem stripGit_root (path : Text) : stripGit ('/' :: path) = below (stripGit path) := by
  rw [stripGit_cons]
  by_cases hempty : stripGit path = []
  · simp [hempty, below, tail]
  · simp [hempty, below, tail]

theorem reads_directory {lower : Text → Text} (hlower : lower [] = []) {url path : Text}
    (hsplit : Git.Remote.split lower (Text.trim url) = (lower [], path) ∨
      Git.Remote.split lower (Text.trim url) = ([], '/' :: path))
    (hsome : Text.trim url ≠ []) (hname : normalize url = stripGit ('/' :: path))
    (hsingle : path.head? ≠ some '/') :
    Reads lower url [] (stripGit path) (.directory (stripGit path)) := by
  refine ⟨List.not_mem_nil, rfl, ?_, ?_, rfl⟩
  · rcases hsplit with hsplit | hsplit
    · rw [identity_of_split hsome hsplit, tidy_eq_stripGit hsingle, hlower]
      rfl
    · rw [identity_of_split hsome hsplit, tidy_cons hsingle]
      rfl
  · rw [hname, stripGit_root]
    rfl

/-- Both reducers make one host and one path of a text that names a remote.
Assumes: no letters fold to none. -/
theorem Names.reads {lower : Text → Text} (hlower : lower [] = []) {url : Text} {remote : Remote}
    (h : Names lower url remote) : ∃ hostport path, Reads lower url hostport path remote := by
  cases h with
  | scheme name user hostport path written letters network plain site clean single =>
    exact ⟨_, _, reads_scheme written letters network plain site clean single⟩
  | scp user host path written bare plain site colon clean single held =>
    exact ⟨_, _, reads_scp written bare plain site colon clean single held⟩
  | directory path written bare path_only single =>
    have hsplit : Git.Remote.split lower (Text.trim url) = ([], '/' :: path) := by
      have hscp : scpLike (Text.trim url) = none := by
        rw [written, scpLike, splitOnce, if_neg (by decide)]
        cases splitOnce ':' path with
        | none => rfl
        | some found => exact if_pos List.mem_cons_self
      rw [Git.Remote.split, bare]
      dsimp only
      rw [hscp, written]
    have hname : normalize url = stripGit ('/' :: path) := by
      unfold normalize
      dsimp only
      rw [if_neg (not_file_bare bare), schemeRest_bare bare, path_only, written]
    exact ⟨_, _, reads_directory hlower (.inr hsplit) (by simp [written]) hname single⟩
  | file path written single =>
    have hfile : FILE ++ '/' :: path = "file".toList ++ AFTER_SCHEME ++ '/' :: path := rfl
    have hsplit : Git.Remote.split lower (Text.trim url) = (lower [], path) := by
      rw [Git.Remote.split, written, hfile, splitOnceAt_scheme (by decide)]
      rfl
    have hname : normalize url = stripGit ('/' :: path) := by
      unfold normalize
      dsimp only
      rw [written, if_pos (List.prefix_append _ _), List.drop_left]
    have hsome : Text.trim url ≠ [] := by
      rw [written]
      exact List.append_ne_nil_of_right_ne_nil _ (List.cons_ne_nil _ _)
    exact ⟨_, _, reads_directory hlower (.inl hsplit) hsome hname single⟩

/-! ### The two reducers -/

/-- A name under a host is read back as the host and the path. -/
theorem split_below {host : Text} (h : '/' ∉ host) (path : Text) :
    splitAuthority (host ++ below path) = (host, path) := by
  rw [below, splitAuthority_tail h]
  by_cases hpath : path = []
  · simp [hpath]
  · simp [hpath]

/-- The host and the port are parts of the text they are split from. -/
theorem splitPort_eq {hostport host port : Text} (h : splitPort hostport = (host, some port)) :
    hostport = host ++ ':' :: port := by
  unfold splitPort at h
  cases hfound : rsplitOnce ':' hostport with
  | none => rw [hfound] at h; cases h
  | some found =>
    rw [hfound] at h
    dsimp only at h
    by_cases hdigits : found.2.all Char.isDigit = true
    · rw [if_pos hdigits] at h
      cases h
      exact rsplitOnce_eq_some hfound
    · rw [if_neg hdigits] at h
      cases h

theorem hostOf_plain {hostport : Text} (h : '/' ∉ hostport) : '/' ∉ hostOf hostport := by
  have hslash : Char.isAlpha '/' = false := by decide
  unfold hostOf
  cases hsplit : splitPort hostport with
  | mk host port =>
    cases port with
    | none =>
      have hwhole : hostport = host := by
        rcases splitPort_cases hostport with hwhole | ⟨port, -, hport⟩
        · rw [hsplit] at hwhole
          exact (Prod.mk.inj hwhole).1.symm
        · rw [hsplit] at hport
          cases hport
      exact mt (mem_asciiLower hslash).mp (hwhole ▸ h)
    | some port =>
      have hparts : '/' ∉ host ∧ '/' ∉ port := by
        rw [splitPort_eq hsplit] at h
        simpa using h
      have hlower : '/' ∉ asciiLower host := mt (mem_asciiLower hslash).mp hparts.1
      dsimp only
      split
      · exact hlower
      · simpa using ⟨hlower, hparts.2⟩

/-- On texts that name a remote in a form both reducers read alike, one identity is one name, and one
name is one remote.
Assumes: no letters fold to none. -/
theorem reduced {lower : Text → Text} (hlower : lower [] = []) {first second : Text}
    {one other : Remote} (hfirst : Names lower first one) (hsecond : Names lower second other) :
    (identity lower first = identity lower second → normalize first = normalize second) ∧
      (normalize first = normalize second → one = other) := by
  obtain ⟨hostport, path, hone⟩ := hfirst.reads hlower
  obtain ⟨hostport', path', hother⟩ := hsecond.reads hlower
  constructor
  · intro hsame
    have hread : asciiLower hostport ++ below path = asciiLower hostport' ++ below path' := by
      rw [← hone.identity, ← hother.identity, hsame]
    have hslash : Char.isAlpha '/' = false := by decide
    have hsplit := congrArg splitAuthority hread
    rw [split_below (mt (mem_asciiLower hslash).mp hone.plain),
      split_below (mt (mem_asciiLower hslash).mp hother.plain)] at hsplit
    obtain ⟨hhost, hpath⟩ := Prod.mk.inj hsplit
    rw [hone.name, hother.name, ← hostOf_asciiLower hostport, hhost, hostOf_asciiLower, hpath]
  · intro hsame
    rw [hone.name, hother.name] at hsame
    have hsplit := congrArg splitAuthority hsame
    rw [split_below (hostOf_plain hone.plain), split_below (hostOf_plain hother.plain)] at hsplit
    obtain ⟨hhost, hpath⟩ := Prod.mk.inj hsplit
    rw [hone.remote, hother.remote, ← splitPort_hostOf hone.single, ← splitPort_hostOf hother.single,
      hhost, hpath]

/-- The two spellings of one repository on a host. -/
theorem reduced_sshHttps :
    identity asciiLower "git@GitHub.com:josh2c/nodal.git".toList =
        identity asciiLower "https://github.com/josh2c/nodal".toList ∧
      normalize "git@GitHub.com:josh2c/nodal.git".toList =
        normalize "https://github.com/josh2c/nodal".toList := by
  have hscp : Names asciiLower "git@GitHub.com:josh2c/nodal.git".toList
      (.server (asciiLower "GitHub.com".toList) (stripGit "josh2c/nodal.git".toList)) :=
    .scp (some "git".toList) "GitHub.com".toList "josh2c/nodal.git".toList (by decide) (by decide)
      (by decide) ⟨by decide, by decide, by decide, rfl, by decide⟩ (by decide) (by decide) (by decide)
      (by decide)
  have hhttps : Names asciiLower "https://github.com/josh2c/nodal".toList
      (.server (asciiLower (splitPort "github.com".toList).1) (stripGit "josh2c/nodal".toList)) :=
    .scheme "https".toList none "github.com".toList (some "josh2c/nodal".toList) (by decide)
      (by decide) (by decide) (by decide) ⟨by decide, by decide, by decide, rfl, by decide⟩ (by decide)
      (by decide)
  have hsame : identity asciiLower "git@GitHub.com:josh2c/nodal.git".toList =
      identity asciiLower "https://github.com/josh2c/nodal".toList := by decide
  exact ⟨hsame, (reduced rfl hscp hhttps).1 hsame⟩

/-- Texts of one identity that the names part, and of two identities that one name merges. -/
theorem reducers_part :
    (∀ pair ∈ [("git@h:/srv/a.git", "ssh://git@h/srv/a.git"), ("git+ssh://h/a", "ssh://h/a"),
        ("https://h//a", "https://h/a"), ("srv/a", "/srv/a"), ("//srv/a", "/srv/a"),
        ("h:.git", "https://h"), ("file://h:22/a", "ssh://h:22/a")],
      identity asciiLower pair.1.toList = identity asciiLower pair.2.toList ∧
        normalize pair.1.toList ≠ normalize pair.2.toList) ∧
      ∀ pair ∈ [("https://h/a@b/c", "https://b/c"), ("h:a@b:c", "b:c"), ("/srv/us@h:p", "h:p"),
        ("ssh://h:81:22/a", "ssh://h:81/a")],
      normalize pair.1.toList = normalize pair.2.toList ∧
        identity asciiLower pair.1.toList ≠ identity asciiLower pair.2.toList := by
  decide +kernel

end Nodal.Doctor.Origin
