import Mathlib.Data.List.DropRight
import Nodal.Foundation.Text

/-!
# What repository a remote names

`git/remote.rs`: the text of a remote, reduced to the spelling every clone of the repository shares.
The scheme, the user and a trailing `.git` go, and the port stays.
-/

set_option autoImplicit false

namespace Nodal.Git.Remote

open Foundation
open Foundation.Text (splitOnce splitOnceAt)

/-! ### Splitting a text -/

/-- The text before the last of a character, and the text after it. -/
def rsplitOnce (at' : Char) (text : Text) : Option (Text × Text) :=
  (splitOnce at' text.reverse).map fun (after, before) ↦ (before.reverse, after.reverse)

/-- What is left of a text that ends with another. -/
def stripSuffix (ending text : Text) : Option Text :=
  if ending <:+ text then some (text.take (text.length - ending.length)) else none

/-- What stands between a scheme and the rest. -/
def AFTER_SCHEME : Text := "://".toList

def DOT_GIT : Text := ".git".toList

/-- What comes after the last `@`, where there is one. -/
def afterAt (text : Text) : Text :=
  match rsplitOnce '@' text with
  | some (_, after) => after
  | none => text

/-- The part before the first slash, and the part after it. -/
def splitAuthority (rest : Text) : Text × Text := (splitOnce '/' rest).getD (rest, [])

def trimSlashes (path : Text) : Text := path.rdropWhile (· = '/')

/-! ### The identity -/

/-- A path with its slashes and its trailing `.git` taken off. -/
def tidy (path : Text) : Text :=
  let path := trimSlashes (path.dropWhile (· = '/'))
  trimSlashes ((stripSuffix DOT_GIT path).getD path)

/-- The `user@host:path` form: the colon comes before the first slash. -/
def scpLike (url : Text) : Option (Text × Text) :=
  match splitOnce ':' url with
  | some (authority, path) => if '/' ∈ authority then none else some (authority, path)
  | none => none

section Identity

-- The lower case of a text, with every letter there is.
variable (lower : Text → Text)

/-- The host in an authority, with any user before it dropped. -/
def hostOf (authority : Text) : Text := lower (afterAt authority)

/-- The host and the path of a remote, in whichever of the three spellings it is. -/
def split (url : Text) : Text × Text :=
  match splitOnceAt AFTER_SCHEME url with
  | some (_, rest) =>
    let (authority, path) := splitAuthority rest
    (hostOf lower authority, path)
  | none =>
    match scpLike url with
    | some (authority, path) => (hostOf lower authority, path)
    | none => ([], url)

/-- What repository a remote names, in the spelling every clone of it shares. -/
def identity (url : Text) : Option Text :=
  let trimmed := Text.trim url
  if trimmed = [] then none
  else
    let (host, path) := split lower trimmed
    let path := tidy path
    if host = [] then (if path = [] then none else some ('/' :: path))
    else some (if path = [] then host else host ++ '/' :: path)

end Identity

/-! ### What the splits find -/

theorem splitOnce_eq_none {c : Char} {text : Text} (h : c ∉ text) : splitOnce c text = none := by
  induction text with
  | nil => rfl
  | cons d text ih =>
    obtain ⟨hne, hrest⟩ := not_or.mp (List.mem_cons.not.mp h)
    rw [splitOnce, if_neg (Ne.symm hne), ih hrest]
    rfl

theorem rsplitOnce_append {c : Char} {before after : Text} (h : c ∉ after) :
    rsplitOnce c (before ++ c :: after) = some (before, after) := by
  have hreverse : (before ++ c :: after).reverse = after.reverse ++ c :: before.reverse := by simp
  rw [rsplitOnce, hreverse, Text.splitOnce_append (by simpa using h)]
  simp

theorem splitOnce_eq_some {c : Char} {text before after : Text}
    (h : splitOnce c text = some (before, after)) : text = before ++ c :: after := by
  induction text generalizing before with
  | nil => cases h
  | cons d text ih =>
    rw [splitOnce] at h
    by_cases hsame : d = c
    · rw [if_pos hsame] at h
      cases h
      rw [hsame]
      rfl
    · rw [if_neg hsame, Option.map_eq_some_iff] at h
      obtain ⟨found, hfound, hparts⟩ := h
      cases hparts
      rw [ih hfound]
      rfl

theorem rsplitOnce_eq_some {c : Char} {text before after : Text}
    (h : rsplitOnce c text = some (before, after)) : text = before ++ c :: after := by
  obtain ⟨found, hfound, hparts⟩ := Option.map_eq_some_iff.mp h
  cases hparts
  have hreverse := congrArg List.reverse (splitOnce_eq_some (c := c) hfound)
  simpa using hreverse

theorem rsplitOnce_eq_none {c : Char} {text : Text} (h : c ∉ text) : rsplitOnce c text = none := by
  rw [rsplitOnce, splitOnce_eq_none (by simpa using h)]
  rfl

/-- A user before a host, where there is one. -/
def account (user : Option Text) : Text := (user.map (· ++ ['@'])).getD []

theorem afterAt_account {rest : Text} (h : '@' ∉ rest) (user : Option Text) :
    afterAt (account user ++ rest) = rest := by
  cases user with
  | none => simp [afterAt, account, rsplitOnce_eq_none h]
  | some user =>
    have hsplit : account (some user) ++ rest = user ++ '@' :: rest := by simp [account]
    rw [afterAt, hsplit, rsplitOnce_append h]

/-- The path after an authority, where there is one. -/
def tail (path : Option Text) : Text := (path.map ('/' :: ·)).getD []

theorem splitAuthority_tail {authority : Text} (h : '/' ∉ authority) (path : Option Text) :
    splitAuthority (authority ++ tail path) = (authority, path.getD []) := by
  cases path with
  | none => simp [splitAuthority, tail, splitOnce_eq_none h]
  | some path => simp [splitAuthority, tail, Text.splitOnce_append h]

/-- A scheme ends at the first of its marks. -/
theorem splitOnceAt_scheme {scheme : Text} (h : ':' ∉ scheme) (rest : Text) :
    splitOnceAt AFTER_SCHEME (scheme ++ AFTER_SCHEME ++ rest) = some (scheme, rest) := by
  have hhere : splitOnceAt AFTER_SCHEME (AFTER_SCHEME ++ rest) = some ([], rest) := by
    have hmarked : AFTER_SCHEME.isPrefixOf (AFTER_SCHEME ++ rest) = true :=
      List.isPrefixOf_iff_prefix.mpr (List.prefix_append _ _)
    show (if AFTER_SCHEME.isPrefixOf (AFTER_SCHEME ++ rest) then
      some ([], (AFTER_SCHEME ++ rest).drop AFTER_SCHEME.length) else _) = _
    rw [if_pos hmarked, List.drop_left]
  rw [List.append_assoc]
  refine (Text.splitOnceAt_append h _).trans ?_
  show (splitOnceAt AFTER_SCHEME (AFTER_SCHEME ++ rest)).map _ = _
  rw [hhere]
  simp

end Nodal.Git.Remote
