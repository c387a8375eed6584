import Mathlib.Algebra.GroupWithZero.Nat
import Mathlib.Tactic.Common

/-!
# SHA-256

The hash of a list of bytes, as FIPS 180-4 defines it: the message padded to whole blocks of sixteen
words, a schedule of sixty-four words for each block, and one round for each word. Words are numbers
below `2 ^ 32`.
-/

set_option autoImplicit false

namespace Nodal.Foundation.Sha256

/-! ### Words -/

def word (n : ℕ) : ℕ := n % 2 ^ 32

def rotateRight (count n : ℕ) : ℕ := n >>> count ||| word (n <<< (32 - count))

def bigSigma0 (n : ℕ) : ℕ := rotateRight 2 n ^^^ rotateRight 13 n ^^^ rotateRight 22 n

def bigSigma1 (n : ℕ) : ℕ := rotateRight 6 n ^^^ rotateRight 11 n ^^^ rotateRight 25 n

def smallSigma0 (n : ℕ) : ℕ := rotateRight 7 n ^^^ rotateRight 18 n ^^^ n >>> 3

def smallSigma1 (n : ℕ) : ℕ := rotateRight 17 n ^^^ rotateRight 19 n ^^^ n >>> 10

def choose (e f g : ℕ) : ℕ := (e &&& f) ^^^ ((2 ^ 32 - 1 - e) &&& g)

def majority (a b c : ℕ) : ℕ := (a &&& b) ^^^ (a &&& c) ^^^ (b &&& c)

/-- The first words of the fractional parts of the cube roots of the first sixty-four primes. -/
def K : List ℕ := [
  0x428a2f98, 0x71374491, 0xb5c0fbcf, 0xe9b5dba5, 0x3956c25b, 0x59f111f1, 0x923f82a4, 0xab1c5ed5,
  0xd807aa98, 0x12835b01, 0x243185be, 0x550c7dc3, 0x72be5d74, 0x80deb1fe, 0x9bdc06a7, 0xc19bf174,
  0xe49b69c1, 0xefbe4786, 0x0fc19dc6, 0x240ca1cc, 0x2de92c6f, 0x4a7484aa, 0x5cb0a9dc, 0x76f988da,
  0x983e5152, 0xa831c66d, 0xb00327c8, 0xbf597fc7, 0xc6e00bf3, 0xd5a79147, 0x06ca6351, 0x14292967,
  0x27b70a85, 0x2e1b2138, 0x4d2c6dfc, 0x53380d13, 0x650a7354, 0x766a0abb, 0x81c2c92e, 0x92722c85,
  0xa2bfe8a1, 0xa81a664b, 0xc24b8b70, 0xc76c51a3, 0xd192e819, 0xd6990624, 0xf40e3585, 0x106aa070,
  0x19a4c116, 0x1e376c08, 0x2748774c, 0x34b0bcb5, 0x391c0cb3, 0x4ed8aa4a, 0x5b9cca4f, 0x682e6ff3,
  0x748f82ee, 0x78a5636f, 0x84c87814, 0x8cc70208, 0x90befffa, 0xa4506ceb, 0xbef9a3f7, 0xc67178f2]

/-! ### Blocks -/

structure State where
  a : ℕ
  b : ℕ
  c : ℕ
  d : ℕ
  e : ℕ
  f : ℕ
  g : ℕ
  h : ℕ

def State.start : State :=
  ⟨0x6a09e667, 0xbb67ae85, 0x3c6ef372, 0xa54ff53a, 0x510e527f, 0x9b05688c, 0x1f83d9ab, 0x5be0cd19⟩

/-- The schedule of a block with so many words more, the newest word first. -/
def extend : ℕ → List ℕ → List ℕ
  | 0, words => words
  | count + 1, words =>
    let next := smallSigma1 (words.getD 1 0) + words.getD 6 0 + smallSigma0 (words.getD 14 0) +
      words.getD 15 0
    extend count (word next :: words)

def round (state : State) (constant next : ℕ) : State :=
  let first := state.h + bigSigma1 state.e + choose state.e state.f state.g + constant + next
  let second := bigSigma0 state.a + majority state.a state.b state.c
  { a := word (first + second), b := state.a, c := state.b, d := state.c
    e := word (state.d + first), f := state.e, g := state.f, h := state.g }

def block (state : State) (words : List ℕ) : State :=
  let schedule := (extend 48 words.reverse).reverse
  let last := (K.zip schedule).foldl (fun state (constant, next) ↦ round state constant next) state
  { a := word (state.a + last.a), b := word (state.b + last.b), c := word (state.c + last.c)
    d := word (state.d + last.d), e := word (state.e + last.e), f := word (state.f + last.f)
    g := word (state.g + last.g), h := word (state.h + last.h) }

/-! ### Messages -/

/-- A message after which come a one bit, zeros, and the eight bytes of its length in bits. -/
def padded (message : List ℕ) : List ℕ :=
  let bits := 8 * message.length
  message ++ 0x80 :: List.replicate ((119 - message.length % 64) % 64) 0 ++
    [56, 48, 40, 32, 24, 16, 8, 0].map fun shift ↦ bits >>> shift % 256

def words : List ℕ → List ℕ
  | first :: second :: third :: fourth :: rest =>
    (((first * 256 + second) * 256 + third) * 256 + fourth) :: words rest
  | _ => []

/-- So many blocks, each of sixteen words. -/
def blocks : ℕ → State → List ℕ → State
  | 0, state, _ => state
  | count + 1, state, rest => blocks count (block state (rest.take 16)) (rest.drop 16)

/-- The hash of a message. -/
def sha256 (message : List UInt8) : BitVec 256 :=
  let all := words (padded (message.map UInt8.toNat))
  let state := blocks (all.length / 16) .start all
  .ofNat 256 ([state.a, state.b, state.c, state.d, state.e, state.f, state.g, state.h].foldl
    (fun number next ↦ number * 2 ^ 32 + next) 0)

/-- The hash of `abc`, which the standard gives. -/
example : sha256 [97, 98, 99] =
    0xba7816bf8f01cfea414140de5dae2223b00361a396177a9cb410ff61f20015ad := by
  decide +kernel

end Nodal.Foundation.Sha256
