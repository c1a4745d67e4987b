/-
Punycode (`Punycode.cpp`), which the names of Swift classes are written in.

A sequence of code points is written with the basic ones first, in order.  Then, for each of the
others from the smallest on, it is written how many steps a pair of a code point and a position has
to be moved on, from where the last code point was inserted to where this one is inserted.

The integers of the source are natural numbers here, and all its checks against
`std::numeric_limits<int>::max()` are made.  Strings are bytes.
-/
import Mathlib.Data.UInt
import Mathlib.Data.Nat.Notation

namespace ICDump

namespace Punycode

/-- `std::numeric_limits<int>::max()`. -/
def intMax : ℕ := 2 ^ 31 - 1

/-- `base`. -/
def base : ℕ := 36

/-- `tmin`. -/
def tmin : ℕ := 1

/-- `tmax`. -/
def tmax : ℕ := 26

/-- `skew`. -/
def skew : ℕ := 38

/-- `damp`. -/
def damp : ℕ := 700

/-- `initial_bias`. -/
def initialBias : ℕ := 72

/-- `initial_n`. -/
def initialN : ℕ := 128

/-- `delimiter`, an underscore. -/
def delimiter : UInt8 := 0x5f

/-- `digit_value`: the letters from `a` to `z`, and then from `A` on. -/
def digitValue (digit : ℕ) : UInt8 :=
  if digit < 26 then .ofNat ('a'.toNat + digit) else .ofNat ('A'.toNat - 26 + digit)

/-- `digit_index`. -/
def digitIndex (value : UInt8) : Option ℕ :=
  if 'a'.toNat ≤ value.toNat ∧ value.toNat ≤ 'z'.toNat then some (value.toNat - 'a'.toNat)
  else if 'A'.toNat ≤ value.toNat ∧ value.toNat ≤ 'J'.toNat then
    some (value.toNat - 'A'.toNat + 26)
  else none

/-- `isValidUnicodeScalar`.  The range from `0xD800` on stands for other ASCII characters. -/
def isValidUnicodeScalar (s : ℕ) : Bool :=
  decide (s < 0xD880) || (decide (0xE000 ≤ s) && decide (s ≤ 0x10FFFF))

/-- The loop of `adapt`, with a bound on its iterations. -/
def adaptLoop : ℕ → ℕ → ℕ → ℕ × ℕ
  | 0, delta, k => (delta, k)
  | bound + 1, delta, k =>
      if delta > (base - tmin) * tmax / 2 then adaptLoop bound (delta / (base - tmin)) (k + base)
      else (delta, k)

/-- `adapt`. -/
def adapt (delta numpoints : ℕ) (firsttime : Bool) : ℕ :=
  let delta := if firsttime then delta / damp else delta / 2
  let delta := delta + delta / numpoints
  let r := adaptLoop delta delta 0
  r.2 + (base - tmin + 1) * r.1 / (r.1 + skew)

/-- The threshold `t` for the digit at `k`. -/
def threshold (bias k : ℕ) : ℕ :=
  if k ≤ bias then tmin else if k ≥ bias + tmax then tmax else k - bias

/-! ### Decoding -/

/-- The inner loop of `decodePunycode`: `i` moved on by the number at the start of the input, and
what is left of the input. -/
def decodeDelta (bias : ℕ) : ℕ → ℕ → ℕ → List UInt8 → Option (ℕ × List UInt8)
  | _, _, _, [] => none
  | k, w, i, codePoint :: input =>
      match digitIndex codePoint with
      | none => none
      | some digit =>
          if digit > (intMax - i) / w then none
          else if digit < threshold bias k then some (i + digit * w, input)
          else if w > intMax / (base - threshold bias k) then none
          else decodeDelta bias (k + base) (w * (base - threshold bias k)) (i + digit * w) input

/-- What the loop of `decodePunycode` goes on with: the pair of a code point and a position, the
bias, and the output. -/
structure Decoding where
  n : ℕ
  i : ℕ
  bias : ℕ
  out : List ℕ
deriving DecidableEq, Repr

/-- What the loop of `decodePunycode` does once `i` was moved on: insert a code point. -/
def Decoding.insert (st : Decoding) (i : ℕ) : Option Decoding :=
  if i / (st.out.length + 1) > intMax - st.n then none
  else
    let n := st.n + i / (st.out.length + 1)
    let pos := i % (st.out.length + 1)
    if n < 0x80 then none
    else some ⟨n, pos + 1, adapt (i - st.i) (st.out.length + 1) (st.i == 0), st.out.insertIdx pos n⟩

/-- One iteration of the loop of `decodePunycode`. -/
def Decoding.round (st : Decoding) (input : List UInt8) : Option (Decoding × List UInt8) := do
  let r ← decodeDelta st.bias base 1 st.i input
  let st ← st.insert r.1
  return (st, r.2)

/-- The loop of `decodePunycode`, with a bound on its iterations. -/
def Decoding.loop : ℕ → Decoding → List UInt8 → Option (List ℕ)
  | _, st, [] => some st.out
  | 0, _, _ :: _ => none
  | bound + 1, st, input => do
    let r ← st.round input
    Decoding.loop bound r.1 r.2

/-- What comes before and behind the last occurrence of a byte. -/
def splitLast (c : UInt8) : List UInt8 → Option (List UInt8 × List UInt8)
  | [] => none
  | d :: w =>
      match splitLast c w with
      | some r => some (d :: r.1, r.2)
      | none => if d = c then some ([], w) else none

/-- `decodePunycode`. -/
def decodePunycode (inputPunycode : List UInt8) : Option (List ℕ) :=
  let parts := (splitLast delimiter inputPunycode).getD ([], inputPunycode)
  if parts.1.any (· > 0x7f) then none
  else Decoding.loop parts.2.length ⟨initialN, 0, initialBias, parts.1.map UInt8.toNat⟩ parts.2

/-! ### Encoding -/

/-- The inner loop of `encodePunycode`, with a bound on its iterations: the digits of `q`. -/
def encodeDelta (bias : ℕ) : ℕ → ℕ → ℕ → List UInt8
  | 0, _, q => [digitValue q]
  | bound + 1, k, q =>
      let t := threshold bias k
      if q < t then [digitValue q]
      else digitValue (t + (q - t) % (base - t)) ::
        encodeDelta bias bound (k + base) ((q - t) / (base - t))

/-- What the loops of `encodePunycode` go on with. -/
structure Encoding where
  delta : ℕ
  bias : ℕ
  h : ℕ
  out : List UInt8
deriving DecidableEq, Repr

/-- The loop of `encodePunycode` that writes all code points `n`, and whether it comes to its
end. -/
def Encoding.scan (n b : ℕ) : List ℕ → Encoding → Bool × Encoding
  | [], st => (true, st)
  | c :: cs, st =>
      if c < n then
        if st.delta = intMax then (false, st)
        else Encoding.scan n b cs { st with delta := st.delta + 1 }
      else if c = n then
        Encoding.scan n b cs
          { delta := 0
            bias := adapt st.delta (st.h + 1) (st.h == b)
            h := st.h + 1
            out := st.out ++ encodeDelta st.bias st.delta base st.delta }
      else Encoding.scan n b cs st

/-- The smallest code point of the input from `n` on. -/
def minFrom (n : ℕ) (input : List ℕ) : ℕ :=
  input.foldl (fun m codePoint => if codePoint ≥ n ∧ codePoint < m then codePoint else m) 0x10FFFF

/-- The outer loop of `encodePunycode`, with a bound on its iterations: what is returned behind it,
and the output. -/
def Encoding.loop (input : List ℕ) (b : ℕ) : ℕ → ℕ → Encoding → Bool × List UInt8
  | 0, _, st => (!decide (st.h < input.length), st.out)
  | bound + 1, n, st =>
      if st.h < input.length then
        let m := minFrom n input
        if m - n > (intMax - st.delta) / (st.h + 1) then (false, st.out)
        else
          let r := Encoding.scan m b input { st with delta := st.delta + (m - n) * (st.h + 1) }
          if r.1 then Encoding.loop input b bound (m + 1) { r.2 with delta := r.2.delta + 1 }
          else (false, r.2.out)
      else (true, st.out)

/-- `encodePunycode`: what it returns, and `OutPunycode`. -/
def encode (inputCodePoints : List ℕ) : Bool × List UInt8 :=
  if inputCodePoints.all isValidUnicodeScalar then
    let basics := inputCodePoints.filter (· < 0x80)
    let out := basics.map UInt8.ofNat ++ if basics.length > 0 then [delimiter] else []
    Encoding.loop inputCodePoints basics.length inputCodePoints.length initialN
      ⟨0, initialBias, basics.length, out⟩
  else (false, [])

/-- The output of `encodePunycode`, if it succeeds. -/
def encodePunycode (inputCodePoints : List ℕ) : Option (List UInt8) :=
  let r := encode inputCodePoints
  if r.1 then some r.2 else none

end Punycode

end ICDump
