/-
  Doubles as exact binary fractions: taking one apart, the double nearest to a ratio of integers,
  the exact comparison with an integer, and the remainder.
-/
namespace EventLoop.Binary64

/-- A double taken apart. A finite one is `mantissa * 2 ^ exponent` with a sign. -/
inductive View where
  | nan
  | infinite (negative : Bool)
  | finite (negative : Bool) (mantissa : Nat) (exponent : Int)
  deriving DecidableEq, Repr

/-- Takes a double apart. -/
def view (x : Float) : View :=
  let bits := x.toBits.toNat
  let negative := bits / Nat.pow 2 63 == 1
  let field : Nat := bits / Nat.pow 2 52 % Nat.pow 2 11
  let fraction := bits % Nat.pow 2 52
  if field = 0x7FF then
    if fraction = 0 then .infinite negative else .nan
  else if field = 0 then .finite negative fraction (-1074)
  else .finite negative (Nat.pow 2 52 + fraction) ((field : Int) - 1075)

/-- The double with the given sign and magnitude bits. -/
def ofMagnitudeBits (negative : Bool) (bits : Nat) : Float :=
  Float.ofBits (UInt64.ofNat ((if negative then Nat.pow 2 63 else 0) + bits))

/-- The quotient `num / den` to the nearest integer, a tie going to the even one. -/
def roundDiv (num den : Nat) : Nat :=
  let q := num / den
  let r := num % den
  if 2 * r > den || (2 * r == den && q % 2 == 1) then q + 1 else q

/-- The greatest `k` with `2 ^ k ≤ num / den`, for positive `num` and `den`. -/
def ratioLog2 (num den : Nat) : Int :=
  let k : Int := (num.log2 : Int) - den.log2
  if num * Nat.pow 2 (-k).toNat < den * Nat.pow 2 k.toNat then k - 1 else k

/-- The magnitude bits of the double nearest to `num / den`, a tie going to the even one; `none` if
that lies beyond the largest double. -/
def ratioBits? (num den : Nat) : Option Nat :=
  if num = 0 then some 0
  else
    let e := max (ratioLog2 num den - 52) (-1074)
    let q := roundDiv (num * Nat.pow 2 (-e).toNat) (den * Nat.pow 2 e.toNat)
    let bits := if q < Nat.pow 2 52 then q else (e + 1074).toNat * Nat.pow 2 52 + q
    if bits < 0x7FF * Nat.pow 2 52 then some bits else none

/-- The double nearest to `num / den` with the given sign; `none` beyond the largest double. -/
def ofRatio? (negative : Bool) (num den : Nat) : Option Float :=
  (ratioBits? num den).map (ofMagnitudeBits negative)

/-- The double nearest to an integer; `none` beyond the largest double. -/
def ofInt? (n : Int) : Option Float := ofRatio? (n < 0) n.natAbs 1

/-- The signed integer with the given sign and magnitude. -/
def signed (negative : Bool) (n : Nat) : Int := if negative then -(n : Int) else n

/-- The integer that a double equals, if there is one. -/
def toInt? (x : Float) : Option Int :=
  match view x with
  | .finite negative m e =>
    if 0 ≤ e then some (signed negative (m * Nat.pow 2 e.toNat))
    else if m % Nat.pow 2 (-e).toNat = 0 then some (signed negative (m / Nat.pow 2 (-e).toNat))
    else none
  | _ => none

/-- The double without its fraction, as an integer; `none` for infinities and for no number. -/
def truncate? (x : Float) : Option Int :=
  match view x with
  | .finite negative m e => some (signed negative (m * Nat.pow 2 e.toNat / Nat.pow 2 (-e).toNat))
  | _ => none

/-- The exact order of an integer and a double; `none` if the double is no number. -/
def compareInt? (n : Int) (x : Float) : Option Ordering :=
  match view x with
  | .nan => none
  | .infinite negative => some (if negative then .gt else .lt)
  | .finite negative m e =>
    some (compare (n * Nat.pow 2 (-e).toNat) (signed negative (m * Nat.pow 2 e.toNat)))

/-- The order of two doubles; `none` if one of them is no number. -/
def compare? (x y : Float) : Option Ordering :=
  if x < y then some .lt
  else if x == y then some .eq
  else if x > y then some .gt
  else none

/-- The remainder of `x` by `y`, with the sign of `x`, for finite `x` and a finite `y` other than
zero. It is exact. -/
def remainder (x y : Float) : Float :=
  match view x, view y with
  | .finite negative m e, .finite _ n f =>
    let g := min e f
    let r := (m * Nat.pow 2 (e - g).toNat) % (n * Nat.pow 2 (f - g).toNat)
    (ofRatio? negative (r * Nat.pow 2 g.toNat) (Nat.pow 2 (-g).toNat)).getD x
  | _, _ => x

/-- The double that is no number. -/
def nan : Float := ofMagnitudeBits false (0x7FF8 * Nat.pow 2 48)

/-- Positive or negative infinity. -/
def infinity (negative : Bool) : Float := ofMagnitudeBits negative (0x7FF * Nat.pow 2 52)

end EventLoop.Binary64
