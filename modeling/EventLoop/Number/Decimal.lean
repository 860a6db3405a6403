/-
  The decimal form of a double: the fewest digits that read back as the same double, and the nearest
  of those, written positionally or with an exponent.
-/
import EventLoop.Number.Binary64

namespace EventLoop

/-- A positive decimal, `digits * 10 ^ exponent`. -/
structure Decimal where
  digits : Nat
  exponent : Int
  deriving DecidableEq, Repr

namespace Decimal

/-- The order of `digits * 10 ^ exponent` and `n * 2 ^ j`, exactly. -/
def compareBinary (d : Decimal) (n : Nat) (j : Int) : Ordering :=
  compare (d.digits * Nat.pow 10 d.exponent.toNat * Nat.pow 2 (-j).toNat)
    (n * Nat.pow 2 j.toNat * Nat.pow 10 (-d.exponent).toNat)

/-- Whether `d` lies among the reals that round to the double `m * 2 ^ q`: between the midpoints to
its neighbours, these included when `m` is even. Below a power of two the lower gap is half as wide.
-/
def readsBack (d : Decimal) (m : Nat) (q : Int) : Bool :=
  let narrow := m == Nat.pow 2 52 && q != -1074
  let low := d.compareBinary (if narrow then 4 * m - 1 else 4 * m - 2) (q - 2)
  let high := d.compareBinary (4 * m + 2) (q - 2)
  let closed := m % 2 == 0
  (low == .gt || (closed && low == .eq)) && (high == .lt || (closed && high == .eq))

/-- The least `k` with `m * 2 ^ q < 10 ^ k`, found from the guess `k` in at most `fuel` steps. -/
def scaleFrom (m : Nat) (q : Int) : Nat → Int → Int
  | 0, k => k
  | fuel + 1, k =>
    if (⟨1, k⟩ : Decimal).compareBinary m q == .gt then
      if (⟨1, k - 1⟩ : Decimal).compareBinary m q == .gt then scaleFrom m q fuel (k - 1) else k
    else scaleFrom m q fuel (k + 1)

/-- The least `k` with `m * 2 ^ q < 10 ^ k`. -/
def scale (m : Nat) (q : Int) : Int :=
  scaleFrom m q 8 (((m.log2 : Int) + q) * 1233 / 4096 + 1)

/-- The decimal of the grid `10 ^ g` nearest to `m * 2 ^ q` that reads back, if one does. Of two
that are equally near it is the even one. -/
def onGrid? (m : Nat) (q : Int) (g : Int) : Option Decimal :=
  let num := m * Nat.pow 2 q.toNat * Nat.pow 10 (-g).toNat
  let den := Nat.pow 2 (-q).toNat * Nat.pow 10 g.toNat
  let below := num / den
  let first := Binary64.roundDiv num den
  let second := if first = below then below + 1 else below
  if readsBack ⟨first, g⟩ m q then some ⟨first, g⟩
  else if readsBack ⟨second, g⟩ m q then some ⟨second, g⟩
  else none

/-- The first hit on the grids of `n`, `n + 1`, … digits below `10 ^ k`. -/
def searchFrom (m : Nat) (q k : Int) : Nat → Nat → Option Decimal
  | _, 0 => none
  | n, fuel + 1 => (onGrid? m q (k - n)).orElse fun _ => searchFrom m q k (n + 1) fuel

/-- Moves trailing zeros of the digits into the exponent, at most `fuel` of them. -/
def strip : Nat → Decimal → Decimal
  | 0, d => d
  | fuel + 1, d =>
    if d.digits % 10 = 0 && d.digits != 0 then strip fuel ⟨d.digits / 10, d.exponent + 1⟩ else d

/-- The shortest decimal that reads back as the positive double `m * 2 ^ q`. Seventeen digits always
suffice; otherwise the value itself would be written. -/
def shortest (m : Nat) (q : Int) : Decimal :=
  match searchFrom m q (scale m q) 1 17 with
  | some d => strip 20 d
  | none => ⟨m * Nat.pow 2 q.toNat * Nat.pow 5 (-q).toNat, min q 0⟩

/-- How a decimal is laid out: the exponents of its leading digit that are written positionally,
from `least` up to but not including `bound`, and the least number of digits of a written exponent.
-/
structure Layout where
  least : Int
  bound : Int
  exponentWidth : Nat

/-- A text padded on the left with zeros to the given width. -/
def padZeros (width : Nat) (s : String) : String :=
  "".pushn '0' (width - s.length) ++ s

/-- Lays a decimal out. A positional one always shows a point. -/
def Layout.render (l : Layout) (d : Decimal) : String :=
  let ds := toString d.digits
  let lead := d.exponent + ds.length - 1
  if l.least ≤ lead && lead < l.bound then
    if 0 ≤ d.exponent then ds ++ "".pushn '0' d.exponent.toNat ++ ".0"
    else if 0 ≤ lead then
      String.ofList (ds.toList.take (lead.toNat + 1)) ++ "." ++
        String.ofList (ds.toList.drop (lead.toNat + 1))
    else "0." ++ "".pushn '0' (-lead - 1).toNat ++ ds
  else
    let point := if ds.length = 1 then "" else "."
    let power := padZeros l.exponentWidth (toString lead.natAbs)
    String.ofList (ds.toList.take 1) ++ point ++ String.ofList (ds.toList.drop 1) ++
      (if lead < 0 then "e-" else "e+") ++ power

end Decimal

/-- Doubles are written positionally from a ten-thousandth up to sixteen digits before the point,
and exponents with at least two digits. -/
def Binary64.layout : Decimal.Layout := ⟨-4, 16, 2⟩

/-- The text of a double. -/
def Binary64.text (x : Float) : String :=
  match Binary64.view x with
  | .nan => "nan"
  | .infinite negative => if negative then "-inf" else "inf"
  | .finite negative m q =>
    (if negative then "-" else "") ++
      if m = 0 then "0.0" else Binary64.layout.render (Decimal.shortest m q)

end EventLoop
