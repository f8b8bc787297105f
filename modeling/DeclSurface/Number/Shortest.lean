import DeclSurface.Number.Decimal

/-!
# Shortest decimals

A floating point number is shown with the fewest digits that still read back as it. Numbers
are held as `m · 2 ^ q` with at most 53 bits in `m`, and all arithmetic is exact.

* `Binary.nearest?`    — the floating point number nearest to a quotient.
* `Binary.shortest`    — the shortest decimal that reads back.
* `RealNumber.text`    — a real number as it is shown.
-/

namespace DeclSurface

/-- The quotient rounded to a whole number, a half to the even neighbour. -/
def roundHalfEven (n d : Nat) : Nat :=
  let f := n / d
  let r := n % d
  if 2 * r < d then f
  else if d < 2 * r then f + 1
  else if f % 2 = 0 then f else f + 1

/-- The number `significand · 2 ^ exponent`. -/
structure Binary where
  significand : Nat
  exponent : Int
deriving DecidableEq, Repr, Inhabited

namespace Binary

/-- The quotient `n / (d · 2 ^ q)` as a quotient of whole numbers. -/
def scaled (n d : Nat) (q : Int) : Nat × Nat :=
  if q < 0 then (n * Nat.pow 2 (-q).toNat, d) else (n, d * Nat.pow 2 q.toNat)

/-- The least exponent of a floating point number. -/
def minExponent : Int := -1074

/-- The floating point number nearest to `n / d`, unless that is too large for one. -/
def nearest? (n d : Nat) : Option Binary :=
  if n = 0 then some ⟨0, minExponent⟩
  else
    let guess := max ((n.log2 : Int) - (d.log2 : Int) - 52) minExponent
    let (gn, gd) := scaled n d guess
    let q := if gn / gd < Nat.pow 2 52 then max (guess - 1) minExponent else guess
    let (sn, sd) := scaled n d q
    let m := roundHalfEven sn sd
    let (m, q) := if m = Nat.pow 2 53 then (Nat.pow 2 52, q + 1) else (m, q)
    if q > 971 then none else some ⟨m, q⟩

/-- The floating point number nearest to a decimal, without its sign. -/
def ofDecimal? (x : Decimal) : Option Binary :=
  let magnitude : Int := (Nat.toDigits 10 x.digits).length + x.exponent
  if x.digits = 0 ∨ magnitude < -400 then some ⟨0, minExponent⟩
  else if magnitude > 400 then none
  else let (n, d) := x.quotient; nearest? n d

/-- The decimal of `digits` digits next to `b` that reads back as `b`, if there is one. -/
def decimalOf? (b : Binary) (digits : Nat) : Option Decimal :=
  let m := b.significand
  -- everything below is counted in quarters of the last bit
  let quarter (x : Nat) : Nat × Nat := scaled x 1 (2 - b.exponent)
  let low := if m = Nat.pow 2 52 ∧ b.exponent > minExponent then 4 * m - 1 else 4 * m - 2
  let high := 4 * m + 2
  let (vn, vd) := quarter (4 * m)
  let places : Int := (Nat.toDigits 10 (vn * Nat.pow 10 400 / vd)).length - 401 + 1 - digits
  -- the quotient of `b` by the last place
  let (gn, gd) := if places < 0 then (vn * Nat.pow 10 (-places).toNat, vd)
    else (vn, vd * Nat.pow 10 places.toNat)
  let inside (x : Nat) : Bool :=
    let (xn, xd) := if places < 0 then (x, Nat.pow 10 (-places).toNat)
      else (x * Nat.pow 10 places.toNat, 1)
    let (ln, ld) := quarter low
    let (hn, hd) := quarter high
    if m % 2 = 0 then ln * xd ≤ xn * ld && xn * hd ≤ hn * xd
    else ln * xd < xn * ld && xn * hd < hn * xd
  let f := gn / gd
  let near := roundHalfEven gn gd
  let far := if near = f then f + 1 else f
  if inside near then some { digits := near, exponent := places }
  else if inside far then some { digits := far, exponent := places }
  else none

/-- The shortest decimal that reads back as `b`. -/
def shortest (b : Binary) : Decimal :=
  if b.significand = 0 then { digits := 0 }
  else
    match (List.range 17).findSome? fun n => b.decimalOf? (n + 1) with
    | some d => d.dropZeros 17
    | none => { digits := b.significand }

end Binary

/-- A real number as it is shown. -/
def RealNumber.text : RealNumber → String
  | .undefined => "NaN"
  | .infinite negative => if negative then "-inf" else "inf"
  | .finite d =>
    match Binary.ofDecimal? d with
    | none => if d.negative then "-inf" else "inf"
    | some b => { b.shortest with negative := d.negative : Decimal }.positional

end DeclSurface
