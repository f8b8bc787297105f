/-!
# Decimals

* `Decimal`     — a number as it is written, with a sign, digits and an exponent.
* `RealNumber`  — a decimal, an infinity or no number at all.
-/

namespace DeclSurface

/-- The number `digits · 10 ^ exponent`, negated if so marked. -/
structure Decimal where
  negative : Bool := false
  digits : Nat
  exponent : Int := 0
deriving DecidableEq, Repr, Inhabited

/-- What a text that denotes a floating point number stands for. -/
inductive RealNumber where
  | finite (d : Decimal)
  | infinite (negative : Bool)
  | undefined
deriving DecidableEq, Repr, Inhabited

namespace Decimal

/-- The decimal as a quotient, without its sign. -/
def quotient (d : Decimal) : Nat × Nat :=
  if d.exponent < 0 then (d.digits, Nat.pow 10 (-d.exponent).toNat)
  else (d.digits * Nat.pow 10 d.exponent.toNat, 1)

/-- The decimal without zeros at the end of its digits; `fuel` bounds how many are dropped. -/
def dropZeros (fuel : Nat) (d : Decimal) : Decimal :=
  match fuel with
  | 0 => d
  | fuel + 1 =>
    if d.digits ≠ 0 ∧ d.digits % 10 = 0 then
      dropZeros fuel { d with digits := d.digits / 10, exponent := d.exponent + 1 }
    else d

/-- Positional notation, with at least one digit on either side of the point. -/
def positional (d : Decimal) : String :=
  let sign := if d.negative then "-" else ""
  let ds := Nat.toDigits 10 d.digits
  if d.exponent ≥ 0 then
    sign ++ String.ofList (ds ++ List.replicate d.exponent.toNat '0') ++ ".0"
  else
    let places := (-d.exponent).toNat
    let ds := List.replicate (places + 1 - ds.length) '0' ++ ds
    sign ++ String.ofList (ds.take (ds.length - places)) ++ "."
      ++ String.ofList (ds.drop (ds.length - places))

end Decimal

end DeclSurface
