import DeclSurface.Data.Basic
import DeclSurface.Number.Shortest
import DeclSurface.Toml.Text

/-!
# Numbers and dates of TOML

* `Parser.integer`, `Parser.float`  — whole numbers of 64 bits, and floating point numbers.
* `Parser.dateTime`                 — dates, times and both.
* `Parser.number`                   — any of them as data.
-/

namespace DeclSurface.Toml.Parser

/-- The number that decimal digits denote. -/
def decimalValue (ds : List Char) : Nat :=
  ds.foldl (fun n c => 10 * n + (c.toNat - '0'.toNat)) 0

/-- The digits that follow one, with single underscores between digits left out. -/
def moreDigits (p : Char → Bool) : Parser (List Char)
  | [] => some ([], [])
  | '_' :: c :: cs => if p c then do
      let (rest, cs) ← moreDigits p cs
      some (c :: rest, cs)
    else none
  | c :: cs => if p c then do
      let (rest, cs) ← moreDigits p cs
      some (c :: rest, cs)
    else some ([], c :: cs)

/-- One or more digits. -/
def digits (p : Char → Bool) : Parser (List Char)
  | c :: cs => if p c then do
      let (rest, cs) ← moreDigits p cs
      some (c :: rest, cs)
    else none
  | [] => none

/-- A sign if there is one: whether the number is negative. -/
def sign : Parser Bool
  | '-' :: cs => some (true, cs)
  | '+' :: cs => some (false, cs)
  | cs => some (false, cs)

/-- The digits of a whole number: a zero on its own, or some that do not start with one. -/
def wholeDigits : Parser (List Char)
  | '0' :: cs => some (['0'], cs)
  | cs => digits Char.isDigit cs

/-- A number as a whole number of 64 bits, if it is one. -/
def wholeNumber (negative : Bool) (n : Nat) : Parser Datum :=
  if negative then if n ≤ Nat.pow 2 63 then pure (.integer (-n)) else fail
  else if n < Nat.pow 2 63 then pure (.integer n) else fail

/-- The digits of a base that is marked by a letter after a zero. -/
def inBase (base : Nat) (cs : List Char) : Nat :=
  cs.foldl (fun n c => base * n + (hexDigit? c).getD 0) 0

/-- A whole number. -/
def integer : Parser Datum
  | '0' :: 'x' :: cs => do
    let (ds, cs) ← digits (fun c => (hexDigit? c).isSome) cs
    wholeNumber false (inBase 16 ds) cs
  | '0' :: 'o' :: cs => do
    let (ds, cs) ← digits (fun c => '0' ≤ c && c ≤ '7') cs
    wholeNumber false (inBase 8 ds) cs
  | '0' :: 'b' :: cs => do
    let (ds, cs) ← digits (fun c => c = '0' || c = '1') cs
    wholeNumber false (inBase 2 ds) cs
  | cs => do
    let (negative, cs) ← sign cs
    let (ds, cs) ← wholeDigits cs
    wholeNumber negative (decimalValue ds) cs

/-- The exponent of a floating point number. -/
def exponent : Parser Int
  | c :: cs => if c = 'e' || c = 'E' then do
      let (negative, cs) ← sign cs
      let (ds, cs) ← digits Char.isDigit cs
      let n : Int := decimalValue ds
      some (if negative then -n else n, cs)
    else none
  | [] => none

/-- A floating point number that is written with digits; one too large for any is refused. -/
def finiteFloat : Parser Datum := do
  let negative ← sign
  let whole ← wholeDigits
  let fraction ← optional do
    char '.'
    digits Char.isDigit
  let exp ← optional exponent
  match fraction, exp with
  | none, none => fail
  | _, _ =>
    let fraction := fraction.getD []
    let d : Decimal :=
      { negative, digits := decimalValue (whole ++ fraction)
        exponent := exp.getD 0 - fraction.length }
    match Binary.ofDecimal? d with
    | none => if negative then pure (.real (.infinite true)) else fail
    | some _ => pure (.real (.finite d))

/-- An infinity, or what is no number. -/
def specialFloat : Parser Datum := do
  let negative ← sign
  match ← peek with
  | some 'i' => do
    literal "inf".toList
    pure (.real (.infinite negative))
  | some 'n' => do
    literal "nan".toList
    pure (.real .undefined)
  | _ => fail

/-- A floating point number. -/
def float : Parser Datum :=
  either finiteFloat specialFloat

/-! ## Dates and times -/

/-- A number of exactly `count` digits that lies in a range. -/
def fixed (count lo hi : Nat) : Parser Nat := fun cs =>
  let ds := cs.take count
  let n := decimalValue ds
  if ds.length = count && ds.all Char.isDigit && lo ≤ n && n ≤ hi then some (n, cs.drop count)
  else none

/-- The number of days in a month of a year. -/
def daysIn (year month : Nat) : Nat :=
  if month = 2 then
    if year % 4 = 0 && (year % 100 != 0 || year % 400 = 0) then 29 else 28
  else if month = 4 || month = 6 || month = 9 || month = 11 then 30
  else 31

/-- A number with zeros in front up to a width. -/
def padded (width n : Nat) : String :=
  let ds := Nat.toDigits 10 n
  String.ofList (List.replicate (width - ds.length) '0' ++ ds)

/-- A date, in its normal form. -/
def date : Parser String := do
  let year ← fixed 4 0 9999
  char '-'
  let month ← fixed 2 1 12
  char '-'
  let day ← fixed 2 1 31
  if daysIn year month < day then fail
  else pure (padded 4 year ++ "-" ++ padded 2 month ++ "-" ++ padded 2 day)

/-- The fraction of a second in its normal form: nine digits at most, and no zeros at the end. -/
def fractionText (ds : List Char) : String :=
  let ds := ((ds.take 9).reverse.dropWhile (· = '0')).reverse
  if ds.isEmpty then "" else "." ++ String.ofList ds

/-- A time of day, in its normal form. -/
def time : Parser String := do
  let hour ← fixed 2 0 23
  char ':'
  let minute ← fixed 2 0 59
  char ':'
  let second ← fixed 2 0 60
  let fraction ← optional do
    char '.'
    run1 Char.isDigit
  pure (padded 2 hour ++ ":" ++ padded 2 minute ++ ":" ++ padded 2 second
    ++ fractionText (fraction.getD []))

/-- An offset from universal time, in its normal form. -/
def offset : Parser String := do
  match ← peek with
  | some 'Z' => do
    char 'Z'
    pure "Z"
  | some 'z' => do
    char 'z'
    pure "Z"
  | _ => do
    let mark ← either (do char '+'; pure "+") (do char '-'; pure "-")
    let hour ← fixed 2 0 23
    char ':'
    let minute ← fixed 2 0 59
    pure (mark ++ padded 2 hour ++ ":" ++ padded 2 minute)

/-- The time of day that may follow a date. -/
def timeOfDate : Parser String := do
  match ← peek with
  | some c => do
    if c = 'T' || c = 't' || c = ' ' then char c else fail
    let t ← time
    let o ← optional offset
    pure ("T" ++ t ++ o.getD "")
  | none => fail

/-- A date, a time of day or both, as a record of one field. -/
def dateTime : Parser Datum := do
  let s ← either
    (do
      let d ← date
      let t ← optional timeOfDate
      pure (d ++ t.getD ""))
    time
  pure (.record [(Datum.dateField, .text s)])

/-- A number, a date or a time. -/
def number : Parser Datum :=
  either dateTime (either float integer)

end DeclSurface.Toml.Parser
