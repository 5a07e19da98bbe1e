import CodeInsight.Text.Basic

/-!
# Numbers, Booleans and dates in TOML

Which words are values. What they stand for is of no interest here.
-/

namespace CodeInsight.Toml

/-- Digits with single underscores between them. -/
def isGrouped (isDigit : Char → Bool) (cs : Text) : Bool :=
  (Text.splitOn '_' cs).all fun part => part ≠ [] && part.all isDigit

def unsigned : Text → Text
  | '+' :: rest => rest
  | '-' :: rest => rest
  | cs => cs

/-- Digits of a decimal number, which do not begin with a zero. -/
def isDecimal (cs : Text) : Bool :=
  isGrouped Char.isDigit cs && (cs.length = 1 || cs.head? ≠ some '0')

def isHexDigit (c : Char) : Bool := c.isDigit || ('a' ≤ c && c ≤ 'f') || ('A' ≤ c && c ≤ 'F')

def groupedValue (base : Nat) (cs : Text) : Nat :=
  (cs.filter (· ≠ '_')).foldl (fun n c =>
    n * base + (if c.isDigit then c.toNat - 48 else (c.toLower.toNat - 87))) 0

/-- An integer. There is room for those of 128 bits, with a sign or without. -/
def isInteger (cs : Text) : Bool :=
  match cs with
  | '0' :: 'x' :: ds => isGrouped isHexDigit ds && groupedValue 16 ds < Nat.pow 2 128
  | '0' :: 'o' :: ds =>
    isGrouped (fun c => '0' ≤ c && c ≤ '7') ds && groupedValue 8 ds < Nat.pow 2 128
  | '0' :: 'b' :: ds =>
    isGrouped (fun c => c == '0' || c == '1') ds && groupedValue 2 ds < Nat.pow 2 128
  | '-' :: ds => isDecimal ds && groupedValue 10 ds ≤ Nat.pow 2 127
  | _ => isDecimal (unsigned cs) && groupedValue 10 (unsigned cs) < Nat.pow 2 128

def divide (atMark : Char → Bool) (cs : Text) : Text × Option Text :=
  let before := cs.takeWhile fun c => !atMark c
  match cs.dropWhile fun c => !atMark c with
  | _ :: rest => (before, some rest)
  | [] => (before, none)

/-- The least number that rounds beyond the floating-point numbers of 64 bits. -/
def floatBound : Nat := Nat.pow 2 1024 - Nat.pow 2 970

/-- The number that `digits` stand for, divided by ten so many `places`, is not beyond the
floating-point numbers. -/
def isFiniteQuotient (digits : Text) (places : Nat) : Bool :=
  if digits.length ≤ places then true
  else decide (groupedValue 10 digits < floatBound * Nat.pow 10 places)

/-- The number that `digits` stand for, multiplied by ten so many `places`, is not beyond the
floating-point numbers. All of these have fewer places than 400. -/
def isFiniteProduct (digits : Text) (places : Nat) : Bool :=
  if 400 ≤ places then groupedValue 10 digits == 0
  else decide (groupedValue 10 digits * Nat.pow 10 places < floatBound)

/-- Digits, of which `fraction` stand after the point, with a decimal exponent are not beyond the
floating-point numbers. -/
def isFinite (digits : Text) (fraction : Nat) (exponent : Text) : Bool :=
  let places := groupedValue 10 (unsigned exponent)
  if exponent.head? = some '-' then isFiniteQuotient digits (fraction + places)
  else if places ≤ fraction then isFiniteQuotient digits (fraction - places)
  else isFiniteProduct digits (places - fraction)

/-- A number with a fraction or an exponent that is not too large, or a word for the infinite one or
for none. -/
def isFloat (cs : Text) : Bool :=
  let cs := unsigned cs
  if cs = ['i', 'n', 'f'] || cs = ['n', 'a', 'n'] then true
  else
    let (mantissa, exponent) := divide (fun c => c == 'e' || c == 'E') cs
    let (whole, fraction) := divide (· == '.') mantissa
    let decimals := (fraction.getD []).filter (· ≠ '_')
    (fraction.isSome || exponent.isSome) && isDecimal whole &&
      fraction.all (isGrouped Char.isDigit) &&
      exponent.all (fun e => isGrouped Char.isDigit (unsigned e)) &&
      isFinite (whole.filter (· ≠ '_') ++ decimals) decimals.length (exponent.getD [])

/-! ## Dates and times -/

/-- A number of a fixed count of digits between two bounds. -/
def isField (count low high : Nat) (cs : Text) : Bool :=
  cs.length = count && cs.all Char.isDigit && low ≤ groupedValue 10 cs &&
    groupedValue 10 cs ≤ high

def isLeap (year : Nat) : Bool := year % 4 = 0 && (year % 100 ≠ 0 || year % 400 = 0)

def daysOf (year month : Nat) : Nat :=
  if month = 2 then (if isLeap year then 29 else 28)
  else if month = 4 || month = 6 || month = 9 || month = 11 then 30
  else 31

def isDate (cs : Text) : Bool :=
  match Text.splitOn '-' cs with
  | [year, month, day] =>
    isField 4 0 9999 year && isField 2 1 12 month &&
      isField 2 1 (daysOf (groupedValue 10 year) (groupedValue 10 month)) day
  | _ => false

/-- A fraction of a second to at most nine places, without the zeros at its end but for one. -/
def shortFraction (cs : Text) : Text :=
  match ((cs.take 9).reverse.dropWhile (· == '0')).reverse with
  | [] => ['0']
  | digits => digits

def seconds? (cs : Text) : Option Text := do
  let (whole, fraction) := divide (· == '.') cs
  guard (isField 2 0 60 whole)
  match fraction with
  | none => return whole
  | some digits =>
    guard (digits ≠ [] && digits.all Char.isDigit)
    return whole ++ '.' :: shortFraction digits

/-- A time of the day. Seconds may be left out. -/
def time? (cs : Text) : Option Text :=
  match Text.splitOn ':' cs with
  | [hour, minute] => do
    guard (isField 2 0 23 hour && isField 2 0 59 minute)
    return cs
  | [hour, minute, second] => do
    guard (isField 2 0 23 hour && isField 2 0 59 minute)
    return hour ++ ':' :: minute ++ ':' :: (← seconds? second)
  | _ => none

/-- An offset from universal time after its sign. There is no negative offset of nothing. -/
def offset? (sign : Char) (cs : Text) : Option Text :=
  match Text.splitOn ':' cs with
  | [hour, minute] => do
    guard (isField 2 0 23 hour && isField 2 0 59 minute)
    let nothing := groupedValue 10 hour = 0 && groupedValue 10 minute = 0
    return (if nothing then '+' else sign) :: cs
  | _ => none

/-- A time of the day followed by an offset from universal time, if there is one. -/
def offsetTime? (cs : Text) : Option Text :=
  match cs.reverse with
  | 'Z' :: rest | 'z' :: rest => do return (← time? rest.reverse) ++ ['Z']
  | _ =>
    match cs.dropWhile fun c => c != '+' && c != '-' with
    | sign :: offset => do
      return (← time? (cs.takeWhile fun c => c != '+' && c != '-')) ++ (← offset? sign offset)
    | [] => time? cs

/-- A date, a time, or both, in the form in which it is written back. -/
def moment? (cs : Text) : Option String :=
  let date := cs.take 10
  let both := match cs.drop 10 with
    | 'T' :: time | 't' :: time | ' ' :: time =>
      if isDate date then (offsetTime? time).map fun time => date ++ 'T' :: time else none
    | [] => if isDate date then some date else none
    | _ => none
  (both <|> time? cs).map String.ofList

def isScalar (cs : Text) : Bool :=
  cs = ['t', 'r', 'u', 'e'] || cs = ['f', 'a', 'l', 's', 'e'] || isInteger cs || isFloat cs

end CodeInsight.Toml
