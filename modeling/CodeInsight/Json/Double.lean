/-!
# Binary floating-point numbers

Numbers with a fraction are kept in double precision. Results are rounded to the nearest double, to
the even one of two that are equally near. A numeral is read in two steps, its digits first and its
power of ten afterwards, so that it may be off by the last place (`scaled?`). Doubles are written
with the fewest digits that single out the number (`text`).
-/

namespace CodeInsight

/-- A finite number `± mantissa · 2 ^ exponent` with at most 53 bits in its mantissa. -/
structure Double where
  negative : Bool
  mantissa : Nat
  exponent : Int
  deriving DecidableEq, Repr

namespace Double

/-- A quotient rounded to the nearest number, to the even one in the middle. -/
def roundDiv (num den : Nat) : Nat :=
  let floor := num / den
  let rest := 2 * (num % den)
  if rest < den then floor else if den < rest then floor + 1 else floor + floor % 2

/-- The fraction `num / den` divided by a power of two. -/
def scaleDown (num den : Nat) (exponent : Int) : Nat × Nat :=
  if exponent < 0 then (num * Nat.pow 2 exponent.natAbs, den)
  else (num, den * Nat.pow 2 exponent.natAbs)

def minExponent : Int := -1074

def maxExponent : Int := 971

def exponentOf (num den : Nat) : Int :=
  let guess : Int := (Nat.log2 num : Int) - (Nat.log2 den : Int) - 52
  let (n, d) := scaleDown num den guess
  max minExponent (if n / d < Nat.pow 2 52 then guess - 1 else guess)

/-- Mantissa and exponent of the double nearest to a positive fraction, if it is finite. -/
def nearest? (num den : Nat) : Option (Nat × Int) :=
  let exponent := exponentOf num den
  let (n, d) := scaleDown num den exponent
  let mantissa := roundDiv n d
  let (mantissa, exponent) :=
    if mantissa = Nat.pow 2 53 then (Nat.pow 2 52, exponent + 1) else (mantissa, exponent)
  if maxExponent < exponent then none else some (mantissa, exponent)

/-- The double nearest to `digits · 10 ^ exponent`, if it is finite. -/
def ofDecimal? (negative : Bool) (digits : Nat) (exponent : Int) : Option Double :=
  let length : Int := (Nat.toDigits 10 digits).length
  if digits = 0 ∨ exponent + length < -400 then some ⟨negative, 0, 0⟩
  else if 400 < exponent + length then none
  else
    let fraction :=
      if exponent < 0 then nearest? digits (Nat.pow 10 exponent.natAbs)
      else nearest? (digits * Nat.pow 10 exponent.natAbs) 1
    fraction.map fun (mantissa, e) =>
      if mantissa = 0 then ⟨negative, 0, 0⟩ else ⟨negative, mantissa, e⟩

def fraction (d : Double) : Nat × Nat :=
  if d.exponent < 0 then (d.mantissa, Nat.pow 2 d.exponent.natAbs)
  else (d.mantissa * Nat.pow 2 d.exponent.natAbs, 1)

/-! ## Reading in two steps -/

def ofFraction? (negative : Bool) (num den : Nat) : Option Double :=
  if num = 0 then some ⟨negative, 0, 0⟩
  else (nearest? num den).map fun (mantissa, e) =>
    if mantissa = 0 then ⟨negative, 0, 0⟩ else ⟨negative, mantissa, e⟩

/-- The double nearest to a power of ten, as a fraction. -/
def tenPower (places : Nat) : Nat × Nat :=
  match ofFraction? false (Nat.pow 10 places) 1 with
  | some d => d.fraction
  | none => (1, 1)

/-- The greatest power of ten that is a finite double. -/
def maxPlaces : Nat := 308

/-- The product with a power of ten, if it is finite. -/
def timesTen? (d : Double) (places : Nat) : Option Double :=
  if d.mantissa = 0 then some d
  else if maxPlaces < places then none
  else
    let (num, den) := d.fraction
    let (n, e) := tenPower places
    ofFraction? d.negative (num * n) (den * e)

/-- The quotient by a power of ten, by one that is finite at a time and at most `fuel` of them. A
double is zero after a few of these. -/
def overTen? : Nat → Double → Nat → Option Double
  | 0, d, _ => some ⟨d.negative, 0, 0⟩
  | fuel + 1, d, places => do
    let (num, den) := d.fraction
    let (n, e) := tenPower (min places maxPlaces)
    let quotient ← ofFraction? d.negative (num * e) (den * n)
    if places ≤ maxPlaces then return quotient
    overTen? fuel quotient (places - maxPlaces)

/-- The digits of a numeral, rounded, times a power of ten, rounded, if the result is finite. -/
def scaled? (negative : Bool) (digits : Nat) (exponent : Int) : Option Double := do
  let d ← ofFraction? negative digits 1
  if exponent < 0 then overTen? 4 d exponent.natAbs else timesTen? d exponent.natAbs

/-! ## The fewest digits that read back -/

/-- How often a fraction has to be multiplied by ten to reach one, at most `fuel` times. -/
def leadingZeros : Nat → Nat → Nat → Nat
  | 0, _, _ => 0
  | fuel + 1, num, den => if den ≤ num then 0 else leadingZeros fuel (num * 10) den + 1

/-- The number of digits before the decimal point; negative when zeros follow the point. -/
def pointOf (num den : Nat) : Int :=
  if den ≤ num then (Nat.toDigits 10 (num / den)).length else 1 - (leadingZeros 400 num den : Int)

/-- The numerals of some number of digits next to a fraction, the nearer first. -/
def neighbours (num den : Nat) (exponent : Int) : List Nat :=
  let (n, d) :=
    if exponent < 0 then (num * Nat.pow 10 exponent.natAbs, den)
    else (num, den * Nat.pow 10 exponent.natAbs)
  let floor := n / d
  if 2 * (n % d) < d then [floor, floor + 1] else [floor + 1, floor]

/-- The shortest numeral that reads back, with its decimal exponent; `count` digits are tried
first. -/
def shortestFrom (d : Double) (point : Int) : Nat → Nat → Nat × Int
  | 0, _ => (0, 0)
  | fuel + 1, count =>
    let (num, den) := d.fraction
    let exponent := point - count
    match (neighbours num den exponent).find? fun n =>
        ofDecimal? d.negative n exponent = some d with
    | some n => (n, exponent)
    | none => shortestFrom d point fuel (count + 1)

/-- A power of ten with its sign and two digits at least. -/
def powerText (power : Int) : List Char :=
  let digits := Nat.toDigits 10 power.natAbs
  (if power < 0 then '-' else '+') :: List.replicate (2 - digits.length) '0' ++ digits

/-- Digits with a point behind the first `point` of them, or with an exponent where that is
shorter. -/
def layout (digits : List Char) (point : Int) : List Char :=
  let count : Int := digits.length
  let zeros (n : Int) : List Char := List.replicate n.toNat '0'
  if count ≤ point ∧ point ≤ 16 then digits ++ zeros (point - count) ++ ['.', '0']
  else if 0 < point ∧ point ≤ 16 then
    digits.take point.toNat ++ '.' :: digits.drop point.toNat
  else if -5 < point ∧ point ≤ 0 then '0' :: '.' :: (zeros (-point) ++ digits)
  else
    let mantissa := if count = 1 then digits else digits.take 1 ++ '.' :: digits.drop 1
    mantissa ++ 'e' :: powerText (point - 1)

def withoutZeros (digits : List Char) : List Char :=
  (digits.reverse.dropWhile (· == '0')).reverse

def text (d : Double) : String :=
  let sign := if d.negative then ['-'] else []
  if d.mantissa = 0 then String.ofList (sign ++ ['0', '.', '0'])
  else
    let (num, den) := d.fraction
    let (n, exponent) := shortestFrom d (pointOf num den) 17 1
    let digits := Nat.toDigits 10 n
    String.ofList (sign ++ layout (withoutZeros digits) (exponent + digits.length))

end Double

end CodeInsight
