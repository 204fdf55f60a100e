/-! # Decimal numbers

A number with a fraction is kept as it was read, as a whole number times a power of ten. It is
written by the binary number nearest to it, with 53 significant bits: in the fewest digits that
are nearest to the same binary number. Beyond the numbers there are two infinities, and a value
for what is no number at all.
-/

namespace Enfold

inductive Decimal where
  /-- The number `± mantissa * 10 ^ exponent`. -/
  | finite (negative : Bool) (mantissa : Nat) (exponent : Int)
  | infinite (negative : Bool)
  | notNumber
  deriving DecidableEq, Repr, Inhabited

namespace Decimal

def isZero : Decimal → Bool
  | finite _ m _ => m = 0
  | infinite _ | notNumber => false

/-- The fraction `n * b ^ e` as numerator and denominator. -/
def scaled (b n : Nat) (e : Int) : Nat × Nat :=
  if 0 ≤ e then (n * Nat.pow b e.toNat, 1) else (n, Nat.pow b (-e).toNat)

/-- The whole number nearest to `num / den`; of two, the even one. -/
def roundHalfEven (num den : Nat) : Nat :=
  let q := num / den
  let r := num % den
  if 2 * r < den then q else if den < 2 * r then q + 1 else if q % 2 = 0 then q else q + 1

structure Binary where
  significand : Nat
  power : Int
  deriving DecidableEq, Repr

def smallestPower : Int := -1074

def largestPower : Int := 971

def significandLimit : Nat := Nat.pow 2 53

/-- The nearest binary number of 53 bits; none beyond the largest one. -/
def nearestBinary? (num den : Nat) : Option Binary :=
  if num = 0 then some ⟨0, smallestPower⟩ else
    let guess : Int := (num.log2 : Int) - den.log2 - 52
    let at_ (q : Int) : Nat × Nat :=
      if 0 ≤ q then (num, den * Nat.pow 2 q.toNat) else (num * Nat.pow 2 (-q).toNat, den)
    let floorAt (q : Int) : Nat := (at_ q).1 / (at_ q).2
    let q := if significandLimit ≤ floorAt guess then guess + 1
      else if floorAt guess < significandLimit / 2 then guess - 1 else guess
    let q := max q smallestPower
    let s := roundHalfEven (at_ q).1 (at_ q).2
    let b : Binary := if s = significandLimit then ⟨significandLimit / 2, q + 1⟩ else ⟨s, q⟩
    if b.power > largestPower then none else some b

def leadingExponent (num den : Nat) : Int :=
  let p : Int := ((Nat.toDigits 10 num).length : Int) - (Nat.toDigits 10 den).length
  let (n, d) := if 0 ≤ p then (num, den * Nat.pow 10 p.toNat) else (num * Nat.pow 10 (-p).toNat, den)
  if n < d then p - 1 else p

/-- The nearer of two `n`-digit decimals that read back as `b`. -/
def digitsReadingBack? (b : Binary) (num den n : Nat) : Option (Nat × Int) :=
  let e := leadingExponent num den - (n : Int) + 1
  let (u, v) := if 0 ≤ e then (num, den * Nat.pow 10 e.toNat) else (num * Nat.pow 10 (-e).toNat, den)
  let lo := u / v
  let reads (m : Nat) : Bool :=
    let (x, y) := scaled 10 m e
    nearestBinary? x y = some b
  let nearest := roundHalfEven u v
  if reads nearest then some (nearest, e)
  else if reads lo then some (lo, e)
  else if reads (lo + 1) then some (lo + 1, e)
  else none

/-- The shortest digits that read back as `b`, with an exponent. -/
def shortest (b : Binary) : Nat × Int :=
  let (num, den) := scaled 2 b.significand b.power
  ((List.range 17).findSome? fun i => digitsReadingBack? b num den (i + 1)).getD (0, 0)

/-- A plain point for exponents from -4 to 15, and an exponent of two digits otherwise. -/
def layout (digits : Nat) (last : Int) : String :=
  let ds := ((Nat.toDigits 10 digits).reverse.dropWhile (· = '0')).reverse
  let e : Int := last + (Nat.toDigits 10 digits).length - 1
  let text (cs : List Char) : String := String.ofList cs
  if 0 ≤ e ∧ e < 16 then
    let k := e.toNat + 1
    let whole := ds.take k ++ List.replicate (k - ds.length) '0'
    let rest := ds.drop k
    text whole ++ "." ++ (if rest.isEmpty then "0" else text rest)
  else if -4 ≤ e ∧ e < 0 then
    "0." ++ text (List.replicate ((-e).toNat - 1) '0') ++ text ds
  else
    let shown := toString e.natAbs
    let pad := if shown.length < 2 then "0" else ""
    text (ds.take 1) ++ (if ds.length = 1 then "" else "." ++ text (ds.drop 1)) ++ "e" ++
      (if e < 0 then "-" else "+") ++ pad ++ shown

def signed (negative : Bool) (body : String) : String := if negative then "-" ++ body else body

/-- The text of a number without its sign, unless it is too large. -/
def finiteText? (mantissa : Nat) (exponent : Int) : Option String :=
  let (num, den) := scaled 10 mantissa exponent
  (nearestBinary? num den).map fun b =>
    if b.significand = 0 then "0.0" else
      let (digits, last) := shortest b
      layout digits last

/-- The text of a decimal: the shortest that stands for the same binary number. -/
def text : Decimal → String
  | finite negative m e => signed negative ((finiteText? m e).getD "inf")
  | infinite negative => signed negative "inf"
  | notNumber => "nan"

end Decimal
end Enfold
