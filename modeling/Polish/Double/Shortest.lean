import Polish.Double

namespace Polish

/-- A positive decimal `0.d₁d₂… · 10 ^ (point)`, that is, `digits` read as an integer with the decimal
point after the first `point` digits. The last digit is not zero. -/
structure Digits where
  digits : Bytes
  point : Int
  deriving DecidableEq

namespace Double

def leadingShift : Nat := 330

def leadingExponent (units : Nat) : Int :=
  let shifted := units * Nat.pow 10 leadingShift / inUnits 1
  ((Nat.toDigits 10 shifted).length : Int) - 1 - leadingShift

def inPlace (units : Nat) (place : Int) : Nat × Nat :=
  match place with
  | .ofNat p => (units, inUnits 1 * Nat.pow 10 p)
  | .negSucc p => (units * Nat.pow 10 (p + 1), inUnits 1)

/-- Whether `n · 10 ^ place` reads as the double of the given rank: it lies between the midpoints to the
two neighbours, and on a midpoint only if the rank is even. -/
def readsAs (rank : Nat) (place : Int) (n : Nat) : Bool :=
  let (low, den) := inPlace (magnitude (rank - 1) + magnitude rank) place
  let (high, _) := inPlace (magnitude rank + magnitude (rank + 1)) place
  let twice := 2 * n * den
  if rank % 2 = 0 then low ≤ twice && twice ≤ high else low < twice && twice < high

def candidate? (rank : Nat) (place : Int) : Option Nat :=
  let (num, den) := inPlace (magnitude rank) place
  let below := num / den
  match readsAs rank place below, readsAs rank place (below + 1) with
  | true, true => some (nearest num den)
  | true, false => some below
  | false, true => some (below + 1)
  | false, false => none

def firstCandidate (rank : Nat) (place : Int) : Nat → Nat × Int
  | 0 => let (num, den) := inPlace (magnitude rank) place
         (nearest num den, place)
  | more + 1 => match candidate? rank place with
    | some n => (n, place)
    | none => firstCandidate rank (place - 1) more

def trimZeros (digits : Bytes) : Bytes := (digits.reverse.dropWhile (· == ascii '0')).reverse

def digitsOf (n : Nat) (place : Int) : Digits :=
  let digits := Bytes.decimal n
  ⟨trimZeros digits, place + digits.length⟩

def shortest (rank : Nat) : Digits :=
  let found := firstCandidate rank (leadingExponent (magnitude rank)) 16
  digitsOf found.1 found.2

end Double

/-- How a decimal is laid out: positionally while the exponent of the first digit is at least `least` and
less than `most`, else with an exponent of at least two digits and a sign. -/
structure Layout where
  least : Int
  most : Int

namespace Layout

def general : Layout := ⟨-4, 6⟩

def fraction (digits : Bytes) : Bytes :=
  if digits.isEmpty then [] else ascii '.' :: digits

def positional (d : Digits) : Bytes :=
  match d.point with
  | .ofNat p =>
    if p = 0 then ascii '0' :: fraction d.digits
    else d.digits.take p ++ List.replicate (p - d.digits.length) (ascii '0') ++ fraction (d.digits.drop p)
  | .negSucc p => ascii '0' :: fraction (List.replicate (p + 1) (ascii '0') ++ d.digits)

def scientific (d : Digits) : Bytes :=
  let exponent := d.point - 1
  let sign := if exponent < 0 then ascii '-' else ascii '+'
  let size := Bytes.decimal exponent.natAbs
  d.digits.take 1 ++ fraction (d.digits.drop 1) ++ [ascii 'e', sign]
    ++ List.replicate (2 - size.length) (ascii '0') ++ size

def write (layout : Layout) (d : Digits) : Bytes :=
  let exponent := d.point - 1
  if exponent < layout.least ∨ layout.most ≤ exponent then scientific d else positional d

end Layout

def Double.finiteText (negative : Bool) (rank : Nat) : Bytes :=
  let sign := if negative then [ascii '-'] else []
  sign ++ if rank = 0 then [ascii '0'] else Layout.general.write (Double.shortest rank)

end Polish
