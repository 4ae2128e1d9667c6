import Polish.Bytes

namespace Polish

def binade : Nat := 1 <<< 52

def rankLimit : Nat := 2047 * binade

inductive Double where
  | finite (negative : Bool) (rank : Fin rankLimit)
  | infinite (negative : Bool)
  | nan
  deriving DecidableEq

namespace Double

/-- The spacing of doubles doubles with each binade; this is the binary logarithm of the spacing around
a rank, in units of the smallest positive double. -/
def spacing (rank : Nat) : Nat := rank / binade - 1

def magnitude (rank : Nat) : Nat := (rank - spacing rank * binade) <<< spacing rank

def nearest (num den : Nat) : Nat :=
  let q := num / den
  let r := num % den
  if 2 * r < den ∨ (2 * r = den ∧ q % 2 = 0) then q else q + 1

/-- The rank whose magnitude is nearest to `units / den`, a half going to the even rank; it may lie beyond
the finite ones. -/
def nearestRank (units den : Nat) : Nat :=
  let scale := (units / den).log2 - 52
  scale * binade + nearest units (den <<< scale)

def inUnits (n : Nat) : Nat := n <<< 1074

def ofRank (negative : Bool) (rank : Nat) : Double :=
  if h : rank < rankLimit then .finite negative ⟨rank, h⟩ else .infinite negative

def zero (negative : Bool) : Double := ofRank negative 0

/-- The double nearest to `digits · 10 ^ exponent`. Beyond 10³¹⁰ and below 10⁻³³⁰ the answer is known
without the power. -/
def ofDecimal (negative : Bool) (digits : Nat) (exponent : Int) : Double :=
  let size : Int := (Nat.toDigits 10 digits).length
  if digits = 0 ∨ exponent + size < -330 then zero negative
  else if 310 < exponent + size then .infinite negative
  else match exponent with
    | .ofNat e => ofRank negative (nearestRank (inUnits (digits * Nat.pow 10 e)) 1)
    | .negSucc e => ofRank negative (nearestRank (inUnits digits) (Nat.pow 10 (e + 1)))

end Double

end Polish
