import Polish.Double

namespace Polish.Double

def digitRun (text : Bytes) : Bytes × Bytes :=
  (text.takeWhile Bytes.isDigit, text.dropWhile Bytes.isDigit)

def digitValue (d : UInt8) : Nat := d.toNat - (ascii '0').toNat

theorem digitValue_le {d : UInt8} (h : Bytes.isDigit d = true) : digitValue d ≤ 9 := by
  simp only [Bytes.isDigit, Bool.and_eq_true, decide_eq_true_eq] at h
  exact Nat.sub_le_of_le_add (UInt8.le_iff_toNat_le.1 h.2)

def digitsValue (digits : Bytes) : Nat := digits.foldl (fun n d => n * 10 + digitValue d) 0

def sign (text : Bytes) : Bool × Bytes :=
  match text with
  | b :: rest => if b = ascii '-' then (true, rest) else if b = ascii '+' then (false, rest) else (false, text)
  | [] => (false, [])

def exponentLimit : Nat := 10000

def exponentValue (digits : Bytes) : Nat :=
  digits.foldl (fun e d => if e < exponentLimit then e * 10 + digitValue d else e) 0

theorem foldl_exponent_eq (digits : Bytes) (e : Nat) (hd : ∀ d ∈ digits, Bytes.isDigit d)
    (he : (e + 1) * Nat.pow 10 digits.length ≤ 10 * exponentLimit) :
    digits.foldl (fun e d => if e < exponentLimit then e * 10 + digitValue d else e) e
      = digits.foldl (fun n d => n * 10 + digitValue d) e := by
  induction digits generalizing e with
  | nil => rfl
  | cons d rest ih =>
    have hv := digitValue_le (hd d List.mem_cons_self)
    rw [List.length_cons, Nat.pow_eq, Nat.pow_succ, Nat.mul_comm (10 ^ rest.length), ← Nat.mul_assoc] at he
    have hlt : e < exponentLimit := by
      have := Nat.le_trans (Nat.le_mul_of_pos_right ((e + 1) * 10) (Nat.pow_pos (n := rest.length) (by decide))) he
      omega
    rw [List.foldl_cons, List.foldl_cons, if_pos hlt]
    refine ih _ (fun x hx => hd x (List.mem_cons_of_mem d hx)) (Nat.le_trans (Nat.mul_le_mul_right _ ?_) he)
    omega

theorem exponentValue_eq_digitsValue {digits : Bytes} (hd : ∀ d ∈ digits, Bytes.isDigit d)
    (hl : digits.length ≤ 5) : exponentValue digits = digitsValue digits := by
  refine foldl_exponent_eq digits 0 hd ?_
  have : 10 ^ digits.length ≤ 10 ^ 5 := Nat.pow_le_pow_right (by decide) hl
  simpa [exponentLimit] using this

def exponentPart (text : Bytes) : Int :=
  match text with
  | b :: rest =>
    if b = ascii 'e' ∨ b = ascii 'E' then
      let (negative, rest) := sign rest
      let n : Int := exponentValue (digitRun rest).1
      if negative then -n else n
    else 0
  | [] => 0

def fractionPart (text : Bytes) : Bytes × Bytes :=
  match text with
  | b :: rest => if b = ascii '.' then digitRun rest else ([], text)
  | [] => ([], [])

def wordDigits : Nat := 19

/-- Whether the first 19 digits settle a number with its point after some of its digits, whatever
comes later: the number that they make and the next one round alike. -/
def isSettled (digits : Bytes) (point : Int) : Bool :=
  let n := digitsValue (digits.take wordDigits)
  let exponent := point - wordDigits
  let later := digits.drop wordDigits
  exponent ≤ 347 && -348 ≤ exponent
    && (later.all (· == ascii '0') || ofDecimal false n exponent == ofDecimal false (n + 1) exponent)

def placeLimit : Nat := 800

/-- How many digits before the point have no place. If the first digits settle a number, none is missed. -/
def lostPlaces (whole fraction : Bytes) (exponent : Int) : Nat :=
  if isSettled (whole ++ fraction) (whole.length + exponent) then 0 else whole.length - placeLimit

def ofParts (negative : Bool) (whole fraction : Bytes) (exponent : Int) : Double :=
  let whole := whole.dropWhile (· = ascii '0')
  ofDecimal negative (digitsValue (whole ++ fraction))
    (exponent - fraction.length - lostPlaces whole fraction exponent)

/-- No digit is lost if there are not too many before the point. -/
theorem ofParts_eq_ofDecimal {negative : Bool} {whole fraction : Bytes} {exponent : Int}
    (h : whole.length ≤ placeLimit) :
    ofParts negative whole fraction exponent
      = ofDecimal negative (digitsValue (whole.dropWhile (· = ascii '0') ++ fraction)) (exponent - fraction.length) := by
  have hw : (whole.dropWhile (· = ascii '0')).length ≤ placeLimit :=
    Nat.le_trans (List.dropWhile_sublist _).length_le h
  simp only [ofParts, lostPlaces, Nat.sub_eq_zero_of_le hw, ite_self]
  congr 1
  simp

def exponentLength (text : Bytes) : Nat :=
  match text with
  | b :: rest =>
    if b = ascii 'e' ∨ b = ascii 'E' then
      let unsigned := (sign rest).2
      let digits := (digitRun unsigned).1
      if digits.isEmpty then 0 else 1 + (rest.length - unsigned.length) + digits.length
    else 0
  | [] => 0

def decimalText? (token : Bytes) : Option Bytes :=
  let (whole, rest) := digitRun (sign token).2
  let (fraction, rest) := fractionPart rest
  if whole.isEmpty && fraction.isEmpty then none
  else some (token.take (token.length - rest.length + exponentLength rest))

def ofDecimalText? (text : Bytes) : Option Double :=
  let (negative, body) := sign text
  let (whole, rest) := digitRun body
  let (fraction, rest) := fractionPart rest
  if whole.isEmpty && fraction.isEmpty then none
  else if exponentLength rest = rest.length then some (ofParts negative whole fraction (exponentPart rest))
  else none

def ofToken? (token : Bytes) : Option Double :=
  let (negative, body) := sign token
  if (utf8 "Infinity").isPrefixOf body then some (.infinite negative)
  else match decimalText? token with
    | none => none
    | some text => ofDecimalText? text

end Polish.Double
