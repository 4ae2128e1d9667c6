import Polish.Bytes

namespace Polish.Text

inductive Piece where
  | scalar (c : Char)
  | stray (b : UInt8)
  deriving DecidableEq

def payload? (b : UInt8) : Option Nat :=
  if 0x80 ≤ b && b < 0xC0 then some (b.toNat - 0x80) else none

/-- The scalar value that starts with `b` and how many bytes of the rest belong to it. Overlong forms,
surrogates and values above U+10FFFF are refused. -/
def scalarAt? (b : UInt8) (rest : Bytes) : Option (Char × Nat) :=
  let n := b.toNat
  if n < 0x80 then some (Char.ofNat n, 0)
  else if n < 0xC2 then none
  else if n < 0xE0 then do
    let b1 ← rest[0]?
    let p1 ← payload? b1
    return (Char.ofNat ((n - 0xC0) * 64 + p1), 1)
  else if n < 0xF0 then do
    let p1 ← payload? (← rest[0]?)
    let p2 ← payload? (← rest[1]?)
    let v := ((n - 0xE0) * 64 + p1) * 64 + p2
    if v < 0x800 ∨ (0xD800 ≤ v ∧ v < 0xE000) then none else return (Char.ofNat v, 2)
  else if n < 0xF5 then do
    let p1 ← payload? (← rest[0]?)
    let p2 ← payload? (← rest[1]?)
    let p3 ← payload? (← rest[2]?)
    let v := (((n - 0xF0) * 64 + p1) * 64 + p2) * 64 + p3
    if v < 0x10000 ∨ 0x110000 ≤ v then none else return (Char.ofNat v, 3)
  else none

def piecesAfter : Nat → Bytes → List Piece
  | _, [] => []
  | skip + 1, _ :: rest => piecesAfter skip rest
  | 0, b :: rest => match scalarAt? b rest with
    | some (c, more) => .scalar c :: piecesAfter more rest
    | none => .stray b :: piecesAfter 0 rest

def pieces (text : Bytes) : List Piece := piecesAfter 0 text

def encode (c : Char) : Bytes := String.utf8EncodeChar c

def Piece.bytes : Piece → Bytes
  | .scalar c => encode c
  | .stray b => [b]

def wellFormed (text : Bytes) : Bool :=
  (pieces text).all fun
    | .scalar _ => true
    | .stray _ => false

end Polish.Text
