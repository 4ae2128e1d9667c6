import Polish.Bytes

namespace Polish.Text.Base64

def digit? (b : UInt8) : Option Nat :=
  if Bytes.isUpper b then some (b.toNat - (ascii 'A').toNat)
  else if Bytes.isLower b then some (b.toNat - (ascii 'a').toNat + 26)
  else if Bytes.isDigit b then some (b.toNat - (ascii '0').toNat + 52)
  else if b = ascii '+' then some 62
  else if b = ascii '/' then some 63
  else none

def group (a b c d : Nat) : Bytes :=
  let n := ((a * 64 + b) * 64 + c) * 64 + d
  [(n / 65536).toUInt8, (n / 256 % 256).toUInt8, (n % 256).toUInt8]

def groups : Bytes → Option Bytes
  | [] => some []
  | a :: b :: c :: d :: rest =>
    let fill := ascii '='
    if d = fill then
      if !rest.isEmpty then none
      else if c = fill then do return (group (← digit? a) (← digit? b) 0 0).take 1
      else do return (group (← digit? a) (← digit? b) (← digit? c) 0).take 2
    else do return group (← digit? a) (← digit? b) (← digit? c) (← digit? d) ++ (← groups rest)
  | _ => none

def decode? (text : Bytes) : Option Bytes :=
  groups (text.filter fun b => b != ascii '\n' && b != ascii '\r')

end Polish.Text.Base64
