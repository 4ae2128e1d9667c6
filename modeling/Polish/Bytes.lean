namespace Polish

abbrev Bytes := List UInt8

def ascii (c : Char) : UInt8 := c.toNat.toUInt8

def utf8 (s : String) : Bytes := s.toUTF8.data.toList

namespace Bytes

def decimal (n : Nat) : Bytes := (Nat.toDigits 10 n).map ascii

def integer : Int → Bytes
  | .ofNat n => decimal n
  | .negSucc n => ascii '-' :: decimal (n + 1)

def isDigit (b : UInt8) : Bool := ascii '0' ≤ b && b ≤ ascii '9'

def isLower (b : UInt8) : Bool := ascii 'a' ≤ b && b ≤ ascii 'z'

def isUpper (b : UInt8) : Bool := ascii 'A' ≤ b && b ≤ ascii 'Z'

def le (a b : Bytes) : Bool := !decide (b < a)

def split (separator : UInt8) : Bytes → List Bytes
  | [] => [[]]
  | b :: rest =>
    if b = separator then [] :: split separator rest
    else match split separator rest with
      | [] => [[b]]
      | piece :: pieces => (b :: piece) :: pieces

def after? (start : Bytes) (text : Bytes) : Option Bytes :=
  if start.isPrefixOf text then some (text.drop start.length) else none

def hexDigit (n : Nat) : UInt8 :=
  if n < 10 then ascii '0' + n.toUInt8 else ascii 'a' + (n - 10).toUInt8

def hex : Nat → Nat → Bytes
  | 0, _ => []
  | width + 1, n => hex width (n / 16) ++ [hexDigit (n % 16)]

end Bytes

end Polish
