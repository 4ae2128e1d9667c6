import Polish.Text.Utf8
import Polish.Text.Printable

namespace Polish.Text

private def backslash (c : Char) : Bytes := [ascii '\\', ascii c]

def quotedChar (c : Char) : Bytes :=
  if c = '"' ∨ c = '\\' then backslash c
  else if isPrintable c then encode c
  else match c.toNat with
    | 0x07 => backslash 'a'
    | 0x08 => backslash 'b'
    | 0x0C => backslash 'f'
    | 0x0A => backslash 'n'
    | 0x0D => backslash 'r'
    | 0x09 => backslash 't'
    | 0x0B => backslash 'v'
    | n =>
      if n < 0x80 then backslash 'x' ++ Bytes.hex 2 n
      else if n < 0x10000 then backslash 'u' ++ Bytes.hex 4 n
      else backslash 'U' ++ Bytes.hex 8 n

def quotedPiece : Piece → Bytes
  | .scalar c => quotedChar c
  | .stray b => backslash 'x' ++ Bytes.hex 2 b.toNat

private def between (inner : Bytes) : Bytes := ascii '"' :: inner ++ [ascii '"']

def quoted (text : Bytes) : Bytes := between ((pieces text).flatMap quotedPiece)

def quotedFirst (limit : Nat) (text : Bytes) : Bytes :=
  between (((pieces text).take limit).flatMap quotedPiece)

def literalChar (c : Char) : Bytes :=
  if c = '"' ∨ c = '\\' then backslash c
  else match c.toNat with
    | 0x08 => backslash 'b'
    | 0x0C => backslash 'f'
    | 0x0A => backslash 'n'
    | 0x0D => backslash 'r'
    | 0x09 => backslash 't'
    | n =>
      if n < 0x20 ∨ c = '<' ∨ c = '>' ∨ c = '&' ∨ n = 0x2028 ∨ n = 0x2029 then
        backslash 'u' ++ Bytes.hex 4 n
      else encode c

def literalPiece : Piece → Bytes
  | .scalar c => literalChar c
  | .stray _ => encode (Char.ofNat 0xFFFD)

def literal (text : Bytes) : Bytes := between ((pieces text).flatMap literalPiece)

end Polish.Text
