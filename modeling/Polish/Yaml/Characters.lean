import Polish.Text.Utf8

namespace Polish.Yaml

structure Characters where
  all : List Char
  broken : Bool

namespace Characters

def isAllowed (c : Char) : Bool :=
  let n := c.toNat
  n = 0x09 || n = 0x0A || n = 0x0D || (0x20 ≤ n && n ≤ 0x7E) || n = 0x85
    || (0xA0 ≤ n && n ≤ 0xFFFD) || 0x10000 ≤ n

inductive Start where
  | character (c : Char) (width : Nat)
  | incomplete
  | invalid

def Start.ofCode (n width : Nat) : Start :=
  if isAllowed (Char.ofNat n) then .character (Char.ofNat n) width else .invalid

inductive Encoding where
  | utf8
  | utf16 (bigEndian : Bool)

def width (b : UInt8) : Nat :=
  if b < 0x80 then 1 else if b < 0xC0 then 0 else if b < 0xE0 then 2 else if b < 0xF0 then 3
  else if b < 0xF8 then 4 else 0

def Start.ofUtf8 : Bytes → Start
  | [] => .incomplete
  | b :: rest =>
    if width b = 0 then .invalid
    else if (rest.take (width b - 1)).length < width b - 1 then .incomplete
    else match Text.scalarAt? b rest with
      | some (c, _) => if isAllowed c then .character c (width b) else .invalid
      | none => .invalid

def unit (bigEndian : Bool) (a b : UInt8) : Nat :=
  if bigEndian then a.toNat * 256 + b.toNat else b.toNat * 256 + a.toNat

def Start.ofUtf16 (bigEndian : Bool) : Bytes → Start
  | a :: b :: rest =>
    let n := unit bigEndian a b
    if n < 0xD800 ∨ 0xE000 ≤ n then .ofCode n 2
    else if 0xDC00 ≤ n then .invalid
    else match rest with
      | c :: d :: _ =>
        let low := unit bigEndian c d
        if 0xDC00 ≤ low ∧ low < 0xE000 then .ofCode (0x10000 + (n - 0xD800) * 1024 + (low - 0xDC00)) 4
        else .invalid
      | _ => .incomplete
  | _ => .incomplete

def Start.ofBytes : Encoding → Bytes → Start
  | .utf8 => ofUtf8
  | .utf16 bigEndian => ofUtf16 bigEndian

def block (e : Encoding) : Nat → Bytes → Option (List Char × Bytes)
  | 0, bytes => some ([], bytes)
  | n + 1, bytes =>
    if bytes.isEmpty then some ([], [])
    else match Start.ofBytes e bytes with
      | .character c width => do
        let (cs, rest) ← block e n (bytes.drop width)
        return (c :: cs, rest)
      | .incomplete => some ([], bytes)
      | .invalid => none

def blockSize : Nat := 512

def blocks (e : Encoding) : Nat → Nat → Bytes → Characters
  | 0, _, _ => ⟨[], false⟩
  | n + 1, size, bytes =>
    match block e size (bytes.take size) with
    | none => ⟨[], true⟩
    | some (cs, rest) =>
      let later := bytes.drop size
      if later.isEmpty then ⟨cs, !rest.isEmpty⟩
      else
        let more := blocks e n blockSize (rest ++ later)
        { more with all := cs ++ more.all }

def ofText (text : Bytes) : Characters :=
  let decode (e : Encoding) (mark : Nat) : Characters :=
    blocks e (text.length + 1) (blockSize - mark) (text.drop mark)
  if [0xFF, 0xFE].isPrefixOf text then decode (.utf16 false) 2
  else if [0xFE, 0xFF].isPrefixOf text then decode (.utf16 true) 2
  else if [0xEF, 0xBB, 0xBF].isPrefixOf text then decode .utf8 3
  else decode .utf8 0

end Characters

end Polish.Yaml
