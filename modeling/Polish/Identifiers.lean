import Polish.Bytes
import Polish.Letters

namespace Polish

structure Identifiers (σ : Type) where
  source : σ
  entries : List (Bytes × Bytes) := []

namespace Identifiers

def dollar : UInt8 := ascii '$'

def isKept (b : UInt8) : Bool := Bytes.isLower b || Bytes.isUpper b || Bytes.isDigit b || b == dollar

def stem (name : Bytes) : Bytes :=
  let kept := name.filter isKept
  let safe := match kept with
    | b :: _ => if Bytes.isDigit b then dollar :: kept else kept
    | [] => []
  safe ++ [dollar]

def letterByte (l : Letter) : UInt8 := ascii 'a' + l.val.toUInt8

variable {σ : Type} [LetterSource σ]

/-- Adds letters to a text until it is not among the used ones, at most `limit` letters. As the text grows
with every letter, one more than the number of used texts is enough. -/
def extend (used : List Bytes) : Nat → Bytes → σ → Bytes × σ
  | 0, text, s => (text, s)
  | limit + 1, text, s =>
    let (l, s) := LetterSource.draw s
    let text := text ++ [letterByte l]
    if used.contains text then extend used limit text s else (text, s)

def identify (ids : Identifiers σ) (name : Bytes) : Bytes × Identifiers σ :=
  match ids.entries.lookup name with
  | some id => (id, ids)
  | none =>
    let (id, source) := extend (ids.entries.map (·.2)) (ids.entries.length + 1) (stem name) ids.source
    (id, { source, entries := (name, id) :: ids.entries })

omit [LetterSource σ] in
def nameOf? (ids : Identifiers σ) (id : Bytes) : Option Bytes :=
  (ids.entries.find? (·.2 == id)).map (·.1)

omit [LetterSource σ] in
def size (ids : Identifiers σ) : Nat := ids.entries.length

end Identifiers

end Polish
