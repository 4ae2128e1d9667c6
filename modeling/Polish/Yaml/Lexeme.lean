import Polish.Yaml.Characters
import Polish.Yaml.Reader

namespace Polish.Yaml

inductive Gap where
  | blanks (cs : List Char)
  | breaks (first more : List Char)

namespace Gap

def fold : Gap → List Char
  | .blanks cs => cs
  | .breaks first more =>
    if first = ['\n'] then if more.isEmpty then [' '] else more
    else first ++ more

def isBreaks : Gap → Bool
  | .breaks _ _ => true
  | .blanks _ => false

def extend (g : Gap) (r : Reader) : Gap × Reader :=
  match r.rest with
  | [] => (g, r)
  | c :: _ =>
    if isBreak c then
      let (text, r) := r.passBreak
      match g with
      | .blanks _ => (.breaks text [], r)
      | .breaks first more => (.breaks first (more ++ text), r)
    else match g with
      | .blanks cs => (.blanks (cs ++ [c]), r.skip)
      | .breaks _ _ => (g, r.skip)

end Gap

namespace Lexeme

def plainRun (flow : Bool) : List Char → List Char
  | [] => []
  | c :: rest =>
    if isBlank c || isBreak c || (c = ':' && atGap rest) then []
    else if flow && [',', '?', '[', ']', '\x7b', '\x7d'].contains c then []
    else c :: plainRun flow rest

def plainGap (indent : Int) : Nat → Reader → Gap → Option (Gap × Reader)
  | 0, r, g => some (g, r)
  | n + 1, r, g =>
    match r.rest with
    | [] => some (g, r)
    | c :: _ =>
      if c = '\t' && g.isBreaks && (r.column : Int) ≤ indent then none
      else if isBlank c || isBreak c then
        let (g, r) := g.extend r
        plainGap indent n r g
      else some (g, r)

/-- A plain scalar, of which a text and a gap are read; and the gap that is left at its end. The text so far
is kept backwards. In a block the scalar ends where a line is indented no more than the block. -/
def plain (indent : Int) (flow : Bool) : Nat → Reader → List Char → Gap → Option (List Char × Gap × Reader)
  | 0, _, _, _ => none
  | n + 1, r, text, g =>
    if r.atMarker || r.rest.head? = some '#' then some (text.reverse, g, r)
    else
      let run := plainRun flow r.rest
      let (text, g) := if run.isEmpty then (text, g) else (run.reverse ++ (g.fold.reverse ++ text), .blanks [])
      let r := r.skipMany run.length
      if r.rest.head?.any fun c => isBlank c || isBreak c then do
        let (g, r) ← plainGap indent r.bound r g
        if r.rest.isEmpty || (!flow && (r.column : Int) ≤ indent) then some (text.reverse, g, r)
        else plain indent flow n r text g
      else some (text.reverse, g, r)

def hexValue? (c : Char) : Option Nat :=
  if c.isDigit then some (c.toNat - '0'.toNat)
  else if 'a' ≤ c ∧ c ≤ 'f' then some (c.toNat - 'a'.toNat + 10)
  else if 'A' ≤ c ∧ c ≤ 'F' then some (c.toNat - 'A'.toNat + 10)
  else none

def hexNumber? (digits : List Char) (width : Nat) : Option Nat := do
  let values ← (digits.take width).mapM hexValue?
  if values.length = width then some (values.foldl (fun n d => n * 16 + d) 0) else none

def codePoint? (digits : List Char) (width : Nat) : Option Char := do
  let n ← hexNumber? digits width
  if (n < 0xD800 ∨ 0xE000 ≤ n) ∧ n < 0x110000 then some (Char.ofNat n) else none

def escape? (c : Char) (rest : List Char) : Option (Char × Nat) :=
  match c with
  | '0' => some (Char.ofNat 0, 0)
  | 'a' => some (Char.ofNat 7, 0)
  | 'b' => some (Char.ofNat 8, 0)
  | 't' => some ('\t', 0)
  | '\t' => some ('\t', 0)
  | 'n' => some ('\n', 0)
  | 'v' => some (Char.ofNat 11, 0)
  | 'f' => some (Char.ofNat 12, 0)
  | 'r' => some ('\r', 0)
  | 'e' => some (Char.ofNat 27, 0)
  | ' ' => some (' ', 0)
  | '"' => some ('"', 0)
  | '\'' => some ('\'', 0)
  | '\\' => some ('\\', 0)
  | 'N' => some (Char.ofNat 0x85, 0)
  | '_' => some (Char.ofNat 0xA0, 0)
  | 'L' => some (Char.ofNat 0x2028, 0)
  | 'P' => some (Char.ofNat 0x2029, 0)
  | 'x' => (codePoint? rest 2).map (·, 2)
  | 'u' => (codePoint? rest 4).map (·, 4)
  | 'U' => (codePoint? rest 8).map (·, 8)
  | _ => none

def quoted (quote : Char) : Nat → Reader → List Char → Gap → Option (List Char × Reader)
  | 0, _, _, _ => none
  | n + 1, r, text, g =>
    if r.atMarker then none
    else match r.rest with
      | [] => none
      | c :: rest =>
        if isBlank c || isBreak c then
          let (g, r) := g.extend r
          quoted quote n r text g
        else
          let text := g.fold.reverse ++ text
          if c = quote then
            if quote = '\'' && rest.head? = some '\'' then
              quoted quote n (r.skipMany 2) ('\'' :: text) (.blanks [])
            else some (text.reverse, r.skip)
          else if c = '\\' && quote = '"' then
            match rest with
            | [] => none
            | e :: more =>
              if isBreak e then quoted quote n r.skip.skipBreak text (.breaks [] [])
              else match escape? e more with
                | none => none
                | some (x, width) => quoted quote n (r.skipMany (2 + width)) (x :: text) (.blanks [])
          else quoted quote n r.skip (c :: text) (.blanks [])

inductive Chomp where
  | strip
  | clip
  | keep
  deriving DecidableEq

def chomp? : Char → Option Chomp
  | '-' => some .strip
  | '+' => some .keep
  | _ => none

def blockHeader (r : Reader) : Option (Chomp × Nat × Reader) :=
  let chomp (r : Reader) : Chomp × Reader :=
    match r.rest.head?.bind chomp? with
    | some c => (c, r.skip)
    | none => (.clip, r)
  let digit (r : Reader) : Option (Nat × Reader) :=
    match r.rest with
    | d :: _ => if d = '0' then none else if d.isDigit then some (d.toNat - '0'.toNat, r.skip) else some (0, r)
    | [] => some (0, r)
  if (r.rest.head?.bind chomp?).isSome then do
    let (c, r) := chomp r
    let (d, r) ← digit r
    return (c, d, r)
  else do
    let (d, r) ← digit r
    let (c, r) := if d = 0 then (.clip, r) else chomp r
    return (c, d, r)

def restOfLine (r : Reader) : Option Reader :=
  let r := r.skipWhile isBlank
  let r := if r.rest.head? = some '#' then r.skipLine else r
  if atLineEnd r.rest then some r.skipBreak else none

/-- The empty lines before a line of a block scalar, and the indentation of that line. Without an
indentation so far the deepest of these lines sets it, but it is more than the one outside. -/
def blockBreaks (outer : Int) : Nat → Reader → Nat → Nat → List Char → Option (List Char × Nat × Reader)
  | 0, _, _, _, _ => none
  | n + 1, r, indent, deepest, breaks =>
    let spaces := (r.rest.takeWhile (· = ' ')).length
    let r := r.skipMany (if indent = 0 then spaces else min spaces (indent - r.column))
    let deepest := max deepest r.column
    if (indent = 0 || r.column < indent) && r.rest.head? = some '\t' then none
    else if r.rest.head?.any isBreak then
      let (text, r) := r.passBreak
      blockBreaks outer n r indent deepest (breaks ++ text)
    else some (breaks, if indent = 0 then max (max deepest (outer + 1).toNat) 1 else indent, r)

/-- The lines of a block scalar. A text, the line break after it and the empty lines after that are read;
`blank` tells whether the line before starts with a blank. -/
def blockLines (literal : Bool) (outer : Int) (chomp : Chomp) (indent : Nat) :
    Nat → Reader → List Char → List Char → List Char → Bool → Option (List Char × Reader)
  | 0, _, _, _, _, _ => none
  | n + 1, r, text, lineEnd, breaks, blank =>
    if r.column = indent && !r.rest.isEmpty then do
      let starts := r.rest.head?.any isBlank
      let joint := if !literal && !blank && !starts && lineEnd.head? = some '\n' then
          if breaks.isEmpty then [' '] else []
        else lineEnd
      let line := r.rest.takeWhile (!isBreak ·)
      let (lineEnd, r) := (r.skipMany line.length).passBreak
      let (more, _, r) ← blockBreaks outer r.bound r indent 0 []
      blockLines literal outer chomp indent n r (text ++ joint ++ breaks ++ line) lineEnd more starts
    else match chomp with
      | .strip => some (text, r)
      | .clip => some (text ++ lineEnd, r)
      | .keep => some (text ++ lineEnd ++ breaks, r)

def block (literal : Bool) (outer : Int) (r : Reader) : Option (List Char × Reader) := do
  let (chomp, increment, r) ← blockHeader r
  let r ← restOfLine r
  let indent := if increment = 0 then 0 else (max outer 0).toNat + increment
  let (breaks, indent, r) ← blockBreaks outer r.bound r indent 0 []
  blockLines literal outer chomp indent r.bound r [] [] breaks false

def isWord (c : Char) : Bool := c.isAlphanum || c = '_' || c = '-'

def bytes (cs : List Char) : Bytes := cs.flatMap Text.encode

def anchor (r : Reader) : Option (Bytes × Reader) :=
  let name := r.rest.takeWhile isWord
  let r := r.skipMany name.length
  let ends := atGap r.rest || r.rest.head?.any fun c => ['?', ':', ',', ']', '\x7d', '%', '@', '`'].contains c
  if name.isEmpty || !ends then none else some (bytes name, r)

def tagHandle (r : Reader) : Option (List Char × Reader) :=
  match r.rest with
  | '!' :: rest =>
    let word := rest.takeWhile isWord
    let r := r.skipMany (1 + word.length)
    if r.rest.head? = some '!' then some ('!' :: word ++ ['!'], r.skip) else some ('!' :: word, r)
  | _ => none

def isUri (c : Char) : Bool :=
  isWord c || [';', '/', '?', ':', '@', '&', '=', '+', '$', ',', '.', '!', '~', '*', '\'', '(', ')', '[', ']'].contains c

def escapedBytes : Nat → Nat → Reader → Option (Bytes × Reader)
  | 0, _, r => some ([], r)
  | n + 1, first, r =>
    match r.rest with
    | '%' :: rest => do
      let b := (← hexNumber? rest 2).toUInt8
      if n + 1 < first && (b < 0x80 || 0xC0 ≤ b) then none
      else
        let (more, r) ← escapedBytes n first (r.skipMany 3)
        return (b :: more, r)
    | _ => none

def uri : Nat → Reader → Option (Bytes × Reader)
  | 0, r => some ([], r)
  | n + 1, r =>
    match r.rest with
    | [] => some ([], r)
    | c :: rest =>
      if c = '%' then do
        let width := Characters.width (← hexNumber? rest 2).toUInt8
        let (first, r) ← if width = 0 then none else escapedBytes width width r
        let (more, r) ← uri n r
        return (first ++ more, r)
      else if isUri c then do
        let (more, r) ← uri n r.skip
        return (Text.encode c ++ more, r)
      else some ([], r)

def tag (r : Reader) : Option ((Bytes × Bytes) × Reader) := do
  let (t, r) ← match r.rest with
    | '!' :: '<' :: _ => do
      let (t, r) ← uri r.bound (r.skipMany 2)
      if t.isEmpty || r.rest.head? != some '>' then none else some (([], t), r.skip)
    | _ => do
      let (handle, r) ← tagHandle r
      let (t, r) ← uri r.bound r
      if 1 < handle.length && handle.getLast? = some '!' then
        if t.isEmpty then none else some ((bytes handle, t), r)
      else
        let t := bytes handle.tail ++ t
        some (if t.isEmpty then ([], bytes handle) else (utf8 "!", t), r)
  if atGap r.rest then some (t, r) else none

inductive Directive where
  | version (major minor : Nat)
  | handle (handle meaning : Bytes)
  deriving DecidableEq

def shortNumber (r : Reader) : Option (Nat × Reader) :=
  let digits := r.rest.takeWhile Char.isDigit
  if digits.isEmpty || 2 < digits.length then none
  else some (digits.foldl (fun n d => n * 10 + (d.toNat - '0'.toNat)) 0, r.skipMany digits.length)

def directive (r : Reader) : Option (Directive × Reader) := do
  let name := r.rest.takeWhile isWord
  let r := r.skipMany name.length
  if !atGap r.rest then none
  else if name = "YAML".toList then
    let (major, r) ← shortNumber (r.skipWhile isBlank)
    if r.rest.head? != some '.' then none
    else
      let (minor, r) ← shortNumber r.skip
      return (.version major minor, ← restOfLine r)
  else if name = "TAG".toList then
    let (handle, r) ← tagHandle (r.skipWhile isBlank)
    if handle != ['!'] && (handle.length = 1 || handle.getLast? != some '!') then none
    else if !(r.rest.head?.any isBlank) then none
    else
      let r := r.skipWhile isBlank
      let (meaning, r) ← uri r.bound r
      if meaning.isEmpty || !atGap r.rest then none
      else return (.handle (bytes handle) meaning, ← restOfLine r)
  else none

end Lexeme

end Polish.Yaml
