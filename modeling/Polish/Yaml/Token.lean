import Polish.Yaml.Lexeme

namespace Polish.Yaml

inductive Token where
  | streamStart
  | streamEnd
  | directive (d : Lexeme.Directive)
  | documentStart
  | documentEnd
  | blockSequence
  | blockMapping
  | blockEnd
  | sequenceStart
  | sequenceEnd
  | mappingStart
  | mappingEnd
  | dash
  | comma
  | key
  | value
  | reference (name : Bytes)
  | anchor (name : Bytes)
  | tag (handle rest : Bytes)
  | scalar (text : Bytes) (plain : Bool)
  deriving DecidableEq

structure PossibleKey where
  number : Nat
  index : Nat := 0
  line : Nat := 0
  column : Nat := 0
  possible : Bool := false
  required : Bool := false

structure Scanner where
  reader : Reader
  broken : Bool := false
  indent : Int := -1
  outer : List Int := []
  keyAllowed : Bool := true
  keys : Array PossibleKey := #[{ number := 0 }]
  waiting : List (Nat × Nat) := []
  tokens : Array Token := #[.streamStart]
  taken : Nat := 0

def depthLimit : Nat := 10000

def keyReach : Nat := 1024

namespace Scanner

def inFlow (s : Scanner) : Bool := 1 < s.keys.size

def push (s : Scanner) (t : Token) : Scanner := { s with tokens := s.tokens.push t }

def skip (s : Scanner) (n : Nat) : Scanner := { s with reader := s.reader.skipMany n }

def skipGap : Nat → Scanner → Scanner
  | 0, s => s
  | n + 1, s =>
    let tabs := s.inFlow || !s.keyAllowed
    let r := s.reader
    let r := if r.column = 0 && r.rest.head?.any (·.toNat = 0xFEFF) then r.skip else r
    let r := r.skipWhile fun c => c = ' ' || (tabs && c = '\t')
    let r := if r.rest.head? = some '#' then r.skipComments r.bound else r
    if r.rest.head?.any isBreak then
      skipGap n { s with reader := r.skipBreak, keyAllowed := s.keyAllowed || !s.inFlow }
    else { s with reader := r }

def unroll (column : Int) : Nat → Scanner → Scanner
  | 0, s => s
  | n + 1, s =>
    if s.inFlow || s.indent ≤ column then s
    else match s.outer with
      | [] => s
      | indent :: outer => unroll column n { s.push .blockEnd with indent, outer }

def insert (s : Scanner) (number : Nat) (t : Token) : Scanner :=
  if number < s.taken then s.push t else { s with tokens := s.tokens.insertIdxIfInBounds number t }

/-- Opens a block collection at a column, unless one is open there; its token goes before the one of a
number. -/
def roll (s : Scanner) (column number : Nat) (t : Token) : Option Scanner :=
  if s.inFlow || (column : Int) ≤ s.indent then some s
  else if depthLimit ≤ s.outer.length then none
  else some { s.insert number t with indent := column, outer := s.indent :: s.outer }

def stillPossible (s : Scanner) (level : Nat) : Option (Bool × Scanner) :=
  match s.keys[level]? with
  | none => some (false, s)
  | some k =>
    if !k.possible then some (false, s)
    else if k.line < s.reader.line || k.index + keyReach < s.reader.index then
      if k.required then none
      else some (false, { s with keys := s.keys.setIfInBounds level { k with possible := false } })
    else some (true, s)

def release (s : Scanner) (number : Nat) : Scanner :=
  { s with waiting := s.waiting.filter (·.1 != number) }

def dropKey (s : Scanner) : Option Scanner :=
  match s.keys.back? with
  | none => some s
  | some k =>
    if !k.possible then some s
    else if k.required then none
    else some { s.release k.number with keys := s.keys.pop.push { k with possible := false } }

def saveKey (s : Scanner) : Option Scanner :=
  if s.keyAllowed then do
    let s ← s.dropKey
    let key : PossibleKey :=
      { number := s.tokens.size, index := s.reader.index, line := s.reader.line, column := s.reader.column,
        possible := true, required := !s.inFlow && s.indent == s.reader.column }
    return { s with keys := s.keys.pop.push key, waiting := (key.number, s.keys.size - 1) :: s.waiting }
  else some s

def leaveBlocks (s : Scanner) : Option Scanner := do
  let s := unroll (-1) (s.outer.length + 1) s
  let s ← s.dropKey
  return { s with keyAllowed := false }

def streamEnd (s : Scanner) : Option Scanner := do
  let r := s.reader
  let r := if r.column = 0 then r else { r with line := r.line + 1, column := 0 }
  let s ← { s with reader := r }.leaveBlocks
  return s.push .streamEnd

def openFlow (s : Scanner) (t : Token) : Option Scanner := do
  let s ← s.saveKey
  if depthLimit < s.keys.size then none
  else return { (s.push t).skip 1 with keys := s.keys.push { number := s.tokens.size }, keyAllowed := true }

/-- The end of a flow collection. The token that its key has the number of waits no longer; of an empty
collection this is the bracket that opens it. -/
def closeFlow (s : Scanner) (t : Token) : Option Scanner := do
  let s ← s.dropKey
  let s := if s.inFlow then
      match s.keys.back? with
      | some k => { s.release k.number with keys := s.keys.pop }
      | none => s
    else s
  return { (s.push t).skip 1 with keyAllowed := false }

def blockMark (s : Scanner) (collection t : Token) : Option Scanner := do
  if !s.inFlow && !s.keyAllowed then none
  else
    let s ← s.roll s.reader.column s.tokens.size collection
    let s ← s.dropKey
    return { (s.push t).skip 1 with keyAllowed := t = .dash || !s.inFlow }

def colon (s : Scanner) : Option Scanner := do
  let (valid, s) ← s.stillPossible (s.keys.size - 1)
  match s.keys.back?, valid with
  | some k, true =>
    let s ← (s.insert k.number .key).roll k.column k.number .blockMapping
    let s := { s.release k.number with keys := s.keys.pop.push { k with possible := false } }
    return { (s.push .value).skip 1 with keyAllowed := false }
  | _, _ =>
    if s.inFlow then return { (s.push .value).skip 1 with keyAllowed := false }
    else if s.keyAllowed then
      let s ← s.roll s.reader.column s.tokens.size .blockMapping
      return (s.push .value).skip 1
    else none

def lexeme (s : Scanner) (read : Reader → Option (Token × Reader)) : Option Scanner := do
  let s ← s.saveKey
  let (t, reader) ← read s.reader
  return { s.push t with reader, keyAllowed := false }

def plain (s : Scanner) : Option Scanner := do
  let s ← s.saveKey
  let (text, gap, reader) ← Lexeme.plain s.indent s.inFlow s.reader.bound s.reader [] (.blanks [])
  return { s.push (.scalar (Lexeme.bytes text) true) with reader, keyAllowed := gap.isBreaks }

def blockScalar (s : Scanner) (literal : Bool) : Option Scanner := do
  let s ← s.dropKey
  let (text, reader) ← Lexeme.block literal s.indent s.reader.skip
  return { s.push (.scalar (Lexeme.bytes text) false) with reader, keyAllowed := true }

def indicators : List Char :=
  ['-', '?', ':', ',', '[', ']', '\x7b', '\x7d', '#', '&', '*', '!', '|', '>', '\'', '"', '%', '@', '`']

def token (s : Scanner) (c : Char) (rest : List Char) : Option Scanner :=
  if c = '[' then s.openFlow .sequenceStart
  else if c = '\x7b' then s.openFlow .mappingStart
  else if c = ']' then s.closeFlow .sequenceEnd
  else if c = '\x7d' then s.closeFlow .mappingEnd
  else if c = ',' then do
    let s ← s.dropKey
    return { (s.push .comma).skip 1 with keyAllowed := true }
  else if c = '-' && atGap rest then s.blockMark .blockSequence .dash
  else if c = '?' && (s.inFlow || atGap rest) then s.blockMark .blockMapping .key
  else if c = ':' && (s.inFlow || atGap rest) then s.colon
  else if c = '*' then s.lexeme fun r => (Lexeme.anchor r.skip).map fun (name, r) => (.reference name, r)
  else if c = '&' then s.lexeme fun r => (Lexeme.anchor r.skip).map fun (name, r) => (.anchor name, r)
  else if c = '!' then s.lexeme fun r => (Lexeme.tag r).map fun ((handle, rest), r) => (.tag handle rest, r)
  else if c = '|' && !s.inFlow then s.blockScalar true
  else if c = '>' && !s.inFlow then s.blockScalar false
  else if c = '\'' || c = '"' then s.lexeme fun r =>
    (Lexeme.quoted c r.bound r.skip [] (.blanks [])).map fun (text, r) =>
      (.scalar (Lexeme.bytes text) false, r)
  else if isBlank c then none
  else if !indicators.contains c || (c = '-' && !(rest.head?.any isBlank))
      || (!s.inFlow && (c = '?' || c = ':') && !atGap rest) then s.plain
  else none

/-- Scans the next token. A comment on its line goes with it, but not after a dash. -/
def next (s : Scanner) : Option Scanner := do
  let s := skipGap s.reader.bound s
  let s := unroll s.reader.column (s.outer.length + 1) s
  let r := s.reader
  if s.broken && (r.rest.drop 3).isEmpty then none
  else match r.rest with
    | [] => s.streamEnd
    | c :: rest =>
      if r.column = 0 && c = '%' then
        let s ← s.leaveBlocks
        let (d, reader) ← Lexeme.directive r.skip
        return { s.push (.directive d) with reader }
      else if r.atMarker then
        let s ← s.leaveBlocks
        return (s.push (if c = '-' then .documentStart else .documentEnd)).skip 3
      else
        let s ← s.token c rest
        if s.broken && s.reader.rest.isEmpty then none
        else if s.tokens.back? = some .dash then return s
        else return { s with reader := s.reader.skipLineComment }

def fill : Nat → Scanner → Option Scanner
  | 0, _ => none
  | n + 1, s =>
    if s.taken + 2 < s.tokens.size then
      match s.waiting.lookup s.taken with
      | none => some s
      | some level => do
        let (undecided, s) ← s.stillPossible level
        if undecided then fill n (← s.next) else return s
    else do fill n (← s.next)

def peek (s : Scanner) : Option (Token × Scanner) := do
  let s ← fill (s.reader.bound + 4) s
  return (← s.tokens[s.taken]?, s)

def take (s : Scanner) : Scanner := { s with taken := s.taken + 1 }

def ofText (text : Bytes) : Scanner :=
  let cs := Characters.ofText text
  { reader := .ofChars cs.all, broken := cs.broken }

end Scanner

end Polish.Yaml
