namespace Polish.Yaml

def isBlank (c : Char) : Bool := c = ' ' || c = '\t'

def isBreak (c : Char) : Bool :=
  c = '\n' || c = '\r' || c.toNat = 0x85 || c.toNat = 0x2028 || c.toNat = 0x2029

def atLineEnd : List Char → Bool
  | [] => true
  | c :: _ => isBreak c

def atGap : List Char → Bool
  | [] => true
  | c :: _ => isBlank c || isBreak c

def marks (c : Char) : List Char → Bool
  | a :: b :: d :: rest => a = c && b = c && d = c && atGap rest
  | _ => false

structure Reader where
  rest : List Char
  bound : Nat
  index : Nat := 0
  line : Nat := 0
  column : Nat := 0
  afterBreak : Bool := false

namespace Reader

def skip (r : Reader) : Reader :=
  match r.rest with
  | [] => r
  | c :: rest =>
    { r with rest, index := r.index + 1, column := r.column + 1, afterBreak := r.afterBreak && isBlank c }

def skipMany (r : Reader) (n : Nat) : Reader := n.repeat skip r

def skipWhile (p : Char → Bool) (r : Reader) : Reader := r.skipMany (r.rest.takeWhile p).length

/-- Passes a line break. It is read as a line feed, but the two separators are read as themselves. -/
def passBreak (r : Reader) : List Char × Reader :=
  let pass (text rest : List Char) (width : Nat) : List Char × Reader :=
    (text, { r with rest, index := r.index + width, line := r.line + 1, column := 0, afterBreak := true })
  match r.rest with
  | '\r' :: '\n' :: rest => pass ['\n'] rest 2
  | c :: rest => if isBreak c then pass [if c.toNat ≤ 0x85 then '\n' else c] rest 1 else ([], r)
  | [] => ([], r)

def skipBreak (r : Reader) : Reader := r.passBreak.2

def skipSpace : Nat → Reader → Reader
  | 0, r => r
  | n + 1, r =>
    match r.rest with
    | [] => r
    | c :: _ => if isBlank c then skipSpace n r.skip else if isBreak c then skipSpace n r.skipBreak else r

def skipLine (r : Reader) : Reader := r.skipWhile (!isBreak ·)

def commentReach : Nat := 512

/-- Skips a comment, and with it the comments on the lines after it, whatever blanks they start with. -/
def skipComments : Nat → Reader → Reader
  | 0, r => r
  | n + 1, r =>
    let r := r.skipLine
    match r.rest with
    | [] => r
    | c :: ahead =>
      let gap := ahead.takeWhile fun c => isBlank c || c = '\n' || c = '\r'
      if c.toNat < 0x80 && gap.length + 1 < commentReach && (ahead.drop gap.length).head? = some '#' then
        skipComments n (skipSpace (gap.length + 1) r)
      else r

def skipLineComment (r : Reader) : Reader :=
  let blanks := r.rest.takeWhile isBlank
  if !r.afterBreak && blanks.length < commentReach && (r.rest.drop blanks.length).head? = some '#' then r.skipLine
  else r

def ofChars (text : List Char) : Reader := { rest := text, bound := text.length + 1 }

def atMarker (r : Reader) : Bool := r.column = 0 && (marks '-' r.rest || marks '.' r.rest)

end Reader

end Polish.Yaml
