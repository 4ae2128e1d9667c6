import Polish.Location

namespace Polish

structure Source where
  path : Bytes
  text : Bytes

def Source.locate (src : Source) (off : Nat) : Location := ⟨src.path, src.text, off⟩

structure Cursor where
  off : Nat
  rest : Bytes

def Source.start (src : Source) : Cursor := ⟨0, src.text⟩

def isBlank (b : UInt8) : Bool := b = ascii ' ' || b = ascii '\t' || b = ascii '\n' || b = ascii '\r'

def isSeparator (b : UInt8) : Bool :=
  b = ascii '[' || b = ascii ']' || b = ascii '\x7b' || b = ascii '\x7d' || b = ascii '(' || b = ascii ')'

def isQuote (b : UInt8) : Bool := b = ascii '\'' || b = ascii '`' || b = ascii '"'

def inToken (b : UInt8) : Bool := !isBlank b && !isSeparator b

def arrow : Bytes := utf8 "=>"

namespace Cursor

def atEnd (c : Cursor) : Bool := c.rest.isEmpty

def advance (c : Cursor) (n : Nat) : Cursor := ⟨c.off + n, c.rest.drop n⟩

def skipBlanks (c : Cursor) : Cursor := c.advance (c.rest.takeWhile isBlank).length

def startsWith (c : Cursor) (start : Bytes) : Bool := start.isPrefixOf c.rest

theorem rest_skipBlanks (c : Cursor) : c.skipBlanks.rest = c.rest.dropWhile isBlank := by
  have h := List.takeWhile_append_dropWhile (p := isBlank) (l := c.rest)
  simp only [skipBlanks, advance]
  conv => lhs; arg 2; rw [← h]
  rw [List.drop_left]

/-- The token after blanks, empty before a bracket and at the end, and the position after it. -/
def token (c : Cursor) : Bytes × Cursor :=
  let c := c.skipBlanks
  let word := c.rest.takeWhile inToken
  (word, c.advance word.length)

theorem token_append_rest (c : Cursor) : c.token.1 ++ c.token.2.rest = c.rest.dropWhile isBlank := by
  have h := List.takeWhile_append_dropWhile (p := inToken) (l := c.skipBlanks.rest)
  simp only [token, advance]
  conv => lhs; arg 2; arg 2; rw [← h]
  rw [List.drop_left, h, rest_skipBlanks]

end Cursor

end Polish
