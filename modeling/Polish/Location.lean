import Polish.Path

namespace Polish

structure Location where
  path : Bytes := []
  text : Bytes := []
  off : Int := 0
  deriving DecidableEq

namespace Location

def newline : UInt8 := ascii '\n'

def before (l : Location) : Bytes := l.text.take l.off.toNat

def line (l : Location) : Nat := l.before.count newline + 1

def column (l : Location) : Nat := (l.before.reverse.takeWhile (· != newline)).length

def render (l : Location) : Bytes :=
  let name := if l.path.isEmpty then utf8 "anonymous" else Path.base l.path
  utf8 "(" ++ name ++ utf8 "/" ++ Bytes.decimal l.line ++ utf8 ":" ++ Bytes.decimal l.column ++ utf8 ")"

end Location

end Polish
