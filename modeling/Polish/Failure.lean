import Polish.Fault
import Polish.Problem

namespace Polish

inductive Place where
  | body
  | closure
  | argument (callee : Bytes) (index : Nat)
  | param (name : Bytes)
  | printed (name : Bytes)
  | emitted (name : Bytes)
  | generation

def Place.render : Place → Bytes
  | .body => utf8 "body"
  | .closure => utf8 "anon"
  | .argument callee index => callee ++ utf8 " arg " ++ Bytes.decimal index
  | .param name => utf8 "arg " ++ name
  | .printed name => utf8 "func " ++ name
  | .emitted name => utf8 "function " ++ name
  | .generation => utf8 "generate"

structure Failure (ε : Type) where
  places : List Place := []
  cause : ε

namespace Failure

variable {ε : Type}

def within (place : Place) (e : Failure ε) : Failure ε := { e with places := place :: e.places }

def message (causeText : ε → Bytes) (e : Failure ε) : Bytes :=
  e.places.foldr (fun place text => inContext place.render text) (causeText e.cause)

end Failure

inductive Halt (ε : Type) where
  | fault (f : Fault)
  | failure (e : ε)

def Halt.within {ε : Type} (place : Place) : Halt (Failure ε) → Halt (Failure ε)
  | .fault f => .fault f
  | .failure e => .failure (e.within place)

end Polish
