import Polish.Location
import Polish.Ty
import Polish.Double

namespace Polish

structure Param where
  name : Bytes
  ty : Ty

abbrev FuncId := Nat

inductive Expr where
  | hole
  | number (loc : Location) (value : Double)
  | text (loc : Location) (value : Bytes)
  | var (loc : Location) (name : Bytes)
  | call (loc : Location) (callee : FuncId) (args : List Expr)
  /-- A use of a variable: the place of the use around the binding of the variable. -/
  | relocated (loc : Location) (of : Expr)
  | closure (loc : Location) (params : List Param) (body : Expr)

namespace Expr

def location : Expr → Location
  | .hole => {}
  | .number l _ | .text l _ | .var l _ | .call l _ _ | .relocated l _ | .closure l _ _ => l

def unwrap : Expr → Expr
  | .relocated _ x => unwrap x
  | x => x

end Expr

inductive Kind where
  | pending
  | native
  | custom
  | other (code : Int)
  deriving DecidableEq

inductive Operation where
  | add
  | sub
  | mul
  | div
  | cat
  /-- Applies its first argument to the others; it has no syntax and no code. -/
  | call
  | other (code : Int)
  deriving DecidableEq

namespace Kind

def ofCode (code : Int) : Kind :=
  if code = 0 then .pending else if code = 1 then .native else if code = 2 then .custom else .other code

def render : Kind → Bytes
  | .pending => utf8 "pending"
  | .native => utf8 "native"
  | .custom => utf8 "custom"
  | .other code => utf8 "Kind(" ++ Bytes.integer code ++ utf8 ")"

end Kind

namespace Operation

def all : List Operation := [.add, .sub, .mul, .div, .cat, .call]

def ofCode (code : Int) : Operation :=
  match code with
  | .ofNat n => all.getD n (.other code)
  | .negSucc _ => .other code

def render : Operation → Bytes
  | .add => utf8 "add"
  | .sub => utf8 "sub"
  | .mul => utf8 "mul"
  | .div => utf8 "div"
  | .cat => utf8 "cat"
  | .call => utf8 "call"
  | .other code => utf8 "NativeOp(" ++ Bytes.integer code ++ utf8 ")"

end Operation

structure Function where
  name : Bytes
  params : List Param := []
  kind : Kind
  operation : Operation := .add
  body : Expr := .hole
  location : Location := {}

abbrev Functions := Array Function

end Polish
