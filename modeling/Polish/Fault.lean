import Polish.Expr

namespace Polish

inductive Fault where
  | pending (name : Bytes)
  | unsupported
  | missing
  | completed (kind : Kind) (name : Bytes)
  | operation (op : Operation)
  deriving DecidableEq

def Fault.message? : Fault → Option Bytes
  | .pending _ | .missing => none
  | .unsupported => some (utf8 "unsupported expression: <nil>")
  | .completed kind name => some (utf8 "complete " ++ kind.render ++ utf8 " function " ++ name)
  | .operation op => some op.render

namespace Functions

def resolve (fns : Functions) (f : FuncId) : Except Fault Function :=
  match fns[f]? with
  | none => .error .missing
  | some fn => if fn.kind = .pending then .error (.pending fn.name) else .ok fn

def complete (fns : Functions) (f : FuncId) (body : Expr) : Except Fault Functions :=
  match fns[f]? with
  | none => .error .missing
  | some fn =>
    if fn.kind = .pending then .ok (fns.setIfInBounds f { fn with kind := .custom, body })
    else .error (.completed fn.kind fn.name)

end Functions

end Polish
