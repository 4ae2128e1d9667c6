import Polish.Fault

namespace Polish.Machine

inductive Value where
  | number (value : Double)
  | text (value : Bytes)
  | null
  | closure (params : List Param) (body : Expr) (env : List (Bytes × Value))

abbrev Env := List (Bytes × Value)

/-- Of equal names the last one counts. -/
def Env.bind (env : Env) (params : List Param) (values : List Value) : Env :=
  (params.zip values).foldl (fun env entry => (entry.1.name, entry.2) :: env) env

inductive Task where
  | eval (x : Expr) (env : Env)
  | apply (f : FuncId) (values : List Value)
  | give (v : Value)

inductive Frame where
  | args (f : FuncId) (values : List Value) (rest : List Expr) (env : Env)
  | body (f : FuncId)

structure State where
  task : Task
  stack : List Frame

inductive Stuck where
  | unbound (name : Bytes)
  | arity (f : FuncId)
  | operands (f : FuncId)
  | missing

inductive Outcome where
  | next (s : State)
  | done (v : Value)
  | stuck (why : Stuck)

def operate (arith : Operation → Double → Double → Double) (op : Operation) : List Value → Option Value
  | values => match op, values with
    | .cat, [_] => some .null
    | .add, [.number a, .number b] | .sub, [.number a, .number b] | .mul, [.number a, .number b]
    | .div, [.number a, .number b] => some (.number (arith op a b))
    | _, _ => none

def evaluate (x : Expr) (env : Env) (stack : List Frame) : Outcome :=
  match x with
  | .hole => .stuck .missing
  | .number _ value => .next ⟨.give (.number value), stack⟩
  | .text _ value => .next ⟨.give (.text value), stack⟩
  | .var _ name => match env.lookup name with
    | some v => .next ⟨.give v, stack⟩
    | none => .stuck (.unbound name)
  | .relocated _ x => .next ⟨.eval x env, stack⟩
  | .closure _ params body => .next ⟨.give (.closure params body env), stack⟩
  | .call _ f [] => .next ⟨.apply f [], stack⟩
  | .call _ f (x :: args) => .next ⟨.eval x env, .args f [] args env :: stack⟩

def call (fns : Functions) (arith : Operation → Double → Double → Double) (f : FuncId) (values : List Value)
    (stack : List Frame) : Outcome :=
  match fns[f]? with
  | none => .stuck .missing
  | some fn =>
    if values.length ≠ fn.params.length then .stuck (.arity f)
    else match fn.kind with
      | .custom => .next ⟨.eval fn.body (Env.bind [] fn.params values), .body f :: stack⟩
      | .native => match operate arith fn.operation values with
        | some v => .next ⟨.give v, stack⟩
        | none => .stuck (.operands f)
      | .pending | .other _ => .stuck .missing

def resume (v : Value) : List Frame → Outcome
  | [] => .done v
  | .body _ :: stack => .next ⟨.give v, stack⟩
  | .args f values [] _ :: stack => .next ⟨.apply f (values ++ [v]), stack⟩
  | .args f values (x :: rest) env :: stack => .next ⟨.eval x env, .args f (values ++ [v]) rest env :: stack⟩

def step (fns : Functions) (arith : Operation → Double → Double → Double) (s : State) : Outcome :=
  match s.task with
  | .eval x env => evaluate x env s.stack
  | .apply f values => call fns arith f values s.stack
  | .give v => resume v s.stack

def run (fns : Functions) (arith : Operation → Double → Double → Double) : Nat → State → Outcome
  | 0, s => .next s
  | n + 1, s => match step fns arith s with
    | .next s => run fns arith n s
    | outcome => outcome

def start (f : FuncId) : State := ⟨.apply f [], []⟩

end Polish.Machine
