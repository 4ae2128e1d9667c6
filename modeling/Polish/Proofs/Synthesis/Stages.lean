import Polish.Proofs.Dependency
import Polish.Proofs.Mismatches

namespace Polish

namespace Expr

mutual

/-- The custom functions whose result types may be asked for while the type of an expression is found. -/
def asks (fns : Functions) : Expr → List FuncId
  | .hole | .number _ _ | .text _ _ | .var _ _ => []
  | .relocated _ x => asks fns x
  | .closure _ _ body => asks fns body
  | .call _ f args => match fns[f]? with
    | none => []
    | some fn => if fn.kind = .custom then [f] else if fn.operation = .call then asksList fns args else []

def asksList (fns : Functions) : List Expr → List FuncId
  | [] => []
  | x :: xs => asks fns x ++ asksList fns xs

end

mutual

theorem custom_of_mem_asks {fns : Functions} {g : FuncId} : ∀ x : Expr, g ∈ x.asks fns →
    ∃ fn : Function, fns[g]? = some fn ∧ fn.kind = .custom
  | .hole, h | .number _ _, h | .text _ _, h | .var _ _, h => by cases h
  | .relocated _ x, h => custom_of_mem_asks x h
  | .closure _ _ body, h => custom_of_mem_asks body h
  | .call _ f args, h => by
      rw [asks] at h
      split at h
      · cases h
      · rename_i fn hf
        split at h
        · rename_i hk
          exact ⟨fn, List.mem_singleton.1 h ▸ hf, hk⟩
        · split at h
          · exact custom_of_mem_asksList args h
          · cases h

theorem custom_of_mem_asksList {fns : Functions} {g : FuncId} : ∀ xs : List Expr, g ∈ asksList fns xs →
    ∃ fn : Function, fns[g]? = some fn ∧ fn.kind = .custom
  | [], h => by cases h
  | x :: xs, h => (List.mem_append.1 h).elim (custom_of_mem_asks x) (custom_of_mem_asksList xs)

end

end Expr

structure Checker.Progress (R : Checker → Checker → Prop) : Prop where
  refl : ∀ c, R c c
  trans : ∀ {a b c}, R a b → R b c → R a c
  record : ∀ c d, R c (c.record d)

namespace Checking

def flagIf (p : Bool) (l : Location) (problem : Problem) : Checking Unit :=
  if p then flag l problem false else pure ()

def applied (fns : Functions) (resultOf : FuncId → Checking Ty) (l : Location) (x : Expr) (args : List Expr)
    (scope : Scope) : Ty → Checking Ty
  | .function params result => do
    flagIf (args.length ≠ params.length) l (.arity params.length args.length)
    checkCasts fns resultOf args params scope
    return result
  | _ => do
    let got ← typeOf fns resultOf x scope
    flag l (.notCallable got) false
    return .null

theorem appliedType_cons (fns : Functions) (resultOf : FuncId → Checking Ty) (l : Location) (x : Expr)
    (args : List Expr) (scope : Scope) : appliedType fns resultOf l (x :: args) scope =
      typeOf fns resultOf x scope >>= applied fns resultOf l x args scope := by
  rw [appliedType]
  congr 1
  funext t
  cases t with
  | function params result =>
      dsimp only [applied, flagIf]
      by_cases h : args.length ≠ params.length
      · simp [h]
      · simp [h]
  | basic | unknown | array | object | absent => rfl

theorem checkCasts_cons (fns : Functions) (resultOf : FuncId → Checking Ty) (x : Expr) (xs : List Expr) (t : Ty)
    (ts : List Ty) (scope : Scope) : checkCasts fns resultOf (x :: xs) (t :: ts) scope = (do
      let got ← typeOf fns resultOf x scope
      flagIf (!got.casts t) x.location (.mismatch got t)
      checkCasts fns resultOf xs ts scope) := by
  rw [checkCasts]
  congr 1
  funext got
  unfold flagIf
  cases got.casts t with
  | false => rfl
  | true => rfl

def checkArgs (fns : Functions) (fn : Function) (l : Location) (args : List Expr) (scope : Scope) : Checking Unit :=
  if fn.kind = .native && fn.operation = .call then do
    let _ ← appliedType fns (resultType fns) l args scope
  else do
    flagIf (args.length ≠ fn.params.length) l (.arity fn.params.length args.length)
    checkCasts fns (resultType fns) args (fn.params.map (·.ty)) scope

theorem checkExpr_call (fns : Functions) (l : Location) (f : FuncId) (args : List Expr) (scope : Scope) :
    checkExpr fns (.call l f args) scope = (do
      let fn ← resolve fns f
      checkArgs fns fn l args scope
      checkExprList fns args scope) := by
  rw [checkExpr]
  congr 1
  funext fn
  unfold checkArgs flagIf
  split
  · simp
  · by_cases h : args.length ≠ fn.params.length
    · simp [h]
    · simp [h]

/-- A judgement about stages and their results that follows a stage step by step. Only some problems may be reported, and
`faulty` says whether a stage may end with a fault. -/
structure Logic (faulty : Prop) (ok : Problem → Prop) (Holds : {α : Type} → Checking α → (α → Prop) → Prop) : Prop where
  pure {α : Type} {a : α} {good : α → Prop} (h : good a) : Holds (pure a) good
  bind {α β : Type} {first : Checking α} {second : α → Checking β} {good : α → Prop} {good' : β → Prop}
    (h : Holds first good) (h' : ∀ a, good a → Holds (second a) good') : Holds (first >>= second) good'
  throw {α : Type} {good : α → Prop} (h : faulty) (fault : Fault) : Holds (throw fault) good
  flag {problem : Problem} (h : ok problem) (l : Location) (fatal : Bool) : Holds (flag l problem fatal) fun _ => True

namespace Logic

variable {faulty : Prop} {ok : Problem → Prop} {Holds : {α : Type} → Checking α → (α → Prop) → Prop}
  (hl : Logic faulty ok Holds) {α : Type}
include hl

theorem mono {stage : Checking α} {good good' : α → Prop} (h : Holds stage good) (himp : ∀ a, good a → good' a) :
    Holds stage good' := by
  rw [← bind_pure stage]
  exact hl.bind h fun a ha => hl.pure (himp a ha)

theorem flagIf {problem : Problem} (h : ok problem) (p : Bool) (l : Location) :
    Holds (flagIf p l problem) fun _ => True := by
  unfold Checking.flagIf
  split
  · exact hl.flag h l false
  · exact hl.pure trivial

end Logic

inductive CallType (fns : Functions) (f : FuncId) : Prop
  | fault (fault : Fault)
      (hf : ∀ fn : Function, fns[f]? = some fn →
        fn.kind = .pending ∨ fn.kind ≠ .custom ∧ ∃ code, fn.operation = .other code)
      (h : ∀ resultOf l args scope, typeOf fns resultOf (.call l f args) scope = throw fault)
  | custom {fn : Function} (hf : fns[f]? = some fn) (hk : fn.kind = .custom)
      (h : ∀ resultOf l args scope, typeOf fns resultOf (.call l f args) scope = resultOf f)
      (hasks : ∀ l args, (Expr.call l f args).asks fns = [f])
  | operation {fn : Function} (hf : fns[f]? = some fn) (hk : fn.kind ≠ .custom) {t : Ty}
      (ht : fn.operation.result? = some t)
      (h : ∀ resultOf l args scope, typeOf fns resultOf (.call l f args) scope = pure t)
      (hasks : ∀ l args, (Expr.call l f args).asks fns = [])
  | applied {fn : Function} (hf : fns[f]? = some fn) (hk : fn.kind ≠ .custom) (ho : fn.operation = .call)
      (h : ∀ resultOf l args scope,
        typeOf fns resultOf (.call l f args) scope = appliedType fns resultOf l args scope)
      (hasks : ∀ l args, (Expr.call l f args).asks fns = Expr.asksList fns args)

theorem callType (fns : Functions) (f : FuncId) : CallType fns f := by
  cases hf : fns[f]? with
  | none =>
      refine .fault .missing (by simp [hf]) fun _ _ _ _ => ?_
      simp only [typeOf, resolve, Functions.resolve, hf]
      rfl
  | some fn =>
      by_cases hp : fn.kind = .pending
      · refine .fault (.pending fn.name) (by simp [hf, hp]) fun _ _ _ _ => ?_
        simp only [typeOf, resolve, Functions.resolve, hf, if_pos hp]
        rfl
      · by_cases hk : fn.kind = .custom
        · refine .custom hf hk (fun _ _ _ _ => ?_) fun _ _ => ?_
          · simp only [typeOf, resolve_eq hf hp, pure_bind, if_pos hk]
          · simp only [Expr.asks, hf, if_pos hk]
        · cases ho : fn.operation with
          | add | sub | mul | div | cat =>
              refine .operation hf hk (t := ?_) (by rw [ho]; rfl) (fun _ _ _ _ => ?_) fun _ _ => ?_
              · simp only [typeOf, resolve_eq hf hp, pure_bind, if_neg hk, ho]
              · simp [Expr.asks, hf, hk, ho]
          | call =>
              refine .applied hf hk ho (fun _ _ _ _ => ?_) fun _ _ => ?_
              · simp only [typeOf, resolve_eq hf hp, pure_bind, if_neg hk, ho]
              · simp only [Expr.asks, hf, if_neg hk, if_pos ho]
          | other code =>
              refine .fault (.operation (.other code)) (by simp [hf, hk, ho]) fun _ _ _ _ => ?_
              simp only [typeOf, resolve_eq hf hp, pure_bind, if_neg hk, ho]

/-- Which expressions are typed in which scopes: with an expression its parts are. -/
structure Typable (fns : Functions) (faulty : Prop) (Fit : Scope → Expr → Prop) : Prop where
  ofHole {scope} (h : Fit scope .hole) : faulty
  ofRelocated {scope l x} (h : Fit scope (.relocated l x)) : Fit scope x
  ofClosure {scope l params body} (h : Fit scope (.closure l params body)) : Fit (scope.bind params) body
  ofArgs {scope l f args} (h : Fit scope (.call l f args)) : ∀ x ∈ args, Fit scope x
  ofCall {scope l f args} (h : Fit scope (.call l f args)) (hf : ∀ fn : Function, fns[f]? = some fn →
    fn.kind = .pending ∨ fn.kind ≠ .custom ∧ ∃ code, fn.operation = .other code) : faulty

/-- Types of expressions, given the result types of custom functions, and the problems that they lead to. -/
structure Typings (fns : Functions) (ok : Problem → Prop) (Fit : Scope → Expr → Prop) (Result : FuncId → Ty → Prop)
    (Has : Scope → Expr → Ty → Prop) : Prop where
  number {scope l value} : Has scope (.number l value) .number
  text {scope l value} : Has scope (.text l value) .string
  bound {scope l name t} (hx : Fit scope (.var l name)) (h : scope.lookup name = some t) : Has scope (.var l name) t
  unbound {scope l name} (h : scope.lookup name = none) : Has scope (.var l name) .any
  relocated {scope l x t} (h : Has scope x t) : Has scope (.relocated l x) t
  closure {scope l params body t} (hx : Fit scope (.closure l params body)) (h : Has (scope.bind params) body t) :
    Has scope (.closure l params body) (.function (params.map (·.ty)) t)
  custom {scope l g args t} {gn : Function} (hg : fns[g]? = some gn) (hk : gn.kind = .custom) (h : Result g t) :
    Has scope (.call l g args) t
  operation {scope l g args t} {gn : Function} (hg : fns[g]? = some gn) (hk : gn.kind ≠ .custom)
    (ho : gn.operation.result? = some t) : Has scope (.call l g args) t
  nothing {scope l g} {gn : Function} (hg : fns[g]? = some gn) (hk : gn.kind ≠ .custom) (ho : gn.operation = .call) :
    Has scope (.call l g []) .null
  applied {scope l g x args params t} {gn : Function} (hg : fns[g]? = some gn) (hk : gn.kind ≠ .custom)
    (ho : gn.operation = .call) (h : Has scope x (.function params t)) : Has scope (.call l g (x :: args)) t
  misapplied {scope l g x args t} {gn : Function} (hg : fns[g]? = some gn) (hk : gn.kind ≠ .custom)
    (ho : gn.operation = .call) (h : Has scope x t) (ht : ∀ params result, t ≠ .function params result) :
    Has scope (.call l g (x :: args)) .null
  free {name} : ok (.unbound name)
  arity {want got} : ok (.arity want got)
  notCallable {scope x t} (h : Has scope x t) : ok (.notCallable t)
  mismatch {scope x params result y got} (hx : Has scope x (.function params result)) (hy : Has scope y got) :
    ∀ want ∈ params, ok (.mismatch got want)
  declared {scope y got} {g : FuncId} {gn : Function} (hg : fns[g]? = some gn) (hy : Has scope y got) :
    ∀ want ∈ gn.params.map (·.ty), ok (.mismatch got want)

structure Discipline (fns : Functions) (faulty : Prop) (ok : Problem → Prop) (Fit : Scope → Expr → Prop)
    (Result : FuncId → Ty → Prop) (Has : Scope → Expr → Ty → Prop)
    (Holds : {α : Type} → Checking α → (α → Prop) → Prop) : Prop
    extends Logic faulty ok Holds, Typable fns faulty Fit, Typings fns ok Fit Result Has

def FoundBy (fns : Functions) (Result : FuncId → Ty → Prop) (Holds : {α : Type} → Checking α → (α → Prop) → Prop) :
    Prop :=
  ∀ (g : FuncId) (gn : Function), fns[g]? = some gn → gn.kind = .custom → Holds (resultType fns g) (Result g)

section Walk

variable {fns : Functions} {faulty : Prop} {ok : Problem → Prop} {Fit : Scope → Expr → Prop}
  {Result : FuncId → Ty → Prop} {Has : Scope → Expr → Ty → Prop}
  {Holds : {α : Type} → Checking α → (α → Prop) → Prop} {resultOf : FuncId → Checking Ty}

theorem applied_holds (hd : Discipline fns faulty ok Fit Result Has Holds) {g : FuncId} {gn : Function}
    (hg : fns[g]? = some gn) (hk : gn.kind ≠ .custom) (ho : gn.operation = .call) (l : Location) {x : Expr}
    {args : List Expr} {scope : Scope} {t : Ty} (hx : Holds (typeOf fns resultOf x scope) (Has scope x))
    (hargs : ∀ ts, (∀ want ∈ ts, ∀ y got, Has scope y got → ok (.mismatch got want)) →
      Holds (checkCasts fns resultOf args ts scope) fun _ => True) (ht : Has scope x t) :
    Holds (applied fns resultOf l x args scope t) (Has scope (.call l g (x :: args))) := by
  unfold applied
  split
  · refine hd.bind (hd.flagIf hd.arity _ l) fun _ _ => hd.bind (hargs _ ?_) fun _ _ => ?_
    · exact fun want hwant _ _ hgot => hd.mismatch ht hgot want hwant
    · exact hd.pure (hd.applied hg hk ho ht)
  · rename_i hne
    refine hd.bind hx fun _ hgot => hd.bind (hd.flag (hd.notCallable hgot) l false) fun _ _ => ?_
    exact hd.pure (hd.misapplied hg hk ho ht fun params result he => hne params result he)

mutual

/-- What holds of the result types that are asked for holds of the type of an expression. -/
theorem typeOf_holds (hd : Discipline fns faulty ok Fit Result Has Holds) :
    ∀ (x : Expr) (scope : Scope), Fit scope x → (∀ g ∈ x.asks fns, Holds (resultOf g) (Result g)) →
    Holds (typeOf fns resultOf x scope) (Has scope x)
  | .hole, _, hx, _ => hd.throw (hd.ofHole hx) .missing
  | .number _ _, _, _, _ => hd.pure hd.number
  | .text _ _, _, _, _ => hd.pure hd.text
  | .var l name, scope, hx, _ => by
      rw [typeOf]
      split
      · rename_i ht
        exact hd.pure (hd.bound hx ht)
      · rename_i ht
        exact hd.bind (hd.flag hd.free l true) fun _ _ => hd.pure (hd.unbound ht)
  | .relocated _ x, scope, hx, h =>
      hd.mono (typeOf_holds hd x scope (hd.ofRelocated hx) h) fun _ => hd.relocated
  | .closure _ params body, scope, hx, h => by
      rw [typeOf]
      exact hd.bind (typeOf_holds hd body _ (hd.ofClosure hx) h) fun _ ht => hd.pure (hd.closure hx ht)
  | .call l g args, scope, hx, h => by
      cases callType fns g with
      | fault fault hbad hrun => rw [hrun]; exact hd.throw (hd.ofCall hx hbad) fault
      | custom hg hk hrun hasks =>
          rw [hrun]
          exact hd.mono (h g (hasks l args ▸ List.mem_singleton_self g)) fun _ => hd.custom hg hk
      | operation hg hk ho hrun => rw [hrun]; exact hd.pure (hd.operation hg hk ho)
      | applied hg hk ho hrun hasks =>
          rw [hrun]
          exact appliedType_holds hd hg hk ho l args scope (hd.ofArgs hx) (hasks l args ▸ h)

theorem appliedType_holds (hd : Discipline fns faulty ok Fit Result Has Holds) {g : FuncId} {gn : Function}
    (hg : fns[g]? = some gn) (hk : gn.kind ≠ .custom) (ho : gn.operation = .call) (l : Location) :
    ∀ (args : List Expr) (scope : Scope), (∀ x ∈ args, Fit scope x) →
    (∀ g ∈ Expr.asksList fns args, Holds (resultOf g) (Result g)) →
    Holds (appliedType fns resultOf l args scope) (Has scope (.call l g args))
  | [], _, _, _ => hd.bind (hd.flag hd.arity l false) fun _ _ => hd.pure (hd.nothing hg hk ho)
  | x :: args, scope, hfits, h => by
      obtain ⟨hx, hargs⟩ := List.forall_mem_cons.1 hfits
      obtain ⟨hasks, hrest⟩ := List.forall_mem_append.1 h
      have hfirst := typeOf_holds hd x scope hx hasks
      rw [appliedType_cons]
      exact hd.bind hfirst fun _ => applied_holds hd hg hk ho l hfirst fun ts hts =>
        checkCasts_holds hd args ts scope hargs hts hrest

theorem checkCasts_holds (hd : Discipline fns faulty ok Fit Result Has Holds) :
    ∀ (xs : List Expr) (ts : List Ty) (scope : Scope), (∀ x ∈ xs, Fit scope x) →
    (∀ want ∈ ts, ∀ x got, Has scope x got → ok (.mismatch got want)) →
    (∀ g ∈ Expr.asksList fns xs, Holds (resultOf g) (Result g)) →
    Holds (checkCasts fns resultOf xs ts scope) fun _ => True
  | [], _, _, _, _, _ | _ :: _, [], _, _, _, _ => hd.pure trivial
  | x :: xs, t :: ts, scope, hfits, hok, h => by
      obtain ⟨hx, hxs⟩ := List.forall_mem_cons.1 hfits
      obtain ⟨ht, hts⟩ := List.forall_mem_cons.1 hok
      obtain ⟨hasks, hrest⟩ := List.forall_mem_append.1 h
      rw [checkCasts_cons]
      refine hd.bind (typeOf_holds hd x scope hx hasks) fun got hgot => ?_
      exact hd.bind (hd.flagIf (ht x got hgot) _ _) fun _ _ => checkCasts_holds hd xs ts scope hxs hts hrest

end

theorem resolve_holds (hl : Logic faulty ok Holds) {f : FuncId}
    (hf : (∀ fn : Function, fns[f]? = some fn → fn.kind = .pending) → faulty) :
    Holds (resolve fns f) fun fn => fns[f]? = some fn := by
  cases hfn : fns[f]? with
  | none =>
      simp only [resolve, Functions.resolve, hfn]
      exact hl.throw (hf (by simp [hfn])) .missing
  | some fn =>
      by_cases hp : fn.kind = .pending
      · simp only [resolve, Functions.resolve, hfn, if_pos hp]
        exact hl.throw (hf (by simp [hfn, hp])) _
      · rw [resolve_eq hfn hp]
        exact hl.pure rfl

theorem exprType_holds (hd : Discipline fns faulty ok Fit Result Has Holds) (hresult : FoundBy fns Result Holds)
    {x : Expr} {scope : Scope} (hx : Fit scope x) : Holds (exprType fns x scope) (Has scope x) := by
  refine typeOf_holds hd x scope hx fun g hg => ?_
  obtain ⟨gn, hgn, hk⟩ := Expr.custom_of_mem_asks x hg
  exact hresult g gn hgn hk

theorem checkArgs_holds (hd : Discipline fns faulty ok Fit Result Has Holds) (hresult : FoundBy fns Result Holds)
    {f : FuncId} {fn : Function} (hf : fns[f]? = some fn) (l : Location) {args : List Expr} {scope : Scope}
    (hargs : ∀ x ∈ args, Fit scope x) : Holds (checkArgs fns fn l args scope) fun _ => True := by
  have hasks : ∀ g ∈ Expr.asksList fns args, Holds (resultType fns g) (Result g) := by
    intro g hg
    obtain ⟨gn, hgn, hk⟩ := Expr.custom_of_mem_asksList args hg
    exact hresult g gn hgn hk
  unfold checkArgs
  split
  · rename_i hop
    rw [Bool.and_eq_true, decide_eq_true_eq, decide_eq_true_eq] at hop
    have hk : fn.kind ≠ .custom := by rw [hop.1]; decide
    exact hd.bind (appliedType_holds hd hf hk hop.2 l args scope hargs hasks) fun _ _ => hd.pure trivial
  · refine hd.bind (hd.flagIf hd.arity _ l) fun _ _ => checkCasts_holds hd args _ scope hargs ?_ hasks
    exact fun want hwant _ _ hgot => hd.declared hf hgot want hwant

mutual

theorem checkExpr_holds (hd : Discipline fns faulty ok Fit Result Has Holds) (hresult : FoundBy fns Result Holds) :
    ∀ (x : Expr) (scope : Scope), Fit scope x → Holds (checkExpr fns x scope) fun _ => True
  | .hole, _, _ | .number _ _, _, _ | .text _ _, _, _ | .var _ _, _, _ => hd.pure trivial
  | .relocated _ x, scope, hx => checkExpr_holds hd hresult x scope (hd.ofRelocated hx)
  | .closure _ params body, scope, hx =>
      checkExpr_holds hd hresult body (scope.bind params) (hd.ofClosure hx)
  | .call l f args, scope, hx => by
      have hargs := hd.ofArgs hx
      rw [checkExpr_call]
      refine hd.bind (resolve_holds hd.toLogic fun hp => hd.ofCall hx fun fn hfn => .inl (hp fn hfn)) fun fn hfn => ?_
      exact hd.bind (checkArgs_holds hd hresult hfn l hargs) fun _ _ =>
        checkExprList_holds hd hresult args scope hargs

theorem checkExprList_holds (hd : Discipline fns faulty ok Fit Result Has Holds) (hresult : FoundBy fns Result Holds) :
    ∀ (xs : List Expr) (scope : Scope), (∀ x ∈ xs, Fit scope x) → Holds (checkExprList fns xs scope) fun _ => True
  | [], _, _ => hd.pure trivial
  | x :: xs, scope, hfits => by
      obtain ⟨hx, hxs⟩ := List.forall_mem_cons.1 hfits
      exact hd.bind (checkExpr_holds hd hresult x scope hx) fun _ _ =>
        checkExprList_holds hd hresult xs scope hxs

end

theorem checkFunction_holds (hd : Discipline fns faulty ok Fit Result Has Holds) (hresult : FoundBy fns Result Holds)
    {f : FuncId} (hf : (∀ fn : Function, fns[f]? = some fn → fn.kind = .pending) → faulty)
    (hbody : ∀ fn : Function, fns[f]? = some fn → fn.kind = .custom → Fit (Scope.bind [] fn.params) fn.body) :
    Holds (checkFunction fns f) fun _ => True := by
  unfold checkFunction
  refine hd.bind (resolve_holds hd.toLogic hf) fun fn hfn => ?_
  split
  · rename_i hk
    exact hd.bind (hresult f fn hfn hk) fun _ _ =>
      checkExpr_holds hd hresult fn.body _ (hbody fn hfn hk)
  · exact hd.pure trivial

end Walk

section Sorts

variable {fns : Functions}

theorem typable_any : Typable fns True fun _ _ => True :=
  ⟨fun _ => trivial, fun _ => trivial, fun _ => trivial, fun _ _ _ => trivial, fun _ _ => trivial⟩

theorem typings_any : Typings fns (fun _ => True) (fun _ _ => True) (fun _ _ => True) fun _ _ _ => True := by
  constructor <;> intros <;> trivial

/-- Types of one sort: basic types and the functions from such types to such types are of it. -/
theorem typings_sort {p : Ty → Bool} {ok : Problem → Prop} {Fit : Scope → Expr → Prop} (hbasic : ∀ b, p (.basic b) = true)
    (hfunction : ∀ {params t}, p (.function params t) = true ↔ (∀ u ∈ params, p u = true) ∧ p t = true)
    (hbound : ∀ {scope l name t}, Fit scope (.var l name) → scope.lookup name = some t → p t = true)
    (hclosure : ∀ {scope l params body}, Fit scope (.closure l params body) → ∀ t ∈ params.map (·.ty), p t = true)
    (hdeclared : ∀ {g : FuncId} {gn : Function}, fns[g]? = some gn → ∀ t ∈ gn.params.map (·.ty), p t = true)
    (hfree : ∀ {name}, ok (.unbound name)) (harity : ∀ {want got}, ok (.arity want got))
    (hcallable : ∀ {t}, p t = true → ok (.notCallable t))
    (hmismatch : ∀ {got want}, p got = true → p want = true → ok (.mismatch got want)) :
    Typings fns ok Fit (fun _ t => p t = true) fun _ _ t => p t = true where
  number := hbasic .number
  text := hbasic .string
  bound := hbound
  unbound _ := hbasic .any
  relocated h := h
  closure hx h := hfunction.2 ⟨hclosure hx, h⟩
  custom _ _ h := h
  operation := by
    intro _ _ _ _ _ gn _ _ ho
    cases hop : gn.operation <;> rw [hop] at ho <;> cases ho <;> exact hbasic _
  nothing _ _ _ := hbasic .null
  applied _ _ _ h := (hfunction.1 h).2
  misapplied _ _ _ _ _ := hbasic .null
  free := hfree
  arity := harity
  notCallable := hcallable
  mismatch hx hy := fun want hwant => hmismatch hy ((hfunction.1 hx).1 want hwant)
  declared hg hy := fun want hwant => hmismatch hy (hdeclared hg want hwant)

end Sorts

variable {fns : Functions} {α β : Type} {P : Checker → Prop} {R : Checker → Checker → Prop}
  {resultOf : FuncId → Checking Ty}

def Gives (P : Checker → Prop) (stage : Checking α) (good : α → Prop) : Prop :=
  ∀ c, P c → ∀ a c', stage c = .ok a c' → P c' ∧ good a

theorem lacksType_of_flag {l : Location} {problem : Problem} {fatal : Bool} {c c' : Checker}
    (h : flag l problem fatal c = .ok () c') : problem.lacksType = false := by
  rw [← Bool.not_eq_true]
  intro hlacks
  rw [flag, hlacks] at h
  cases h

theorem flag_eq_ok {l : Location} {problem : Problem} {fatal : Bool} {c c' : Checker}
    (h : flag l problem fatal c = .ok () c') : c' = c.record { location := l, problem, fatal } := by
  rw [flag_ok (lacksType_of_flag h)] at h
  cases h
  rfl

theorem logic_gives {ok : Problem → Prop} (hP : ∀ c d, ok d.problem → P c → P (c.record d)) :
    Logic True ok (Gives P) where
  pure h := by
    intro c hc b c' hrun
    cases hrun
    exact ⟨hc, h⟩
  bind h h' := by
    intro c hc b c' hrun
    obtain ⟨a, c₁, hfirst, hsecond⟩ := bind_eq_ok.1 hrun
    obtain ⟨hc₁, ha⟩ := h c hc a c₁ hfirst
    exact h' a ha c₁ hc₁ b c' hsecond
  throw _ _ := by
    intro c _ a c' hrun
    cases hrun
  flag h l fatal := by
    intro c hc a c' hrun
    rw [flag_eq_ok hrun]
    exact ⟨hP c _ h hc, trivial⟩

theorem discipline_gives (hP : ∀ c d, P c → P (c.record d)) :
    Discipline fns True (fun _ => True) (fun _ _ => True) (fun _ _ => True) (fun _ _ _ => True) (Gives P) :=
  { logic_gives fun c d _ => hP c d, typable_any, typings_any with }

def Keeps (R : Checker → Checker → Prop) (stage : Checking α) : Prop := ∀ c a c', stage c = .ok a c' → R c c'

/-- To end with later checkers is to keep being later than any checker. -/
theorem keeps_iff (hR : Checker.Progress R) {stage : Checking α} :
    Keeps R stage ↔ ∀ start, Gives (R start) stage fun _ => True := by
  constructor
  · intro h start c hc a c' hrun
    exact ⟨hR.trans hc (h c a c' hrun), trivial⟩
  · intro h c a c' hrun
    exact (h c c (hR.refl c) a c' hrun).1

section Keeps

variable (hR : Checker.Progress R)
include hR

theorem logic_later (start : Checker) : Logic True (fun _ => True) (Gives (R start)) :=
  logic_gives fun c d _ h => hR.trans h (hR.record c d)

theorem discipline_later (start : Checker) : Discipline fns True (fun _ => True) (fun _ _ => True) (fun _ _ => True)
    (fun _ _ _ => True) (Gives (R start)) := discipline_gives fun c d h => hR.trans h (hR.record c d)

theorem keeps_pure (a : α) : Keeps R (pure a : Checking α) :=
  (keeps_iff hR).2 fun start => (logic_later hR start).pure trivial

theorem keeps_flagIf (p : Bool) (l : Location) (problem : Problem) : Keeps R (flagIf p l problem) :=
  (keeps_iff hR).2 fun start => (logic_later hR start).flagIf trivial p l

theorem typeOf_keeps (x : Expr) (scope : Scope) (h : ∀ g ∈ x.asks fns, Keeps R (resultOf g)) :
    Keeps R (typeOf fns resultOf x scope) :=
  (keeps_iff hR).2 fun start => typeOf_holds (discipline_later hR start) x scope trivial fun g hg =>
    (keeps_iff hR).1 (h g hg) start

theorem checkExprList_keeps (hresult : ∀ g, Keeps R (resultType fns g)) (xs : List Expr) (scope : Scope) :
    Keeps R (checkExprList fns xs scope) :=
  (keeps_iff hR).2 fun start => checkExprList_holds (discipline_later hR start)
    (fun g _ _ _ => (keeps_iff hR).1 (hresult g) start) xs scope fun _ _ => trivial

end Keeps

mutual

/-- The type of an expression depends only on the result types that are asked for. -/
theorem typeOf_congr {resultOf resultOf' : FuncId → Checking Ty} : ∀ (x : Expr) (scope : Scope),
    (∀ g ∈ x.asks fns, resultOf g = resultOf' g) → typeOf fns resultOf x scope = typeOf fns resultOf' x scope
  | .hole, _, _ | .number _ _, _, _ | .text _ _, _, _ | .var _ _, _, _ => rfl
  | .relocated _ x, scope, h => typeOf_congr x scope h
  | .closure _ params body, scope, h => by rw [typeOf, typeOf, typeOf_congr body (scope.bind params) h]
  | .call l f args, scope, h => by
      cases callType fns f with
      | fault _ _ hrun => rw [hrun, hrun]
      | custom _ _ hrun hasks =>
          rw [hrun, hrun]
          exact h f (hasks l args ▸ List.mem_singleton_self f)
      | operation _ _ _ hrun => rw [hrun, hrun]
      | applied _ _ _ hrun hasks =>
          rw [hrun, hrun]
          exact appliedType_congr l args scope (hasks l args ▸ h)

theorem appliedType_congr {resultOf resultOf' : FuncId → Checking Ty} (l : Location) :
    ∀ (args : List Expr) (scope : Scope), (∀ g ∈ Expr.asksList fns args, resultOf g = resultOf' g) →
      appliedType fns resultOf l args scope = appliedType fns resultOf' l args scope
  | [], _, _ => rfl
  | x :: args, scope, h => by
      obtain ⟨hx, hargs⟩ := List.forall_mem_append.1 h
      rw [appliedType_cons, appliedType_cons, typeOf_congr x scope hx]
      congr 1
      funext t
      unfold applied
      split
      · rw [checkCasts_congr args _ scope hargs]
      · rw [typeOf_congr x scope hx]

theorem checkCasts_congr {resultOf resultOf' : FuncId → Checking Ty} : ∀ (xs : List Expr) (ts : List Ty)
    (scope : Scope), (∀ g ∈ Expr.asksList fns xs, resultOf g = resultOf' g) →
      checkCasts fns resultOf xs ts scope = checkCasts fns resultOf' xs ts scope
  | [], _, _, _ | _ :: _, [], _, _ => rfl
  | x :: xs, t :: ts, scope, h => by
      obtain ⟨hx, hxs⟩ := List.forall_mem_append.1 h
      rw [checkCasts_cons, checkCasts_cons, typeOf_congr x scope hx, checkCasts_congr xs ts scope hxs]

end

structure Room (fns : Functions) (depth : Nat) (active : List FuncId) : Prop where
  nodup : active.Nodup
  bound : ∀ f ∈ active, f < fns.size
  room : fns.size < depth + active.length

theorem room_nil (fns : Functions) : Room fns (fns.size + 1) [] := ⟨List.nodup_nil, by simp, by simp⟩

theorem Room.pos {depth : Nat} {active : List FuncId} (h : Room fns depth active) : ∃ n, depth = n + 1 := by
  have hle := Walk.length_le_of_nodup h.nodup h.bound
  have hroom := h.room
  exact ⟨depth - 1, by omega⟩

theorem Room.enter {depth : Nat} {active : List FuncId} (h : Room fns (depth + 1) active) {f : FuncId} {fn : Function}
    (hf : fns[f]? = some fn) (hnot : f ∉ active) : Room fns depth (f :: active) where
  nodup := List.nodup_cons.2 ⟨hnot, h.nodup⟩
  bound := List.forall_mem_cons.2 ⟨(Array.getElem?_eq_some_iff.1 hf).1, h.bound⟩
  room := by
    have hroom := h.room
    rw [List.length_cons]
    omega

theorem resultAt_succ (fns : Functions) (depth : Nat) (active : List FuncId) (f : FuncId) (c : Checker) :
    resultAt fns (depth + 1) active f c = match c.results.lookup f with
      | some t => .ok t c
      | none =>
        if f ∈ active ∨ f ∈ c.stuck then .ok .any c
        else match fns[f]? with
          | none => .error .missing c
          | some fn =>
            remember f (typeOf fns (resultAt fns depth (f :: active)) fn.body (Scope.bind [] fn.params)) c := by
  rw [resultAt, get_bind]
  cases c.results.lookup f with
  | some t => rfl
  | none =>
      dsimp only
      rw [get_bind]
      by_cases hbusy : f ∈ active ∨ f ∈ c.stuck
      · rw [if_pos hbusy, if_pos (by simpa using hbusy)]
        rfl
      · rw [if_neg hbusy, if_neg (by simpa using hbusy)]
        cases fns[f]? with
        | none => rfl
        | some fn => rfl

theorem resultAt_depth {depth depth' : Nat} {active : List FuncId} (h : Room fns depth active)
    (h' : Room fns depth' active) (f : FuncId) : resultAt fns depth active f = resultAt fns depth' active f := by
  induction depth generalizing depth' active f with
  | zero =>
      obtain ⟨n, hn⟩ := h.pos
      cases hn
  | succ depth ih =>
      obtain ⟨depth', rfl⟩ := h'.pos
      funext c
      rw [resultAt_succ, resultAt_succ]
      cases c.results.lookup f with
      | some t => rfl
      | none =>
          dsimp only
          by_cases hbusy : f ∈ active ∨ f ∈ c.stuck
          · rw [if_pos hbusy, if_pos hbusy]
          · rw [if_neg hbusy, if_neg hbusy]
            cases hf : fns[f]? with
            | none => rfl
            | some fn =>
                have hnot : f ∉ active := fun hmem => hbusy (.inl hmem)
                have hcalls := ih (h.enter hf hnot) (h'.enter hf hnot)
                dsimp only
                rw [typeOf_congr fn.body _ fun g _ => hcalls g]

inductive ResultAt (fns : Functions) (depth : Nat) (active : List FuncId) (f : FuncId) (c : Checker) (t : Ty) :
    Checker → Prop
  | known (h : c.results.lookup f = some t) : ResultAt fns depth active f c t c
  | busy (h : c.results.lookup f = none) (hf : f ∈ active ∨ f ∈ c.stuck) (ht : t = .any) :
      ResultAt fns depth active f c t c
  | found {n : Nat} {fn : Function} {c' : Checker} (hn : depth = n + 1) (h : c.results.lookup f = none)
      (hactive : f ∉ active) (hstuck : f ∉ c.stuck) (hf : fns[f]? = some fn)
      (hbody : typeOf fns (resultAt fns n (f :: active)) fn.body (Scope.bind [] fn.params) c = .ok t c') :
      ResultAt fns depth active f c t { c' with results := (f, t) :: c'.results }

theorem resultAt_cases {depth : Nat} {active : List FuncId} (hroom : Room fns depth active) {f : FuncId}
    {c c' : Checker} {t : Ty} (h : resultAt fns depth active f c = .ok t c') :
    ResultAt fns depth active f c t c' := by
  obtain ⟨n, rfl⟩ := hroom.pos
  rw [resultAt_succ] at h
  split at h
  · rename_i hlookup
    cases h
    exact .known hlookup
  · rename_i hlookup
    split at h
    · rename_i hbusy
      cases h
      exact .busy hlookup hbusy rfl
    · rename_i hbusy
      rw [not_or] at hbusy
      split at h
      · cases h
      · rename_i fn hf
        unfold remember at h
        split at h
        · rename_i hbody
          cases h
          exact .found rfl hlookup hbusy.1 hbusy.2 hf hbody
        · cases h

end Checking

end Polish
