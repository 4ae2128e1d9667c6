import Polish.Proofs.Relabelling
import Polish.Proofs.Synthesis.Stages

namespace Polish

def Checker.memory (c : Checker) : List (FuncId × Ty) × List FuncId := (c.results, c.stuck)

theorem Checker.memory_record (c : Checker) (d : Diagnostic) : (c.record d).memory = c.memory := by
  unfold record
  split <;> rfl

namespace Checking

variable {α β : Type}

def answer : EStateM.Result Fault Checker α → Except Fault α × List (FuncId × Ty) × List FuncId
  | .ok a c => (.ok a, c.memory)
  | .error fault c => (.error fault, c.memory)

/-- Two stages that answer alike if the same is remembered; their reports may differ. -/
def Agree (stage stage' : Checking α) : Prop :=
  ∀ c c' : Checker, c.memory = c'.memory → answer (stage c) = answer (stage' c')

theorem agree_pure (a : α) : Agree (pure a) (pure a) := fun _ _ hc => congrArg (Prod.mk _) hc

theorem agree_throw (fault : Fault) : Agree (throw fault : Checking α) (throw fault) :=
  fun _ _ hc => congrArg (Prod.mk _) hc

theorem Agree.bind {stage stage' : Checking α} {next next' : α → Checking β} (hs : Agree stage stage')
    (hn : ∀ a, Agree (next a) (next' a)) : Agree (stage >>= next) (stage' >>= next') := by
  intro c c' hc
  have hanswer := hs c c' hc
  cases hx : stage c with
  | ok a d =>
      cases hy : stage' c' with
      | ok b d' =>
          simp only [hx, hy, answer, Prod.mk.injEq, Except.ok.injEq] at hanswer
          obtain ⟨rfl, hd⟩ := hanswer
          rw [bind_ok hx, bind_ok hy]
          exact hn a d d' hd
      | error fault d' => simp [hx, hy, answer] at hanswer
  | error fault d =>
      cases hy : stage' c' with
      | ok b d' => simp [hx, hy, answer] at hanswer
      | error fault' d' =>
          simp only [hx, hy, answer, Prod.mk.injEq, Except.error.injEq] at hanswer
          obtain ⟨rfl, hd⟩ := hanswer
          rw [bind_error hx, bind_error hy]
          exact congrArg (Prod.mk _) hd

theorem agree_flag (l l' : Location) (problem : Problem) (fatal : Bool) :
    Agree (flag l problem fatal) (flag l' problem fatal) := by
  intro c c' hc
  unfold flag
  split
  · exact congrArg (Prod.mk _) hc
  · exact congrArg (Prod.mk _) (((c.memory_record _).trans hc).trans (c'.memory_record _).symm)

theorem agree_flagIf (p : Bool) (l l' : Location) (problem : Problem) :
    Agree (flagIf p l problem) (flagIf p l' problem) := by
  unfold flagIf
  split
  · exact agree_flag l l' problem false
  · exact agree_pure ()

theorem Agree.remember {search search' : Checking Ty} (hs : Agree search search') (f : FuncId) :
    Agree (remember f search) (remember f search') := by
  intro c c' hc
  have hanswer := hs c c' hc
  unfold Checking.remember
  cases hx : search c <;> cases hy : search' c' <;> simp_all [answer, Checker.memory]

section Relabelled

variable {g : Expr → Expr} {h : Function → Function} {fns : Functions} {resultOf resultOf' : FuncId → Checking Ty}

mutual

theorem typeOf_relabelled (hr : Relabels id g h) (hres : ∀ f, Agree (resultOf' f) (resultOf f)) :
    (x : Expr) → (scope : Scope) → Agree (typeOf (fns.map h) resultOf' (g x) scope) (typeOf fns resultOf x scope)
  | .hole, scope => by
      rw [hr.hole, typeOf, typeOf]
      exact agree_throw _
  | .number l value, scope => by
      obtain ⟨l', hx⟩ := hr.number l value
      rw [hx, typeOf, typeOf]
      exact agree_pure _
  | .text l value, scope => by
      obtain ⟨l', hx⟩ := hr.text l value
      rw [hx, typeOf, typeOf]
      exact agree_pure _
  | .var l name, scope => by
      obtain ⟨l', hx⟩ := hr.var l name
      rw [hx, typeOf, typeOf]
      cases scope.lookup name with
      | some t => exact agree_pure t
      | none => exact (agree_flag l' l _ true).bind fun _ => agree_pure _
  | .relocated l x, scope => by
      have ih := typeOf_relabelled hr hres x scope
      obtain hx | ⟨l', hx⟩ := hr.relocated l x
      · rwa [hx, typeOf]
      · rwa [hx, typeOf, typeOf]
  | .closure l params body, scope => by
      obtain ⟨l', hx⟩ := hr.closure l params body
      rw [hx, typeOf, typeOf]
      exact (typeOf_relabelled hr hres body (scope.bind params)).bind fun _ => agree_pure _
  | .call l f args, scope => by
      obtain ⟨l', hx⟩ := hr.call l f args
      rw [hx, typeOf, typeOf, id, resolve, resolve, Functions.resolve_map hr]
      cases fns.resolve f with
      | error fault => exact agree_throw fault
      | ok fn =>
          simp only [Except.map, pure_bind, hr.kind, hr.operation]
          split
          · exact hres f
          · cases fn.operation with
            | add | sub | mul | div | cat => exact agree_pure _
            | call => exact appliedType_relabelled hr hres l' l args scope
            | other code => exact agree_throw _

theorem appliedType_relabelled (hr : Relabels id g h) (hres : ∀ f, Agree (resultOf' f) (resultOf f)) (l' l : Location) :
    (args : List Expr) → (scope : Scope) →
      Agree (appliedType (fns.map h) resultOf' l' (args.map g) scope) (appliedType fns resultOf l args scope)
  | [], scope => by
      rw [List.map_nil, appliedType, appliedType]
      exact (agree_flag l' l _ false).bind fun _ => agree_pure _
  | x :: args, scope => by
      have hx := typeOf_relabelled hr hres x scope
      rw [List.map_cons, appliedType_cons, appliedType_cons]
      refine hx.bind fun t => ?_
      unfold applied
      split
      · rw [List.length_map]
        exact (agree_flagIf _ l' l _).bind fun _ =>
          (checkCasts_relabelled hr hres args _ scope).bind fun _ => agree_pure _
      -- what is no function is looked at once more for the report
      · exact hx.bind fun got => (agree_flag l' l _ false).bind fun _ => agree_pure _

theorem checkCasts_relabelled (hr : Relabels id g h) (hres : ∀ f, Agree (resultOf' f) (resultOf f)) :
    (xs : List Expr) → (ts : List Ty) → (scope : Scope) →
      Agree (checkCasts (fns.map h) resultOf' (xs.map g) ts scope) (checkCasts fns resultOf xs ts scope)
  | [], _, _ => agree_pure ()
  | _ :: _, [], _ => agree_pure ()
  | x :: xs, t :: ts, scope => by
      rw [List.map_cons, checkCasts_cons, checkCasts_cons]
      exact (typeOf_relabelled hr hres x scope).bind fun got => (agree_flagIf _ _ _ _).bind fun _ =>
        checkCasts_relabelled hr hres xs ts scope

end

theorem resultAt_relabelled (hr : Relabels id g h) (depth : Nat) (active : List FuncId) (f : FuncId) :
    Agree (resultAt (fns.map h) depth active f) (resultAt fns depth active f) := by
  induction depth generalizing active f with
  | zero => exact agree_pure _
  | succ depth ih =>
      intro c c' hc
      -- both look the function up in the same memory, and search its body only if it is not there
      obtain ⟨hresults, hstuck⟩ := Prod.mk.inj hc
      rw [resultAt_succ, resultAt_succ, hresults, hstuck, Array.getElem?_map]
      cases c'.results.lookup f with
      | some t => exact congrArg (Prod.mk _) hc
      | none =>
          dsimp only
          split
          · exact congrArg (Prod.mk _) hc
          · cases fns[f]? with
            | none => exact congrArg (Prod.mk _) hc
            | some fn =>
                simp only [Option.map_some, hr.body, hr.params]
                exact (typeOf_relabelled hr (ih (f :: active)) fn.body _).remember f c c' hc

theorem resultType_relabelled (hr : Relabels id g h) (f : FuncId) :
    Agree (resultType (fns.map h) f) (resultType fns f) := by
  unfold resultType
  rw [Array.size_map]
  exact resultAt_relabelled hr (fns.size + 1) [] f

end Relabelled

end Checking

namespace Expr

mutual

/-- An expression without any uses of variables around its parts. -/
def bare : Expr → Expr
  | .hole => .hole
  | .number l value => .number l value
  | .text l value => .text l value
  | .var l name => .var l name
  | .call l f args => .call l f (bareList args)
  | .relocated _ x => bare x
  | .closure l params body => .closure l params (bare body)

def bareList : List Expr → List Expr
  | [] => []
  | x :: xs => bare x :: bareList xs

end

theorem bareList_eq (xs : List Expr) : bareList xs = xs.map bare := Companion.eq_map rfl (fun _ _ => rfl) xs

end Expr

def Function.bare (fn : Function) : Function := { fn with body := fn.body.bare }

theorem relabels_bare : Relabels id Expr.bare Function.bare where
  hole := by rw [Expr.bare]
  number l value := ⟨l, by rw [Expr.bare]⟩
  text l value := ⟨l, by rw [Expr.bare]⟩
  var l name := ⟨l, by rw [Expr.bare]⟩
  call l f args := ⟨l, by rw [Expr.bare, Expr.bareList_eq, id]⟩
  relocated l x := .inl (by rw [Expr.bare])
  closure l params body := ⟨l, by rw [Expr.bare]⟩
  name _ := rfl
  params _ := rfl
  kind _ := rfl
  operation _ := rfl
  body _ := rfl

theorem Print.sources_bare (fns : Functions) (ids : List FuncId) :
    sources (fns.map Function.bare) ids = (sources fns ids).map (Prod.map id Function.bare) := by
  have hfound : (ids.filterMap fun f => (fns.map Function.bare)[f]?.map fun fn => (f, fn)) =
      (ids.filterMap fun f => fns[f]?.map fun fn => (f, fn)).map (Prod.map id Function.bare) := by
    rw [List.map_filterMap]
    refine List.filterMap_congr fun f _ => ?_
    rw [Array.getElem?_map]
    cases fns[f]? <;> rfl
  -- functions are sorted by where they are declared, which does not depend on their bodies
  let before (a b : FuncId × Function) : Prop := declaredBefore a.2.location b.2.location = true
  have hsorted (found : List (FuncId × Function)) :
      (found.insertionSort before).map (Prod.map id Function.bare) =
        (found.map (Prod.map id Function.bare)).insertionSort before :=
    List.map_insertionSort before before _ found fun _ _ _ _ => Iff.rfl
  rw [sources, sources, hfound, Sorting.sort_eq_insertionSort, Sorting.sort_eq_insertionSort, ← hsorted,
    List.filter_map]
  rfl

/-- Uses of variables are transparent: leaving them out everywhere, in the bodies of callees too, changes no code and no
failure of an emitter, no printed function, no type and nothing remembered of types under any scope, and no dependencies
if closures are followed. -/
theorem bare_transparent (fns : Functions) :
    (∀ (σ : Type) [LetterSource σ] (e : Emitter σ) (x : Expr),
      Emitting.expr (fns.map Function.bare) x.bare e = Emitting.expr fns x e) ∧
    (∀ (σ : Type) [LetterSource σ] (e : Emitter σ) (f : FuncId),
      Emitting.writeFunction (fns.map Function.bare) f e = Emitting.writeFunction fns f e) ∧
    (∀ f, Print.function (fns.map Function.bare) f = Print.function fns f) ∧
    (∀ ids, Print.functions (fns.map Function.bare) ids = Print.functions fns ids) ∧
    (∀ x scope c, Checking.answer (Checking.exprType (fns.map Function.bare) x.bare scope c) =
      Checking.answer (Checking.exprType fns x scope c)) ∧
    (∀ f c, Checking.answer (Checking.resultType (fns.map Function.bare) f c) =
      Checking.answer (Checking.resultType fns f c)) ∧
    ∀ (κ : Type) [BEq κ] (known : List (κ × List FuncId)) (key : κ) (x : Expr),
      Analyzer.analyze ⟨true, known⟩ (fns.map Function.bare) key x.bare = Analyzer.analyze ⟨true, known⟩ fns key x := by
  refine ⟨fun σ _ e x => ?_, fun σ _ e f => ?_, fun f => ?_, fun ids => ?_, fun x scope c => ?_, fun f c => ?_,
    fun κ _ known key x => ?_⟩
  · rw [Emitting.expr_relabelled relabels_bare]
  · rw [Emitting.writeFunction_relabelled relabels_bare]
  · exact Print.function_relabelled relabels_bare (fun _ => Array.getElem?_map) f
  · rw [Print.functions, Print.sources_bare]
    exact Print.functionList_relabelled relabels_bare (fun _ => Array.getElem?_map) _
  · exact Checking.typeOf_relabelled relabels_bare (Checking.resultType_relabelled relabels_bare) x scope c c rfl
  · exact Checking.resultType_relabelled relabels_bare f c c rfl
  · simp only [Analyzer.analyze, Expr.dependencies_relabelled relabels_bare (.inl rfl)]

end Polish
