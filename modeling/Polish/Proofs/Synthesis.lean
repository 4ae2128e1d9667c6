import Polish.Proofs.Scoping

namespace Polish

def Operation.result? : Operation → Option Ty
  | .add | .sub | .mul | .div => some .number
  | .cat => some .null
  | .call | .other _ => none

/-- The types of expressions. Inside of the body of `self` the type of a call of `self` is `any`. -/
inductive HasType (fns : Functions) : Option FuncId → Scope → Expr → Ty → Prop
  | number {self scope l value} : HasType fns self scope (.number l value) .number
  | text {self scope l value} : HasType fns self scope (.text l value) .string
  | var {self scope l name t} (h : scope.lookup name = some t) : HasType fns self scope (.var l name) t
  | relocated {self scope l x t} (h : HasType fns self scope x t) : HasType fns self scope (.relocated l x) t
  | closure {self scope l params body t} (h : HasType fns self (scope.bind params) body t) :
      HasType fns self scope (.closure l params body) (.function (params.map (·.ty)) t)
  | native {self scope l f args fn t} (hf : fns[f]? = some fn) (hk : fn.kind = .native)
      (ho : fn.operation.result? = some t) : HasType fns self scope (.call l f args) t
  | itself {scope l f args fn} (hf : fns[f]? = some fn) (hk : fn.kind = .custom) :
      HasType fns (some f) scope (.call l f args) .any
  | call {self scope l f args fn t} (hf : fns[f]? = some fn) (hk : fn.kind = .custom) (hne : self ≠ some f)
      (hb : HasType fns (some f) (Scope.bind [] fn.params) fn.body t) : HasType fns self scope (.call l f args) t

def Functions.Returns (fns : Functions) (f : FuncId) (t : Ty) : Prop :=
  ∃ fn : Function, fns[f]? = some fn ∧ HasType fns (some f) (Scope.bind [] fn.params) fn.body t

def Functions.Yields (fns : Functions) (self : Option FuncId) (f : FuncId) (t : Ty) : Prop :=
  self = some f ∧ t = .any ∨ self ≠ some f ∧ fns.Returns f t

theorem HasType.unique {fns : Functions} {self : Option FuncId} {scope : Scope} {x : Expr} {t u : Ty}
    (ht : HasType fns self scope x t) (hu : HasType fns self scope x u) : t = u := by
  induction ht generalizing u with
  | number | text => cases hu; rfl
  | var h =>
      cases hu with
      | var h' => exact Option.some.inj (h.symm.trans h')
  | relocated h ih =>
      cases hu with
      | relocated h' => exact ih h'
  | closure h ih =>
      cases hu with
      | closure h' => rw [ih h']
  | native hf hk ho =>
      cases hu with
      | native hf' hk' ho' =>
          cases hf.symm.trans hf'
          exact Option.some.inj (ho.symm.trans ho')
      | itself hf' hk' | call hf' hk' =>
          cases hf.symm.trans hf'
          exact nomatch hk.symm.trans hk'
  | itself hf hk =>
      cases hu with
      | native hf' hk' =>
          cases hf.symm.trans hf'
          exact nomatch hk.symm.trans hk'
      | itself => rfl
      | call hf' hk' hne' => exact absurd rfl hne'
  | call hf hk hne hb ih =>
      cases hu with
      | native hf' hk' =>
          cases hf.symm.trans hf'
          exact nomatch hk.symm.trans hk'
      | itself => exact absurd rfl hne
      | call hf' hk' hne' hb' =>
          cases hf.symm.trans hf'
          exact ih hb'

structure Checker.Fit (fns : Functions) (active : List FuncId) (c : Checker) : Prop where
  stuck : c.stuck = []
  results : ∀ f t, c.results.lookup f = some t → fns.Returns f t
  unknown : ∀ f ∈ active, c.results.lookup f = none

/-- A stage that gives a good type and changes nothing but the result types that are remembered. -/
def Checking.Synthesizes (fns : Functions) (active : List FuncId) (stage : Checking Ty) (good : Ty → Prop) : Prop :=
  ∀ c : Checker, c.Fit fns active → ∃ t results, stage c = .ok t { c with results } ∧ good t ∧
    Checker.Fit fns active { c with results }

theorem Functions.Returns.unique {fns : Functions} {f : FuncId} {t u : Ty} (ht : fns.Returns f t)
    (hu : fns.Returns f u) : t = u := by
  obtain ⟨fn, hf, ht⟩ := ht
  obtain ⟨fn', hf', hu⟩ := hu
  obtain rfl := Option.some.inj (hf.symm.trans hf')
  exact ht.unique hu

namespace Checking

variable {fns : Functions} {active : List FuncId}

theorem fit_initial : Checker.Fit fns [] {} := ⟨rfl, fun _ _ h => (nomatch h), fun _ h => (nomatch h)⟩

theorem synthesizes_pure {t : Ty} {good : Ty → Prop} (h : good t) :
    Synthesizes fns active (pure t) good := fun c hc => ⟨t, c.results, rfl, h, hc⟩

theorem Synthesizes.mono {stage : Checking Ty} {good good' : Ty → Prop} (h : Synthesizes fns active stage good)
    (himp : ∀ t, good t → good' t) : Synthesizes fns active stage good' := by
  intro c hc
  obtain ⟨t, results, he, ht, hfit⟩ := h c hc
  exact ⟨t, results, he, himp t ht, hfit⟩

theorem resolve_eq {f : FuncId} {fn : Function} (hf : fns[f]? = some fn) (hk : fn.kind ≠ .pending) :
    resolve fns f = pure fn := by
  simp only [resolve, Functions.resolve, hf, if_neg hk]

theorem result?_native : ∀ fn ∈ Registry.natives, fn.operation.result?.isSome := by decide

theorem kind_ne_pending (hfns : fns.Scoped) {f : FuncId} {fn : Function} (hf : fns[f]? = some fn) :
    fn.kind ≠ .pending := by
  obtain hn | hc := hfns.kinds f fn hf
  · simp [Registry.kind_native fn hn]
  · simp [hc]

/-- The types of expressions are found if those of calls are. -/
theorem typeOf_synthesizes (hfns : fns.Scoped) {self : Option FuncId} {resultOf : FuncId → Checking Ty}
    {scope : Scope} {x : Expr} (hx : x.Scoped scope)
    (hcalls : ∀ call ∈ x.calls, ∃ fn : Function, fns[call.1]? = some fn ∧
      (fn.kind = .custom → Synthesizes fns active (resultOf call.1) (fns.Yields self call.1))) :
    Synthesizes fns active (typeOf fns resultOf x scope) (HasType fns self scope x) := by
  induction hx with
  | number => exact synthesizes_pure .number
  | text => exact synthesizes_pure .text
  | var h =>
      simp only [typeOf, h]
      exact synthesizes_pure (.var h)
  | relocated h ih =>
      simp only [typeOf]
      exact (ih hcalls).mono fun t => .relocated
  | closure hp h ih =>
      intro c hc
      obtain ⟨t, results, he, ht, hfit⟩ := ih hcalls c hc
      refine ⟨_, results, ?_, .closure ht, hfit⟩
      simp only [typeOf, bind_ok he]
      rfl
  | @call scope l f args h ih =>
      obtain ⟨fn, hf, hresult⟩ := hcalls (f, args) (by simp [Expr.calls])
      simp only [typeOf, resolve_eq hf (kind_ne_pending hfns hf), pure_bind]
      obtain hn | hc := hfns.kinds f fn hf
      · have hk := Registry.kind_native fn hn
        obtain ⟨t, ht⟩ := Option.isSome_iff_exists.1 (result?_native fn hn)
        rw [if_neg (by simp [hk])]
        have : HasType fns self scope (.call l f args) t := .native hf hk ht
        cases ho : fn.operation <;> simp only [ho, Operation.result?, Option.some.injEq, reduceCtorEq] at ht <;>
          exact synthesizes_pure (ht ▸ this)
      · rw [if_pos hc]
        refine (hresult hc).mono ?_
        rintro t (⟨rfl, rfl⟩ | ⟨hne, fn', hf', hb⟩)
        · exact .itself hf hc
        · exact .call hf' (Option.some.inj (hf.symm.trans hf') ▸ hc) hne hb

theorem resultAt_active (depth : Nat) {f : FuncId} (hf : f ∈ active) :
    Synthesizes fns active (resultAt fns depth active f) (· = .any) := by
  cases depth with
  | zero => exact synthesizes_pure rfl
  | succ depth =>
      intro c hc
      refine ⟨.any, c.results, ?_, rfl, hc⟩
      simp only [resultAt, get_bind, hc.unknown f hf, List.contains_iff_mem.2 hf, Bool.true_or, if_true]
      rfl

/-- The result types of functions are found. Functions that are being found call the ones to find, so that these
were made earlier. -/
theorem resultAt_synthesizes (hfns : fns.Scoped) {depth : Nat} {f : FuncId} {fn : Function}
    (hf : fns[f]? = some fn) (hk : fn.kind = .custom) (hd : f < depth) (hactive : ∀ g ∈ active, f < g) :
    Synthesizes fns active (resultAt fns depth active f) (fns.Returns f) := by
  induction depth generalizing active f fn with
  | zero => exact absurd hd (Nat.not_lt_zero f)
  | succ depth ih =>
      intro c hc
      simp only [resultAt, get_bind]
      cases hl : c.results.lookup f with
      | some t => exact ⟨t, c.results, rfl, hc.results f t hl, hc⟩
      | none =>
          have hbusy : ((active.contains f || c.stuck.contains f) = true) = False := by
            have : f ∉ active := fun hmem => Nat.lt_irrefl f (hactive f hmem)
            simp [this, hc.stuck]
          have hbody : Synthesizes fns (f :: active) (typeOf fns (resultAt fns depth (f :: active)) fn.body
              (Scope.bind [] fn.params)) (HasType fns (some f) (Scope.bind [] fn.params) fn.body) := by
            refine typeOf_synthesizes hfns (hfns.bodies f fn hf hk) fun call hcall => ?_
            obtain ⟨hle, callee, hcallee, -⟩ := hfns.calls f fn hf call hcall
            refine ⟨callee, hcallee, fun hkind => ?_⟩
            obtain heq | hlt := Nat.eq_or_lt_of_le hle
            · rw [heq]
              exact (resultAt_active depth (by simp)).mono fun t ht => .inl ⟨rfl, ht⟩
            · refine (ih hcallee hkind (Nat.lt_of_lt_of_le hlt (Nat.le_of_lt_succ hd)) ?_).mono
                fun t ht => .inr ⟨fun he => Nat.ne_of_gt hlt (Option.some.inj he), ht⟩
              intro g hg
              obtain rfl | hg := List.mem_cons.1 hg
              · exact hlt
              · exact Nat.lt_trans hlt (hactive g hg)
          obtain ⟨t, results, he, ht, hfit⟩ := hbody c
            ⟨hc.stuck, hc.results, List.forall_mem_cons.2 ⟨hl, hc.unknown⟩⟩
          refine ⟨t, (f, t) :: results, ?_, ⟨fn, hf, ht⟩, hfit.stuck, ?_, ?_⟩
          · simp only [get_bind, hbusy, hf, if_false, remember, he]
          · intro g u hu
            rw [List.lookup_cons] at hu
            split at hu
            · rename_i hg
              obtain rfl := Option.some.inj hu
              exact (beq_iff_eq.1 hg) ▸ ⟨fn, hf, ht⟩
            · exact hfit.results g u hu
          · intro g hg
            rw [List.lookup_cons, beq_false_of_ne (Nat.ne_of_gt (hactive g hg))]
            exact hfit.unknown g (List.mem_cons_of_mem f hg)

theorem resultType_synthesizes (hfns : fns.Scoped) {f : FuncId} {fn : Function} (hf : fns[f]? = some fn)
    (hk : fn.kind = .custom) : Synthesizes fns [] (resultType fns f) (fns.Returns f) :=
  resultAt_synthesizes hfns hf hk (Nat.lt_succ_of_lt (Array.getElem?_eq_some_iff.1 hf).1) (by simp)

theorem resultType_eq (hfns : fns.Scoped) {f : FuncId} {t : Ty} (h : fns.Returns f t) :
    ∃ c, resultType fns f {} = .ok t c := by
  obtain ⟨fn, hf, hb⟩ := h
  obtain hn | hc := hfns.kinds f fn hf
  · rw [Registry.body_native fn hn] at hb
    exact nomatch hb
  · obtain ⟨u, results, he, hu, -⟩ := resultType_synthesizes hfns hf hc {} fit_initial
    exact ⟨_, hu.unique ⟨fn, hf, hb⟩ ▸ he⟩

end Checking

end Polish
