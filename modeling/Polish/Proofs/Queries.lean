import Polish.Proofs.Synthesis.Stages

namespace Polish

/-- A checker that comes after another one while the result types of `active` are being found. -/
structure Checker.Later (active : List FuncId) (c c' : Checker) : Prop where
  stuck : c'.stuck = c.stuck
  results : ∀ f t, c.results.lookup f = some t → c'.results.lookup f = some t
  unknown : ∀ f, f ∈ active ∨ f ∈ c.stuck → c.results.lookup f = none → c'.results.lookup f = none
  reports : ∃ added : List Diagnostic, c'.report.entries = c.report.entries ++ added ∧
    c'.reported = (added.map (·.key)).reverse ++ c.reported ∧ (c.reported.Nodup → c'.reported.Nodup)

namespace Checking

variable {fns : Functions}

theorem progress_later (active : List FuncId) : Checker.Progress (Checker.Later active) where
  refl c := ⟨rfl, fun _ _ h => h, fun _ _ h => h, [], by simp⟩
  trans := by
    intro a b c hab hbc
    obtain ⟨added, hentries, hreported, hnodup⟩ := hab.reports
    obtain ⟨added', hentries', hreported', hnodup'⟩ := hbc.reports
    refine ⟨hbc.stuck.trans hab.stuck, fun f t h => hbc.results f t (hab.results f t h), ?_, added ++ added', ?_, ?_,
      fun h => hnodup' (hnodup h)⟩
    · intro f hf h
      exact hbc.unknown f (hab.stuck ▸ hf) (hab.unknown f hf h)
    · rw [hentries', hentries, List.append_assoc]
    · rw [hreported', hreported, List.map_append, List.reverse_append, List.append_assoc]
  record := by
    intro c d
    unfold Checker.record
    split
    · exact ⟨rfl, fun _ _ h => h, fun _ _ h => h, [], by simp⟩
    · rename_i hnew
      refine ⟨rfl, fun _ _ h => h, fun _ _ h => h, [d], rfl, rfl, fun h => ?_⟩
      exact List.nodup_cons.2 ⟨by simpa using hnew, h⟩

theorem lookup_cons_ne {results : List (FuncId × Ty)} {f g : FuncId} {t : Ty} (h : g ≠ f) :
    List.lookup g ((f, t) :: results) = results.lookup g := by
  rw [List.lookup_cons, beq_false_of_ne h]

/-- A result type that is found for a function that is not busy is added to the others. -/
theorem later_found {active : List FuncId} {f : FuncId} {c c' : Checker} (h : Checker.Later (f :: active) c c')
    (hknown : c.results.lookup f = none) (hactive : f ∉ active) (hstuck : f ∉ c.stuck) (t : Ty) :
    Checker.Later active c { c' with results := (f, t) :: c'.results } := by
  have hne {g : FuncId} (hg : g ∈ active ∨ g ∈ c.stuck) : g ≠ f := by
    rintro rfl
    exact hg.elim hactive hstuck
  refine ⟨h.stuck, fun g u hg => ?_, fun g hg hnone => ?_, h.reports⟩
  · have hgf : g ≠ f := by
      rintro rfl
      rw [hknown] at hg
      cases hg
    rw [lookup_cons_ne hgf]
    exact h.results g u hg
  · rw [lookup_cons_ne (hne hg)]
    exact h.unknown g (hg.imp_left (List.mem_cons_of_mem f)) hnone

theorem resultAt_later {depth : Nat} {active : List FuncId} (hroom : Room fns depth active) (f : FuncId) :
    Keeps (Checker.Later active) (resultAt fns depth active f) := by
  induction depth generalizing active f with
  | zero =>
      obtain ⟨n, hn⟩ := hroom.pos
      cases hn
  | succ depth ih =>
      intro c t c' hrun
      cases resultAt_cases hroom hrun with
      | known | busy => exact (progress_later active).refl c
      | found hn hknown hactive hstuck hf hbody =>
          cases hn
          have hbody := typeOf_keeps (progress_later (f :: active)) _ _
            (fun g _ => ih (hroom.enter hf hactive) g) c t _ hbody
          exact later_found hbody hknown hactive hstuck t

theorem resultType_later (fns : Functions) (f : FuncId) : Keeps (Checker.Later []) (resultType fns f) :=
  resultAt_later (room_nil fns) f

theorem resultType_again {f : FuncId} {t : Ty} {c c₁ c₂ : Checker} (h : resultType fns f c = .ok t c₁)
    (hlater : Checker.Later [] c₁ c₂) : resultType fns f c₂ = .ok t c₂ := by
  rw [resultType, resultAt_succ]
  cases resultAt_cases (room_nil fns) h with
  | known hknown => rw [hlater.results f t hknown]
  | busy hknown hbusy ht =>
      have hstuck : f ∈ c.stuck := hbusy.resolve_left List.not_mem_nil
      rw [hlater.unknown f (.inr hstuck) hknown, ht]
      dsimp only
      rw [if_pos (.inr (hlater.stuck ▸ hstuck))]
  | found => rw [hlater.results f t List.lookup_cons_self]

end Checking

namespace Ty

mutual

def isWhole : Ty → Bool
  | .basic _ | .unknown _ => true
  | .array element => isWhole element
  | .function params result => areWhole params && isWhole result
  | .object _ types => (List.finRange _).all fun i => isWhole (types i)
  | .absent => false

def areWhole : List Ty → Bool
  | [] => true
  | t :: ts => isWhole t && areWhole ts

end

theorem areWhole_iff {ts : List Ty} : areWhole ts = true ↔ ∀ t ∈ ts, t.isWhole = true :=
  Companion.all_iff rfl fun _ _ => rfl

theorem same_absent_of_isWhole {t : Ty} (h : t.isWhole = true) : t.same .absent = false := by
  cases t with
  | absent => cases h
  | basic | unknown | array | function | object => rfl

end Ty

def Param.isWhole (p : Param) : Bool := p.ty.isWhole

namespace Expr

mutual

def isWhole (size : Nat) : Expr → Bool
  | .hole => false
  | .number _ _ | .text _ _ | .var _ _ => true
  | .relocated _ x => isWhole size x
  | .closure _ params body => params.all Param.isWhole && isWhole size body
  | .call _ f args => decide (f < size) && areWhole size args

def areWhole (size : Nat) : List Expr → Bool
  | [] => true
  | x :: xs => isWhole size x && areWhole size xs

end

theorem areWhole_iff {size : Nat} {xs : List Expr} : areWhole size xs = true ↔ ∀ x ∈ xs, x.isWhole size = true :=
  Companion.all_iff rfl fun _ _ => rfl

end Expr

def Operation.isKnown : Operation → Bool
  | .other _ => false
  | _ => true

def Function.isWhole (size : Nat) (fn : Function) : Bool :=
  fn.params.all Param.isWhole && match fn.kind with
    | .pending => false
    | .custom => fn.body.isWhole size
    | .native | .other _ => fn.operation.isKnown

def Functions.isWhole (fns : Functions) : Bool := fns.toList.all (Function.isWhole fns.size)

namespace Functions

variable {fns : Functions} (h : fns.isWhole = true) {f : FuncId} {fn : Function} (hf : fns[f]? = some fn)
include h hf

theorem isWhole_function : fn.isWhole fns.size = true :=
  List.all_eq_true.1 h fn (Array.mem_toList_iff.2 (Array.mem_of_getElem? hf))

theorem kind_of_isWhole : fn.kind ≠ .pending := by
  intro hk
  simpa [Function.isWhole, hk] using isWhole_function h hf

theorem body_of_isWhole (hk : fn.kind = .custom) : fn.body.isWhole fns.size = true := by
  have hfn := isWhole_function h hf
  simp only [Function.isWhole, hk, Bool.and_eq_true] at hfn
  exact hfn.2

theorem operation_of_isWhole (hk : fn.kind ≠ .custom) (code : Int) : fn.operation ≠ .other code := by
  intro ho
  have hfn := isWhole_function h hf
  cases hkind : fn.kind with
  | custom => exact hk hkind
  | pending | native | other => simp [Function.isWhole, hkind, ho, Operation.isKnown] at hfn

theorem params_of_isWhole : fn.params.all Param.isWhole = true :=
  (Bool.and_eq_true_iff.1 (isWhole_function h hf)).1

end Functions

namespace Scope

variable {p : Ty → Bool} {scope : Scope} {params : List Param}

theorem all_lookup (h : (scope.all fun binding => p binding.2) = true) {name : Bytes} {t : Ty}
    (ht : scope.lookup name = some t) : p t = true := by
  obtain ⟨before, after, he, -⟩ := List.lookup_eq_some_iff.1 ht
  exact List.all_eq_true.1 h (name, t) (by simp [he])

theorem all_bind (h : (scope.all fun binding => p binding.2) = true) (hp : (params.all fun q => p q.ty) = true) :
    ((scope.bind params).all fun binding => p binding.2) = true := by
  induction params generalizing scope with
  | nil => exact h
  | cons q params ih =>
      obtain ⟨hfirst, hrest⟩ := Bool.and_eq_true_iff.1 hp
      exact ih (Bool.and_eq_true_iff.2 ⟨hfirst, h⟩) hrest

def isWhole (scope : Scope) : Bool := scope.all fun binding => binding.2.isWhole

theorem isWhole_lookup (h : scope.isWhole = true) {name : Bytes} {t : Ty} (ht : scope.lookup name = some t) :
    t.isWhole = true := all_lookup h ht

theorem isWhole_nil : Scope.isWhole [] = true := rfl

theorem isWhole_bind (h : scope.isWhole = true) (hp : params.all Param.isWhole = true) :
    (scope.bind params).isWhole = true := all_bind h hp

end Scope

theorem Functions.fit_of_isWhole {fns : Functions} (h : fns.isWhole = true) {f : FuncId} {fn : Function}
    (hf : fns[f]? = some fn) (hk : fn.kind = .custom) :
    (Scope.bind [] fn.params).isWhole = true ∧ fn.body.isWhole fns.size = true :=
  ⟨Scope.isWhole_bind Scope.isWhole_nil (params_of_isWhole h hf), body_of_isWhole h hf hk⟩

def Checker.Whole (c : Checker) : Prop := ∀ f t, c.results.lookup f = some t → t.isWhole = true

namespace Checking

variable {fns : Functions} {α β : Type} {resultOf : FuncId → Checking Ty}

/-- A stage that ends with a result, as long as whole types are remembered. -/
def Ends (stage : Checking α) (good : α → Prop) : Prop :=
  ∀ c : Checker, c.Whole → ∃ a c', stage c = .ok a c' ∧ good a ∧ c'.Whole

theorem logic_ends : Logic False (·.lacksType = false) Ends where
  pure h := fun c hc => ⟨_, c, rfl, h, hc⟩
  bind h h' := by
    intro c hc
    obtain ⟨a, c₁, hrun, ha, hc₁⟩ := h c hc
    obtain ⟨b, c₂, hrun', hb, hc₂⟩ := h' a ha c₁ hc₁
    exact ⟨b, c₂, (bind_ok hrun).trans hrun', hb, hc₂⟩
  throw h _ := h.elim
  flag {problem} h l fatal := by
    intro c hc
    refine ⟨(), _, flag_ok h l fatal c, trivial, fun f t ht => hc f t ?_⟩
    rwa [Checker.results_record] at ht

theorem lacksType_mismatch {got want : Ty} (hgot : got.isWhole = true) (hwant : want.isWhole = true) :
    (Problem.mismatch got want).lacksType = false := by
  simp [Problem.lacksType, Ty.same_absent_of_isWhole hgot, Ty.same_absent_of_isWhole hwant]

/-- On a table of which no part is missing, whole expressions have whole types. -/
theorem discipline_whole (hfns : fns.isWhole = true) : Discipline fns False (·.lacksType = false)
    (fun scope x => scope.isWhole = true ∧ x.isWhole fns.size = true) (fun _ t => t.isWhole = true)
    (fun _ _ t => t.isWhole = true) Ends where
  toLogic := logic_ends
  ofHole h := by cases h.2
  ofRelocated h := h
  ofClosure h := by
    obtain ⟨hparams, hbody⟩ := Bool.and_eq_true_iff.1 h.2
    exact ⟨Scope.isWhole_bind h.1 hparams, hbody⟩
  ofArgs h := fun x hx => ⟨h.1, Expr.areWhole_iff.1 (Bool.and_eq_true_iff.1 h.2).2 x hx⟩
  ofCall h hbad := by
    have hf := Array.getElem?_eq_getElem (of_decide_eq_true (Bool.and_eq_true_iff.1 h.2).1)
    rcases hbad _ hf with hp | ⟨hk, code, ho⟩
    · exact Functions.kind_of_isWhole hfns hf hp
    · exact Functions.operation_of_isWhole hfns hf hk code ho
  toTypings := typings_sort (fun _ => rfl) (by simp [Ty.isWhole, Ty.areWhole_iff])
    (fun hx ht => Scope.isWhole_lookup hx.1 ht)
    (fun hx => List.forall_mem_map.2 (List.all_eq_true.1 (Bool.and_eq_true_iff.1 hx.2).1))
    (fun hg => List.forall_mem_map.2 (List.all_eq_true.1 (Functions.params_of_isWhole hfns hg)))
    rfl rfl Ty.same_absent_of_isWhole lacksType_mismatch

theorem resultAt_ends (hfns : fns.isWhole = true) {depth : Nat} {active : List FuncId} (hroom : Room fns depth active)
    {f : FuncId} {fn : Function} (hf : fns[f]? = some fn) (hk : fn.kind = .custom) :
    Ends (resultAt fns depth active f) (·.isWhole = true) := by
  induction depth generalizing active f fn with
  | zero =>
      obtain ⟨n, hn⟩ := hroom.pos
      cases hn
  | succ depth ih =>
      intro c hc
      rw [resultAt_succ]
      cases hknown : c.results.lookup f with
      | some t => exact ⟨t, c, rfl, hc f t hknown, hc⟩
      | none =>
          dsimp only
          by_cases hbusy : f ∈ active ∨ f ∈ c.stuck
          · rw [if_pos hbusy]
            exact ⟨.any, c, rfl, rfl, hc⟩
          · have hroom' := hroom.enter hf fun hmem => hbusy (.inl hmem)
            have hasks : ∀ g ∈ fn.body.asks fns, Ends (resultAt fns depth (f :: active) g) (·.isWhole = true) := by
              intro g hg
              obtain ⟨gn, hgn, hkind⟩ := Expr.custom_of_mem_asks fn.body hg
              exact ih hroom' hgn hkind
            obtain ⟨t, c', hrun, ht, hc'⟩ :=
              typeOf_holds (discipline_whole hfns) fn.body _ (Functions.fit_of_isWhole hfns hf hk) hasks c hc
            rw [if_neg hbusy, hf]
            refine ⟨t, { c' with results := (f, t) :: c'.results }, ?_, ht, fun g u hg => ?_⟩
            · simp only [remember, hrun]
            · by_cases hgf : g = f
              · rw [hgf, List.lookup_cons_self] at hg
                exact Option.some.inj hg ▸ ht
              · rw [lookup_cons_ne hgf] at hg
                exact hc' g u hg

theorem resultType_ends (hfns : fns.isWhole = true) : FoundBy fns (fun _ t => t.isWhole = true) Ends :=
  fun _ _ hf hk => resultAt_ends hfns (room_nil fns) hf hk

end Checking

inductive Query where
  | checkFunction (f : FuncId)
  | checkExpr (x : Expr) (scope : Scope)
  | exprType (x : Expr) (scope : Scope)
  | resultType (f : FuncId)

namespace Query

open Checking (Keeps Ends)

def run (fns : Functions) : Query → Checking (Option Ty)
  | .checkFunction f => do
    Checking.checkFunction fns f
    return none
  | .checkExpr x scope => do
    Checking.checkExpr fns x scope
    return none
  | .exprType x scope => return some (← Checking.exprType fns x scope)
  | .resultType f => return some (← Checking.resultType fns f)

def runAll (fns : Functions) : List Query → Checking Unit
  | [] => return
  | q :: qs => do
    let _ ← q.run fns
    runAll fns qs

def isWhole (fns : Functions) : Query → Bool
  | .checkFunction f => f < fns.size
  | .checkExpr x scope | .exprType x scope => x.isWhole fns.size && scope.isWhole
  | .resultType f => fns[f]?.any (·.kind = .custom)

variable {fns : Functions}

section Holds

variable {faulty : Prop} {ok : Problem → Prop} {Fit : Scope → Expr → Prop} {Result : FuncId → Ty → Prop}
  {Has : Scope → Expr → Ty → Prop} {Holds : {α : Type} → Checking α → (α → Prop) → Prop} {Asked : FuncId → Prop}

def Fits (fns : Functions) (faulty : Prop) (Fit : Scope → Expr → Prop) (Asked : FuncId → Prop) : Query → Prop
  | .checkFunction f => ((∀ fn : Function, fns[f]? = some fn → fn.kind = .pending) → faulty) ∧
      ∀ fn : Function, fns[f]? = some fn → fn.kind = .custom → Fit (Scope.bind [] fn.params) fn.body
  | .checkExpr x scope | .exprType x scope => Fit scope x
  | .resultType f => Asked f

variable (hd : Checking.Discipline fns faulty ok Fit Result Has Holds) (hresult : Checking.FoundBy fns Result Holds)
  (hasked : ∀ f, Asked f → Holds (Checking.resultType fns f) (Result f))
include hd hresult hasked

theorem run_holds {q : Query} (hq : q.Fits fns faulty Fit Asked) : Holds (q.run fns) fun _ => True := by
  cases q with
  | checkFunction f =>
      exact hd.bind (Checking.checkFunction_holds hd hresult hq.1 hq.2) fun _ _ => hd.pure trivial
  | checkExpr x scope => exact hd.bind (Checking.checkExpr_holds hd hresult x scope hq) fun _ _ => hd.pure trivial
  | exprType x scope => exact hd.bind (Checking.exprType_holds hd hresult hq) fun _ _ => hd.pure trivial
  | resultType f => exact hd.bind (hasked f hq) fun _ _ => hd.pure trivial

theorem runAll_holds {qs : List Query} (hqs : ∀ q ∈ qs, q.Fits fns faulty Fit Asked) :
    Holds (runAll fns qs) fun _ => True := by
  induction qs with
  | nil => exact hd.pure trivial
  | cons q qs ih =>
      obtain ⟨hq, hqs⟩ := List.forall_mem_cons.1 hqs
      exact hd.bind (run_holds hd hresult hasked hq) fun _ _ => ih hqs

end Holds

section Keeps

variable {R : Checker → Checker → Prop} (hR : Checker.Progress R) (hresult : ∀ g, Keeps R (Checking.resultType fns g))
include hR hresult

omit hR hresult in
theorem fits_any (q : Query) : q.Fits fns True (fun _ _ => True) fun _ => True := by
  cases q with
  | checkFunction f => exact ⟨fun _ => trivial, fun _ _ _ => trivial⟩
  | checkExpr | exprType | resultType => trivial

theorem run_keeps (q : Query) : Keeps R (q.run fns) :=
  (Checking.keeps_iff hR).2 fun start => run_holds (Checking.discipline_later hR start)
    (fun g _ _ _ => (Checking.keeps_iff hR).1 (hresult g) start)
    (fun g _ => (Checking.keeps_iff hR).1 (hresult g) start) q.fits_any

theorem runAll_keeps (qs : List Query) : Keeps R (runAll fns qs) :=
  (Checking.keeps_iff hR).2 fun start => runAll_holds (Checking.discipline_later hR start)
    (fun g _ _ _ => (Checking.keeps_iff hR).1 (hresult g) start)
    (fun g _ => (Checking.keeps_iff hR).1 (hresult g) start) fun q _ => q.fits_any

end Keeps

theorem fits_of_isWhole (hfns : fns.isWhole = true) {q : Query} (hq : q.isWhole fns = true) :
    q.Fits fns False (fun scope x => scope.isWhole = true ∧ x.isWhole fns.size = true)
      fun f => ∃ fn : Function, fns[f]? = some fn ∧ fn.kind = .custom := by
  cases q with
  | checkFunction f =>
      have hf := Array.getElem?_eq_getElem (of_decide_eq_true hq)
      exact ⟨fun hp => Functions.kind_of_isWhole hfns hf (hp _ hf), fun _ => Functions.fit_of_isWhole hfns⟩
  | checkExpr x scope | exprType x scope => exact (Bool.and_eq_true_iff.1 hq).symm
  | resultType f => simpa [isWhole, Fits, Option.any_eq_true] using hq

theorem run_ends (hfns : fns.isWhole = true) {q : Query} (hq : q.isWhole fns = true) :
    Ends (q.run fns) fun _ => True :=
  run_holds (Checking.discipline_whole hfns) (Checking.resultType_ends hfns)
    (fun f hf => hf.elim fun fn hfn => Checking.resultType_ends hfns f fn hfn.1 hfn.2) (fits_of_isWhole hfns hq)

theorem runAll_ends (hfns : fns.isWhole = true) {qs : List Query} (hqs : ∀ q ∈ qs, q.isWhole fns = true) :
    Ends (runAll fns qs) fun _ => True :=
  runAll_holds (Checking.discipline_whole hfns) (Checking.resultType_ends hfns)
    (fun f hf => hf.elim fun fn hfn => Checking.resultType_ends hfns f fn hfn.1 hfn.2)
    fun q hq => fits_of_isWhole hfns (hqs q hq)

/-- Any questions to a checker are answered, on a table of which no part is missing. The search for a result type is
never cut off by its bound, and leaves no function busy. An answer keeps the result types that are remembered, so that
the result type of a function stays what it is, and what is reported differs in place or text. -/
theorem runAll_settled (hfns : fns.isWhole = true) {qs : List Query} (hqs : ∀ q ∈ qs, q.isWhole fns = true)
    (report : Report) :
    (∀ depth, fns.size < depth → ∀ f, Checking.resultAt fns depth [] f = Checking.resultType fns f) ∧
    ∃ c, runAll fns qs { report } = .ok () c ∧ c.stuck = [] ∧
      (∃ added : List Diagnostic, c.report.entries = report.entries ++ added ∧ (added.map (·.key)).Nodup) ∧
      ∀ q : Query, q.isWhole fns = true → ∃ answer c', q.run fns c = .ok answer c' ∧ c'.stuck = c.stuck ∧
        (∀ f t, c.results.lookup f = some t → c'.results.lookup f = some t) ∧
        ∀ later : List Query, (∀ q ∈ later, q.isWhole fns = true) → ∃ c'', runAll fns later c' = .ok () c'' ∧
          ∀ f t, q = .resultType f → answer = some t → Checking.resultType fns f c'' = .ok t c'' := by
  have hlater := Checking.progress_later []
  have hresult := Checking.resultType_later fns
  constructor
  · intro depth hdepth f
    exact Checking.resultAt_depth ⟨List.nodup_nil, by simp, by simpa using hdepth⟩ (Checking.room_nil fns) f
  · obtain ⟨⟨⟩, c, hrun, -, hc⟩ := runAll_ends hfns hqs { report } (by simp [Checker.Whole])
    have hstart := runAll_keeps hlater hresult qs _ _ _ hrun
    obtain ⟨added, hentries, hreported, hnodup⟩ := hstart.reports
    refine ⟨c, hrun, hstart.stuck, ⟨added, hentries, ?_⟩, fun q hq => ?_⟩
    · have hkeys := hnodup List.nodup_nil
      rw [hreported, List.append_nil] at hkeys
      exact List.nodup_reverse.1 hkeys
    · obtain ⟨answer, c', hanswer, -, hc'⟩ := run_ends hfns hq c hc
      have hstep := run_keeps hlater hresult q c answer c' hanswer
      refine ⟨answer, c', hanswer, hstep.stuck, hstep.results, fun later hwhole => ?_⟩
      obtain ⟨⟨⟩, c'', hrest, -, -⟩ := runAll_ends hfns hwhole c' hc'
      refine ⟨c'', hrest, fun f t hf ht => ?_⟩
      subst hf ht
      obtain ⟨u, c₁, hu, hpure⟩ := bind_eq_ok.1 hanswer
      cases hpure
      exact Checking.resultType_again hu (runAll_keeps hlater hresult later _ _ _ hrest)

def ring : Functions :=
  #[{ name := utf8 "f", kind := .custom, body := .closure {} [] (.call {} 1 []) },
    { name := utf8 "g", kind := .custom, body := .call {} 2 [.call {} 0 [], .var {} (utf8 "x")] },
    { name := utf8 "apply", kind := .native, operation := .call }]

theorem runAll_settled_ring :
    ring.isWhole = true ∧ ∃ c, runAll ring [.checkFunction 1, .resultType 0] {} = .ok () c ∧ c.stuck = [] ∧
      (c.report.entries.map (·.key)).Nodup ∧ ∃ answer c', (Query.resultType 1).run ring c = .ok answer c' := by
  have hring : ring.isWhole = true := by decide
  have hqs : ∀ q ∈ [Query.checkFunction 1, .resultType 0], q.isWhole ring = true := by decide
  obtain ⟨-, c, hrun, hstuck, ⟨added, hentries, hnodup⟩, hnext⟩ := runAll_settled hring hqs {}
  obtain ⟨answer, c', hanswer, -⟩ := hnext (.resultType 1) (by decide)
  exact ⟨hring, c, hrun, hstuck, by simpa [hentries] using hnodup, answer, c', hanswer⟩

end Query

end Polish
