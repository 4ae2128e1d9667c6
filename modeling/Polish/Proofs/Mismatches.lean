import Polish.Proofs.Synthesis

namespace Polish

/-- An argument, in the scope in which it stands, with the type that it has to cast to. -/
structure Site where
  scope : Scope
  arg : Expr
  want : Ty

def Functions.wants (fns : Functions) (f : FuncId) : List Ty :=
  match fns[f]? with
  | some fn => fn.params.map (·.ty)
  | none => []

namespace Expr

mutual

def sites (fns : Functions) : Expr → Scope → List Site
  | .call _ f args, scope => List.zipWith (Site.mk scope) args (fns.wants f) ++ sitesList fns args scope
  | .relocated _ x, scope => sites fns x scope
  | .closure _ params body, scope => sites fns body (scope.bind params)
  | .hole, _ | .number _ _, _ | .text _ _, _ | .var _ _, _ => []

def sitesList (fns : Functions) : List Expr → Scope → List Site
  | [], _ => []
  | x :: xs, scope => sites fns x scope ++ sitesList fns xs scope

end

theorem mem_sitesList {fns : Functions} {scope : Scope} {site : Site} {xs : List Expr} :
    site ∈ sitesList fns xs scope ↔ ∃ x ∈ xs, site ∈ x.sites fns scope := by
  induction xs with
  | nil => simp [sitesList]
  | cons x xs ih => simp [sitesList, ih]

end Expr

def Functions.sites (fns : Functions) (f : FuncId) : List Site :=
  match fns[f]? with
  | some fn => fn.body.sites fns (Scope.bind [] fn.params)
  | none => []

inductive Mismatches (fns : Functions) : List Site → List Diagnostic → Prop
  | nil : Mismatches fns [] []
  | casts {site t sites ds} (ht : HasType fns none site.scope site.arg t) (hc : t.casts site.want = true)
      (rest : Mismatches fns sites ds) : Mismatches fns (site :: sites) ds
  | fails {site t sites ds} (ht : HasType fns none site.scope site.arg t) (hc : t.casts site.want = false)
      (rest : Mismatches fns sites ds) :
      Mismatches fns (site :: sites) ({ location := site.arg.location, problem := .mismatch t site.want } :: ds)

namespace Mismatches

variable {fns : Functions} {sites sites' : List Site} {ds ds' : List Diagnostic}

theorem append (h : Mismatches fns sites ds) (h' : Mismatches fns sites' ds') :
    Mismatches fns (sites ++ sites') (ds ++ ds') := by
  induction h with
  | nil => exact h'
  | casts ht hc _ ih => exact .casts ht hc ih
  | fails ht hc _ ih => exact .fails ht hc ih

theorem fatal_eq_false (h : Mismatches fns sites ds) : ∀ d ∈ ds, d.fatal = false := by
  induction h with
  | nil => simp
  | casts _ _ _ ih => exact ih
  | fails _ _ _ ih => exact List.forall_mem_cons.2 ⟨rfl, ih⟩

theorem locations_sublist (h : Mismatches fns sites ds) :
    List.Sublist (ds.map (·.location)) (sites.map (·.arg.location)) := by
  induction h with
  | nil => exact .slnil
  | casts _ _ _ ih => exact ih.cons _
  | fails _ _ _ ih => exact ih.cons_cons _

theorem unique (h : Mismatches fns sites ds) (h' : Mismatches fns sites ds') : ds = ds' := by
  induction h generalizing ds' with
  | nil => cases h'; rfl
  | casts ht hc _ ih =>
      cases h' with
      | casts _ _ rest' => exact ih rest'
      | fails ht' hc' _ => exact absurd (ht.unique ht' ▸ hc) (by simp [hc'])
  | fails ht hc _ ih =>
      cases h' with
      | casts ht' hc' _ => exact absurd (ht.unique ht' ▸ hc) (by simp [hc'])
      | fails ht' hc' rest' => rw [ht.unique ht', ih rest']

theorem perm (hp : sites.Perm sites') (h : Mismatches fns sites ds) :
    ∃ ds', Mismatches fns sites' ds' ∧ ds.Perm ds' := by
  induction hp generalizing ds with
  | nil => exact ⟨ds, h, .rfl⟩
  | cons site _ ih =>
      cases h with
      | casts ht hc rest =>
          obtain ⟨ds', h', hperm⟩ := ih rest
          exact ⟨ds', .casts ht hc h', hperm⟩
      | fails ht hc rest =>
          obtain ⟨ds', h', hperm⟩ := ih rest
          exact ⟨_, .fails ht hc h', hperm.cons _⟩
  | swap a b _ =>
      cases h with
      | casts ht hc rest =>
          cases rest with
          | casts ht' hc' rest => exact ⟨_, .casts ht' hc' (.casts ht hc rest), .rfl⟩
          | fails ht' hc' rest => exact ⟨_, .fails ht' hc' (.casts ht hc rest), .rfl⟩
      | fails ht hc rest =>
          cases rest with
          | casts ht' hc' rest => exact ⟨_, .casts ht' hc' (.fails ht hc rest), .rfl⟩
          | fails ht' hc' rest => exact ⟨_, .fails ht' hc' (.fails ht hc rest), .swap _ _ _⟩
  | trans _ _ ih1 ih2 =>
      obtain ⟨ds₁, h₁, hp₁⟩ := ih1 h
      obtain ⟨ds₂, h₂, hp₂⟩ := ih2 h₁
      exact ⟨ds₂, h₂, hp₁.trans hp₂⟩

end Mismatches

namespace Checker

theorem results_record (c : Checker) (d : Diagnostic) : (c.record d).results = c.results := by
  unfold record
  split <;> rfl

/-- What is reported does not depend on the result types that are remembered. -/
theorem foldl_record_results (ds : List Diagnostic) (c : Checker) (results : List (FuncId × Ty)) :
    ds.foldl record { c with results } = { ds.foldl record c with results } := by
  induction ds generalizing c with
  | nil => rfl
  | cons d ds ih =>
      have hd : record { c with results } d = { record c d with results } := by
        unfold record
        split <;> rfl
      rw [List.foldl_cons, hd, ih, List.foldl_cons]

theorem stuck_foldl_record (ds : List Diagnostic) (c : Checker) : (ds.foldl record c).stuck = c.stuck := by
  induction ds generalizing c with
  | nil => rfl
  | cons d ds ih =>
      rw [List.foldl_cons, ih]
      unfold record
      split <;> rfl

theorem entries_foldl_record (ds : List Diagnostic) (c : Checker) (hd : (ds.map (·.key)).Nodup)
    (hc : ∀ d ∈ ds, d.key ∉ c.reported) :
    (ds.foldl record c).report.entries = c.report.entries ++ ds := by
  induction ds generalizing c with
  | nil => simp
  | cons d ds ih =>
      obtain ⟨hnew, hd⟩ := List.nodup_cons.1 hd
      have hrecord : record c d = { c with reported := d.key :: c.reported, report := c.report.add d } := by
        simp [record, hc d (by simp)]
      rw [List.foldl_cons, hrecord, ih _ hd ?_]
      · simp [Report.add]
      · intro e he hmem
        obtain heq | hmem := List.mem_cons.1 hmem
        · exact hnew (List.mem_map.2 ⟨e, he, heq⟩)
        · exact hc e (List.mem_cons_of_mem d he) hmem

theorem stopped_foldl_record {ds : List Diagnostic} (hds : ∀ d ∈ ds, d.fatal = false) {c : Checker}
    (hc : c.report.stopped = false) : (ds.foldl record c).report.stopped = false := by
  induction ds generalizing c with
  | nil => exact hc
  | cons d ds ih =>
      obtain ⟨hd, hds⟩ := List.forall_mem_cons.1 hds
      refine ih hds ?_
      unfold record
      split
      · exact hc
      · simpa [Report.stopped, Report.add, hd] using hc

end Checker

def Scope.Present (scope : Scope) : Prop := ∀ name t, scope.lookup name = some t → t ≠ .absent

theorem Scope.Present.bind {scope : Scope} (h : scope.Present) {params : List Param}
    (hp : ∀ p ∈ params, p.ty ≠ .absent) : (scope.bind params).Present := by
  induction params generalizing scope with
  | nil => exact h
  | cons p params ih =>
      obtain ⟨hp, hps⟩ := List.forall_mem_cons.1 hp
      refine ih (fun name t ht => ?_) hps
      rw [List.lookup_cons] at ht
      split at ht
      · exact Option.some.inj ht ▸ hp
      · exact h name t ht

theorem Scope.present_nil : Scope.Present [] := fun _ _ h => nomatch h

theorem HasType.ne_absent {fns : Functions} (hfns : fns.Scoped) {self : Option FuncId} {scope : Scope} {x : Expr}
    {t : Ty} (h : HasType fns self scope x t) (hscope : scope.Present) : t ≠ .absent := by
  induction h with
  | number | text | closure | itself => exact nofun
  | var h => exact hscope _ _ h
  | relocated _ ih => exact ih hscope
  | @native _ _ _ _ _ fn t _ _ ho =>
      cases hop : fn.operation <;> rw [hop] at ho <;> cases ho <;> exact nofun
  | call hf hk hne hb ih => exact ih (Scope.present_nil.bind (hfns.params _ _ hf))

namespace Checking

variable {fns : Functions}

/-- A stage that reports given diagnostics and remembers result types. -/
def Flags (fns : Functions) (stage : Checking Unit) (ds : List Diagnostic) : Prop :=
  ∀ c : Checker, c.Fit fns [] → ∃ results, stage c = .ok () { ds.foldl Checker.record c with results } ∧
    Checker.Fit fns [] { c with results }

theorem flags_pure : Flags fns (pure ()) [] := fun c hc => ⟨c.results, rfl, hc⟩

theorem fit_foldl_record {c : Checker} (hc : c.Fit fns []) (ds : List Diagnostic) (results : List (FuncId × Ty))
    (hr : Checker.Fit fns [] { c with results }) :
    Checker.Fit fns [] { ds.foldl Checker.record c with results } :=
  ⟨(Checker.stuck_foldl_record ds c).trans hc.stuck, hr.results, hr.unknown⟩

theorem flags_bind {first second : Checking Unit} {ds ds' : List Diagnostic} (h : Flags fns first ds)
    (h' : Flags fns second ds') : Flags fns (first >>= fun _ => second) (ds ++ ds') := by
  intro c hc
  obtain ⟨results, he, hfit⟩ := h c hc
  obtain ⟨results', he', hfit'⟩ := h' _ (fit_foldl_record hc ds results hfit)
  refine ⟨results', ?_, hc.stuck, hfit'.results, hfit'.unknown⟩
  rw [bind_ok he, he', Checker.foldl_record_results, List.foldl_append]

/-- A type that is found is the only one, so that what depends on it may be said of this type alone. -/
theorem flags_synthesizes {stage : Checking Ty} {k : Ty → Checking Unit} {good : Ty → Prop} {t : Ty}
    {ds : List Diagnostic} (h : Synthesizes fns [] stage good) (ht : ∀ u, good u → u = t) (hk : Flags fns (k t) ds) :
    Flags fns (stage >>= k) ds := by
  intro c hc
  obtain ⟨u, results, he, hu, hfit⟩ := h c hc
  obtain rfl := ht u hu
  obtain ⟨results', he', hfit'⟩ := hk _ hfit
  refine ⟨results', ?_, hc.stuck, hfit'.results, hfit'.unknown⟩
  rw [bind_ok he, he', Checker.foldl_record_results]

theorem flag_ok {problem : Problem} (h : problem.lacksType = false) (l : Location) (fatal : Bool) (c : Checker) :
    flag l problem fatal c = .ok () (c.record { location := l, problem, fatal }) := by
  rw [flag, h]
  rfl

theorem flags_flag (location : Location) {problem : Problem} (fatal : Bool) (h : problem.lacksType = false) :
    Flags fns (flag location problem fatal) [{ location, problem, fatal }] := by
  intro c hc
  refine ⟨c.results, ?_, hc⟩
  rw [flag_ok h, List.foldl_cons, List.foldl_nil, ← c.results_record]

def Fits (fns : Functions) (x : Expr) : Prop :=
  ∀ call ∈ x.calls, ∃ callee : Function, fns[call.1]? = some callee ∧ call.2.length = callee.params.length

theorem exprType_synthesizes (hfns : fns.Scoped) {scope : Scope} {x : Expr} (hx : x.Scoped scope)
    (hcalls : Fits fns x) :
    Synthesizes fns [] (typeOf fns (resultType fns) x scope) (HasType fns none scope x) := by
  refine typeOf_synthesizes hfns hx fun call hcall => ?_
  obtain ⟨callee, hcallee, -⟩ := hcalls call hcall
  exact ⟨callee, hcallee, fun hk => (resultType_synthesizes hfns hcallee hk).mono fun t ht => .inr ⟨nofun, ht⟩⟩

theorem same_absent {t : Ty} (h : t ≠ .absent) : t.same .absent = false := by
  cases t <;> first | rfl | exact absurd rfl h

theorem checkCasts_flags (hfns : fns.Scoped) {scope : Scope} (hscope : scope.Present) {args : List Expr}
    (hargs : ∀ x ∈ args, x.Scoped scope ∧ Fits fns x) {ts : List Ty} (hts : ∀ t ∈ ts, t ≠ .absent) :
    ∃ ds, Mismatches fns (List.zipWith (Site.mk scope) args ts) ds ∧
      Flags fns (checkCasts fns (resultType fns) args ts scope) ds := by
  induction args generalizing ts with
  | nil => exact ⟨[], .nil, flags_pure⟩
  | cons x args ih =>
      cases ts with
      | nil => exact ⟨[], .nil, flags_pure⟩
      | cons want ts =>
          obtain ⟨⟨hx, hcalls⟩, hargs⟩ := List.forall_mem_cons.1 hargs
          obtain ⟨hwant, hts⟩ := List.forall_mem_cons.1 hts
          obtain ⟨ds, hds, hflags⟩ := ih hargs hts
          have hsynth := exprType_synthesizes hfns hx hcalls
          obtain ⟨t, -, -, ht, -⟩ := hsynth {} fit_initial
          have hunique : ∀ u, HasType fns none scope x u → u = t := fun u hu => hu.unique ht
          simp only [checkCasts]
          cases hc : t.casts want with
          | true =>
              refine ⟨ds, .casts ht hc hds, flags_synthesizes hsynth hunique ?_⟩
              simpa [hc] using hflags
          | false =>
              refine ⟨_, .fails ht hc hds, flags_synthesizes hsynth hunique ?_⟩
              simp only [hc, Bool.not_false, if_true]
              refine flags_bind (flags_flag _ _ ?_) hflags
              simp [Problem.lacksType, same_absent hwant, same_absent (ht.ne_absent hfns hscope)]

theorem checkExprList_flags {scope : Scope} {args : List Expr}
    (h : ∀ x ∈ args, ∃ ds, Mismatches fns (x.sites fns scope) ds ∧ Flags fns (checkExpr fns x scope) ds) :
    ∃ ds, Mismatches fns (Expr.sitesList fns args scope) ds ∧ Flags fns (checkExprList fns args scope) ds := by
  induction args with
  | nil => exact ⟨[], .nil, flags_pure⟩
  | cons x args ih =>
      obtain ⟨⟨ds, hds, hflags⟩, hargs⟩ := List.forall_mem_cons.1 h
      obtain ⟨ds', hds', hflags'⟩ := ih hargs
      exact ⟨ds ++ ds', hds.append hds', flags_bind hflags hflags'⟩

theorem wants_eq {f : FuncId} {fn : Function} (hf : fns[f]? = some fn) : fns.wants f = fn.params.map (·.ty) := by
  simp only [Functions.wants, hf]

theorem applies_eq_false (hfns : fns.Scoped) {f : FuncId} {fn : Function} (hf : fns[f]? = some fn) :
    (decide (fn.kind = .native) && decide (fn.operation = .call)) = false := by
  obtain hn | hc := hfns.kinds f fn hf
  · have hop : fn.operation ≠ .call := by
      intro he
      have := result?_native fn hn
      simp [he, Operation.result?] at this
    simp [hop]
  · simp [hc]

/-- The checker reports the arguments that do not cast. -/
theorem checkExpr_flags (hfns : fns.Scoped) {scope : Scope} {x : Expr} (hx : x.Scoped scope) (hscope : scope.Present)
    (hcalls : Fits fns x) :
    ∃ ds, Mismatches fns (x.sites fns scope) ds ∧ Flags fns (checkExpr fns x scope) ds := by
  induction hx with
  | number | text | var => exact ⟨[], .nil, flags_pure⟩
  | relocated _ ih => exact ih hscope hcalls
  | closure hp _ ih => exact ih (hscope.bind hp) hcalls
  | @call scope l f args h ih =>
      obtain ⟨fn, hf, hlen⟩ := hcalls (f, args) (by simp [Expr.calls])
      have hargs : ∀ x ∈ args, Fits fns x := fun x hx call hcall =>
        hcalls call (by simpa [Expr.calls] using .inr (Expr.mem_callsList.2 ⟨x, hx, hcall⟩))
      have hwants : ∀ t ∈ fn.params.map (·.ty), t ≠ .absent := by
        simpa using hfns.params f fn hf
      obtain ⟨ds, hds, hflags⟩ := checkCasts_flags hfns hscope (fun x hx => ⟨h x hx, hargs x hx⟩) hwants
      obtain ⟨ds', hds', hflags'⟩ := checkExprList_flags fun x hx => ih x hx hscope (hargs x hx)
      refine ⟨ds ++ ds', ?_, ?_⟩
      · rw [Expr.sites, wants_eq hf]
        exact hds.append hds'
      · simp only [checkExpr, resolve_eq hf (kind_ne_pending hfns hf), pure_bind, applies_eq_false hfns hf, hlen,
          ne_eq, not_true_eq_false, Bool.false_eq_true, if_false]
        exact flags_bind hflags hflags'

theorem checkFunction_flags (hfns : fns.Scoped) {f : FuncId} {fn : Function} (hf : fns[f]? = some fn) :
    ∃ ds, Mismatches fns (fns.sites f) ds ∧ Flags fns (checkFunction fns f) ds := by
  simp only [Functions.sites, hf, checkFunction, resolve_eq hf (kind_ne_pending hfns hf), pure_bind]
  obtain hn | hc := hfns.kinds f fn hf
  · rw [Registry.body_native fn hn, Registry.kind_native fn hn]
    exact ⟨[], .nil, flags_pure⟩
  · have hcalls : Fits fns fn.body := fun call hcall => (hfns.calls f fn hf call hcall).2
    obtain ⟨ds, hds, hflags⟩ := checkExpr_flags hfns (hfns.bodies f fn hf hc)
      (Scope.present_nil.bind (hfns.params f fn hf)) hcalls
    have hsynth := resultType_synthesizes hfns hf hc
    obtain ⟨t, -, -, ht, -⟩ := hsynth {} fit_initial
    rw [if_pos hc]
    exact ⟨ds, hds, flags_synthesizes hsynth (fun u hu => hu.unique ht) hflags⟩

/-- The checker goes through all functions, as nothing that it reports is fatal. -/
theorem checkAll_eq (hfns : fns.Scoped) {order : List FuncId} (horder : ∀ f ∈ order, f < fns.size) :
    ∃ ds, Mismatches fns (order.flatMap fns.sites) ds ∧
      ∀ c : Checker, c.Fit fns [] → c.report.stopped = false →
        ∃ results, checkAll fns order c = .ok () { ds.foldl Checker.record c with results } := by
  induction order with
  | nil => exact ⟨[], .nil, fun c _ _ => ⟨c.results, rfl⟩⟩
  | cons f order ih =>
      obtain ⟨hf, horder⟩ := List.forall_mem_cons.1 horder
      obtain ⟨ds, hds, hflags⟩ := checkFunction_flags hfns (Array.getElem?_eq_getElem hf)
      obtain ⟨ds', hds', hrest⟩ := ih horder
      refine ⟨ds ++ ds', hds.append hds', fun c hc hstopped => ?_⟩
      obtain ⟨results, he, hfit⟩ := hflags c hc
      have hgoes := Checker.stopped_foldl_record hds.fatal_eq_false hstopped
      obtain ⟨results', he'⟩ := hrest _ (fit_foldl_record hc ds results hfit) hgoes
      refine ⟨results', ?_⟩
      rw [checkAll, bind_ok he, get_bind]
      simp only [hgoes, Bool.false_eq_true, if_false]
      rw [he', Checker.foldl_record_results, List.foldl_append]

end Checking

end Polish
