import Polish.Proofs.Renaming
import Polish.Proofs.RoundTrip

namespace Polish

open Grammar

namespace Grammar

variable {src : Source} {r r' : Registry} {scope : Parser.Bindings} {c : Cursor}

theorem Signature.unique {name name' : Bytes} {location location' : Location} {params params' : List Param}
    {d d' : Cursor} (h : Signature src c name location params d) (h' : Signature src c name' location' params' d') :
    name' = name ∧ location' = location ∧ params' = params ∧ d' = d := by
  obtain ⟨ht, -, -, hp, ha⟩ := h
  obtain ⟨ht', -, -, hp', ha'⟩ := h'
  obtain ⟨rfl, rfl⟩ := Prod.mk.inj (ht.symm.trans ht')
  have hrun := Parser.params_run src hp ha (Nat.lt_succ_self _) (Nat.lt_succ_self _) {}
  have hrun' := Parser.params_run src hp' ha' (Nat.lt_succ_self _) (Nat.lt_succ_self _) {}
  cases hrun.symm.trans hrun'
  exact ⟨rfl, rfl, rfl, rfl⟩

theorem Exprs.unique {x x' : Expr} {notes notes' : List Diagnostic} {d d' : Cursor}
    (h : Exprs src r scope c [x] notes d) (h' : Exprs src r scope c [x'] notes' d') : x' = x ∧ d' = d := by
  have hrun := Parser.expr_run h (Nat.lt_succ_self _) {}
  have hrun' := Parser.expr_run h' (Nat.lt_succ_self _) {}
  cases hrun.symm.trans hrun'
  exact ⟨rfl, rfl⟩

/-- What is read without a problem is read in the same way where more names are known. -/
theorem Exprs.mono {xs : List Expr} {notes : List Diagnostic} {d : Cursor} (h : Exprs src r scope c xs notes d)
    (hnotes : notes = [])
    (hr : ∀ name f, r.lookup name = some f → r'.lookup name = some f ∧ r'.arity f = r.arity f) :
    Exprs src r' scope c xs [] d := by
  induction h with
  | nil scope c => exact .nil scope c
  | text hq _ ih => exact .text hq (ih hnotes)
  | number ht hn _ ih => exact .number ht hn (ih hnotes)
  | bound ht hw hs _ ih => exact .bound ht hw hs (ih hnotes)
  | unresolved => cases hnotes
  | group ho _ hc _ ih1 ih2 =>
      obtain ⟨h1, h2⟩ := List.append_eq_nil_iff.1 hnotes
      exact .group ho (ih1 h1) hc (ih2 h2)
  | closure ht hp ha _ _ ih1 ih2 =>
      obtain ⟨h1, h2⟩ := List.append_eq_nil_iff.1 hnotes
      exact .closure ht hp ha (ih1 h1) (ih2 h2)
  | call ht hw hs hlookup hl _ _ ih1 ih2 =>
      obtain ⟨h1, h2⟩ := List.append_eq_nil_iff.1 hnotes
      obtain ⟨hlookup', harity⟩ := hr _ _ hlookup
      exact .call ht hw hs hlookup' (hl.trans harity.symm) (ih1 h1) (ih2 h2)

end Grammar

namespace Registry

def Indexed (r : Registry) : Prop :=
  ∀ name f, r.lookup name = some f ↔ ∃ fn, r.functions[f]? = some fn ∧ fn.name = name

theorem indexed_of_current {r : Registry} (hw : r.WellFormed) (hc : r.Current) : r.Indexed := by
  intro name f
  constructor
  · intro hf
    obtain ⟨fn, hfn, hname, -⟩ := hw.named name f (mem_of_lookup hf)
    exact ⟨fn, hfn, hname⟩
  · rintro ⟨fn, hfn, rfl⟩
    exact hc f fn hfn

theorem indexed_initial : initial.Indexed := indexed_of_current wellFormed_initial current_initial

theorem Indexed.declare {r : Registry} (h : r.Indexed) {fn : Function} (hnew : r.lookup fn.name = none) :
    (r.declare fn).Indexed := by
  intro name f
  by_cases hname : name = fn.name
  · subst hname
    rw [lookup_declare_self]
    constructor
    · rintro ⟨⟩
      exact ⟨fn, getElem?_declare_self r fn, rfl⟩
    · rintro ⟨other, hother, he⟩
      obtain hother | ⟨rfl, -⟩ := of_getElem?_declare hother
      · rw [(h fn.name f).2 ⟨other, hother, he⟩] at hnew
        cases hnew
      · rfl
  · rw [lookup_declare_of_ne r fn hname, h name f]
    constructor
    · rintro ⟨other, hother, he⟩
      exact ⟨other, getElem?_declare fn hother, he⟩
    · rintro ⟨other, hother, he⟩
      obtain hother | ⟨-, rfl⟩ := of_getElem?_declare hother
      · exact ⟨other, hother, he⟩
      · exact absurd he.symm hname

theorem Indexed.lookup_eq_none {r : Registry} (h : r.Indexed) {name : Bytes} (hname : name ∉ r.functions.toList.map (·.name)) :
    r.lookup name = none := by
  rw [Option.eq_none_iff_forall_ne_some]
  intro f hf
  obtain ⟨fn, hfn, rfl⟩ := (h name f).1 hf
  exact hname (List.mem_map_of_mem (Array.mem_toList_iff.2 (Array.mem_of_getElem? hfn)))

theorem Indexed.lookup_of {r r' : Registry} (h : r.Indexed) (h' : r'.Indexed) {name : Bytes} {f g : FuncId}
    (hf : r.lookup name = some f) (hfn : ∀ fn, r.functions[f]? = some fn →
      ∃ fn', r'.functions[g]? = some fn' ∧ fn'.name = fn.name ∧ fn'.params = fn.params) :
    r'.lookup name = some g ∧ r'.arity g = r.arity f := by
  obtain ⟨fn, hfn', rfl⟩ := (h name f).1 hf
  obtain ⟨fn', hg, hname, hparams⟩ := hfn fn hfn'
  refine ⟨(h' fn.name g).2 ⟨fn', hg, hname⟩, ?_⟩
  simp only [arity, hg, hfn', hparams]

def declareAll (r : Registry) (fns : List Function) : Registry := fns.foldl declare r

theorem declareAll_append (r : Registry) (fns fns' : List Function) :
    r.declareAll (fns ++ fns') = (r.declareAll fns).declareAll fns' := List.foldl_append

theorem functions_declareAll (r : Registry) (fns : List Function) :
    (r.declareAll fns).functions.toList = r.functions.toList ++ fns := by
  induction fns generalizing r with
  | nil => exact (List.append_nil _).symm
  | cons fn fns ih =>
      rw [declareAll, List.foldl_cons, ← declareAll, ih]
      change (r.functions.push fn).toList ++ fns = _
      rw [Array.toList_push, List.append_assoc, List.singleton_append]

theorem getElem?_declareAll (r : Registry) (fns : List Function) (i : Nat) :
    (r.declareAll fns).functions[r.functions.size + i]? = fns[i]? := by
  rw [← Array.getElem?_toList, functions_declareAll, List.getElem?_append_right (by simp)]
  simp

theorem getElem?_declareAll_of_lt {r : Registry} {f : FuncId} (hf : f < r.functions.size) (fns : List Function) :
    (r.declareAll fns).functions[f]? = r.functions[f]? := by
  rw [← Array.getElem?_toList, functions_declareAll, List.getElem?_append_left (by simpa using hf),
    Array.getElem?_toList]

theorem size_declareAll (r : Registry) (fns : List Function) :
    (r.declareAll fns).functions.size = r.functions.size + fns.length := by
  rw [← Array.length_toList, functions_declareAll, List.length_append, Array.length_toList]

theorem Indexed.declareAll {r : Registry} (h : r.Indexed) {fns : List Function}
    (hnodup : ((r.functions.toList ++ fns).map (·.name)).Nodup) : (r.declareAll fns).Indexed := by
  induction fns generalizing r with
  | nil => exact h
  | cons fn fns ih =>
      have hnew : fn.name ∉ r.functions.toList.map (·.name) := by
        rw [List.map_append, List.map_cons, List.nodup_append] at hnodup
        exact fun hmem => hnodup.2.2 _ hmem _ List.mem_cons_self rfl
      refine ih (h.declare (h.lookup_eq_none hnew)) ?_
      change (((r.functions.push fn).toList ++ fns).map _).Nodup
      rwa [Array.toList_push, List.append_assoc, List.singleton_append]

end Registry

structure Function.Definable (r : Registry) (fn : Function) : Prop where
  custom : fn = .custom fn.name fn.params fn.location fn.body
  word : IsWord fn.name
  not_arrow : fn.name ≠ arrow
  params : ∀ p ∈ fn.params, p.Legible
  body : fn.body.Legible r (fn.params.map (·.name))

/-- A function of a registry, after the functions that are in another registry already. -/
structure Registry.Next (r₀ : Registry) (fn : Function) (r : Registry) : Prop where
  indexed : r.Indexed
  indexed_before : r₀.Indexed
  new : r₀.lookup fn.name = none
  found : r.functions[r₀.functions.size]? = some fn
  earlier : ∀ f < r₀.functions.size, r.functions[f]? = r₀.functions[f]?

namespace Registry.Next

variable {r₀ r : Registry} {fn : Function}

/-- The other registry, when it knows the function but not its body, agrees with the registry up to the function. -/
theorem getElem?_awaiting (h : Next r₀ fn r) (location : Location) {f : FuncId} (hf : f ≤ r₀.functions.size) :
    ∃ known other, (r₀.declare (.awaiting fn.name fn.params location)).functions[f]? = some known ∧
      r.functions[f]? = some other ∧ known.name = other.name ∧ known.params = other.params := by
  rcases Nat.lt_or_eq_of_le hf with hf | rfl
  · have hknown := Array.getElem?_eq_getElem hf
    exact ⟨_, _, getElem?_declare _ hknown, (h.earlier f hf).trans hknown, rfl, rfl⟩
  · exact ⟨_, _, getElem?_declare_self r₀ _, h.found, rfl, rfl⟩

theorem lookup_awaiting (h : Next r₀ fn r) (location : Location) {name : Bytes} {f : FuncId}
    (hf : (r₀.declare (.awaiting fn.name fn.params location)).lookup name = some f) :
    f ≤ r₀.functions.size ∧ r.lookup name = some f ∧
      r.arity f = (r₀.declare (.awaiting fn.name fn.params location)).arity f := by
  have hindexed : (r₀.declare (.awaiting fn.name fn.params location)).Indexed := h.indexed_before.declare h.new
  obtain ⟨known, hknown, -⟩ := (hindexed name f).1 hf
  have hle : f ≤ r₀.functions.size := by
    have hlt := (Array.getElem?_eq_some_iff.1 hknown).1
    rw [show (r₀.declare _).functions.size = r₀.functions.size + 1 from Array.size_push _] at hlt
    exact Nat.le_of_lt_succ hlt
  refine ⟨hle, hindexed.lookup_of h.indexed hf fun fn' hfn' => ?_⟩
  obtain ⟨known', other, hknown', hother, hname, hparams⟩ := h.getElem?_awaiting location hle
  rw [hfn'] at hknown'
  cases hknown'
  exact ⟨other, hother, hname.symm, hparams.symm⟩

theorem legible_awaiting (h : Next r₀ fn r) (location : Location) {names : List Bytes} {x : Expr}
    (hx : x.Legible r names) (hcallees : ∀ g ∈ x.callees, g ≤ r₀.functions.size) :
    x.Legible (r₀.declare (.awaiting fn.name fn.params location)) names := by
  have hindexed : (r₀.declare (.awaiting fn.name fn.params location)).Indexed := h.indexed_before.declare h.new
  have hrenamed := hx.renamed id fun name f hf hmem => h.indexed.lookup_of hindexed hf fun fn' hfn' => by
    obtain ⟨known, other, hknown, hother, hname, hparams⟩ := h.getElem?_awaiting location (hcallees f hmem)
    rw [hfn'] at hother
    cases hother
    exact ⟨known, hknown, hname, hparams⟩
  rwa [x.renamed_id] at hrenamed

/-- A function is printed. Its text is read as the function, where the functions before it are known, if it calls no
others; and if it is read at all without a problem, then it calls no others. -/
theorem function (h : Next r₀ fn r) (hfn : fn.Definable r) (hnames : r.functions.Names r) :
    ∃ text, Print.function r.functions r₀.functions.size = .ok text ∧
      ∀ (src : Source) (r' : Registry) (c : Cursor) (rest : Bytes), r'.Same r₀ → c.Faces (text ++ rest) →
        c.token.1 = utf8 "function" ∧
        ((∀ g ∈ fn.body.callees, g ≤ r₀.functions.size) → Print.Declares src r' c fn.name fn.params fn.body rest) ∧
        ∀ {d e g name location params body}, c.token = (utf8 "function", d) → Signature src d name location params e →
          Exprs src (r'.declare (.awaiting name params location)) (Parser.Bindings.bind [] params (src.locate e.off)) e
            [body] [] g →
          (∀ g ∈ fn.body.callees, g ≤ r₀.functions.size) ∧ g.Faces rest ∧
            (Function.custom name params location body).unlocated = fn.unlocated := by
  obtain ⟨head, hhead, hreads⟩ := Print.heading_legible hfn.word hfn.not_arrow hfn.params
  obtain ⟨text, htext, hbody⟩ := Print.expr_legible hnames hfn.body false
  have hfound : r.functions[r₀.functions.size]? = some (.custom fn.name fn.params fn.location fn.body) :=
    h.found.trans (congrArg some hfn.custom)
  have hprinted := Print.function_custom hfound hhead htext
  refine ⟨_, hprinted, fun src r' c rest hsame hc => ?_⟩
  have hhere := hc
  rw [List.append_assoc, List.append_assoc] at hhere
  obtain ⟨d, e, location', hk, hs, he⟩ := hreads src c _ hhere
  refine ⟨by rw [hk], fun hcallees => ?_, fun {d' e' g name location params body} hk' hs' hb' => ?_⟩
  · have hknown : r.functions.Names (r₀.declare (.awaiting fn.name fn.params fn.location)) :=
      fun name f hf => hnames name f (h.lookup_awaiting fn.location hf).2.1
    obtain ⟨_, hprinted', hdeclares⟩ := Print.function_legible hfound hknown hfn.word hfn.not_arrow hfn.params
      (h.legible_awaiting fn.location hfn.body hcallees)
    cases hprinted.symm.trans hprinted'
    exact hdeclares src r' c rest hsame hc
  · obtain ⟨-, rfl⟩ := Prod.mk.inj (hk.symm.trans hk')
    obtain ⟨rfl, rfl, rfl, rfl⟩ := hs.unique hs'
    -- the body is read in the same way where all functions are known, and there it is what was printed
    have hanswers : (r'.declare (.awaiting fn.name fn.params location)).Answers
        (r₀.declare (.awaiting fn.name fn.params location)) := Registry.Same.answers (hsame.declare (by rfl))
    have hmore := hb'.mono rfl fun name f hf => by
      rw [hanswers.lookup] at hf
      obtain ⟨-, hlookup, harity⟩ := h.lookup_awaiting location hf
      exact ⟨hlookup, by rw [harity, hanswers.arity]⟩
    obtain ⟨body', g', hb, hg, hunlocated⟩ := hbody src r _ e' _ ⟨fun _ => rfl, fun _ => rfl⟩
      (Parser.Bindings.binds_params fn.params (src.locate e'.off)) he (Print.stops_newline rest)
    obtain ⟨rfl, rfl⟩ := hb.unique hmore
    refine ⟨fun callee hcallee => ?_, Print.faces_newline.1 (Print.faces_of_rest hg), ?_⟩
    · rw [← fn.body.callees_unlocated, ← hunlocated, body.callees_unlocated] at hcallee
      obtain ⟨call, hcall, rfl⟩ := List.mem_map.1 hcallee
      obtain ⟨⟨word, hword⟩, -⟩ := hb'.calls call (by simpa [Expr.callsList] using hcall)
      rw [hanswers.lookup] at hword
      exact (h.lookup_awaiting location hword).1
    · rw [hfn.custom]
      simp only [Function.unlocated, Function.custom, hunlocated]

end Registry.Next

def Functions.Backward (fns : Functions) : Prop :=
  ∀ (f : FuncId) (fn : Function), fns[f]? = some fn → ∀ g ∈ fn.body.callees, g ≤ f

namespace Registry

/-- Further functions, under names of their own, that texts can define where all of them are known. -/
structure Textual (fns : List Function) : Prop where
  nodup : ((initial.functions.toList ++ fns).map (·.name)).Nodup
  definable : ∀ fn ∈ fns, fn.Definable (initial.declareAll fns)

variable {before after : List Function}

theorem Textual.indexed {fns : List Function} (h : Textual fns) : (initial.declareAll fns).Indexed :=
  indexed_initial.declareAll h.nodup

theorem Textual.names {fns : List Function} (h : Textual fns) :
    (initial.declareAll fns).functions.Names (initial.declareAll fns) := by
  intro name f hf
  obtain ⟨fn, hfn, hname⟩ := (h.indexed name f).1 hf
  have hkind : fn.kind ≠ .pending := by
    have hmem := Array.mem_toList_iff.2 (Array.mem_of_getElem? hfn)
    rw [functions_declareAll, List.mem_append] at hmem
    rcases hmem with hmem | hmem
    · simp [kind_native fn hmem]
    · rw [(h.definable fn hmem).custom]
      simp [Function.custom]
  refine ⟨fn, ?_, hname⟩
  rw [Functions.resolve, hfn]
  exact if_neg hkind

theorem Textual.next {fn : Function} (h : Textual (before ++ fn :: after)) :
    Next (initial.declareAll before) fn (initial.declareAll (before ++ fn :: after)) := by
  have hnodup := h.nodup
  rw [← List.append_assoc, List.map_append, List.nodup_append] at hnodup
  have hbefore : (initial.declareAll before).Indexed := indexed_initial.declareAll hnodup.1
  refine ⟨h.indexed, hbefore, hbefore.lookup_eq_none fun hmem => ?_, ?_, fun f hf => ?_⟩
  · rw [functions_declareAll] at hmem
    exact hnodup.2.2 _ hmem _ (List.mem_cons_self) rfl
  · rw [declareAll_append]
    exact getElem?_declareAll (initial.declareAll before) (fn :: after) 0
  · rw [declareAll_append]
    exact getElem?_declareAll_of_lt hf (fn :: after)

/-- What is printed of functions is read, from where those before them are known, exactly if the functions call no later
ones; and it is read as these functions. -/
theorem Textual.runs (h : Textual (before ++ after)) :
    ∃ text, Print.functionList (initial.declareAll (before ++ after)).functions
        ((after.zipIdx (initial.declareAll before).functions.size).map Prod.swap) = .ok text ∧
      ∀ (resolver : Resolver) (src : Source) (c : Cursor) (w : Workspace), c.Faces text →
        w.registry.Same (initial.declareAll before) →
        ((∃ w', CleanRuns resolver none 0 src c w w') ↔
          ∀ i fn, after[i]? = some fn → ∀ g ∈ fn.body.callees, g ≤ (initial.declareAll before).functions.size + i) ∧
        ∀ w', CleanRuns resolver none 0 src c w w' → w'.registry.Same (initial.declareAll (before ++ after)) := by
  induction after generalizing before with
  | nil =>
      rw [List.append_nil]
      refine ⟨[], rfl, fun resolver src c w hc hsame => ?_⟩
      have hend : c.skipBlanks.atEnd = true := by
        rw [Cursor.atEnd, Cursor.rest_skipBlanks, hc]
        rfl
      refine ⟨⟨fun _ i fn hi => (by cases hi), fun _ => ⟨w, .done hend⟩⟩, fun w' hruns => ?_⟩
      cases hruns with
      | done => exact hsame
      | declared hk =>
          rw [Cursor.atEnd_of_token hk (by decide)] at hend
          cases hend
      | known hr | unread hr => cases hr
  | cons fn after ih =>
      have hnext := h.next
      have hcons : before ++ fn :: after = (before ++ [fn]) ++ after := List.append_cons before fn after
      have hdeclare : initial.declareAll (before ++ [fn]) = (initial.declareAll before).declare fn :=
        declareAll_append initial before [fn]
      have hsize : (initial.declareAll (before ++ [fn])).functions.size = (initial.declareAll before).functions.size + 1 := by
        rw [hdeclare]
        exact Array.size_push _
      obtain ⟨first, hfirst, hreads⟩ := hnext.function (h.definable fn (by simp)) h.names
      obtain ⟨others, hothers, hrest⟩ := ih (hcons ▸ h)
      rw [← hcons, hsize] at hothers
      refine ⟨first ++ others, ?_, fun resolver src c w hc hsame => ?_⟩
      · rw [List.zipIdx_cons, List.map_cons, Prod.swap_prod_mk, Print.functionList, hfirst, hothers]
        rfl
      obtain ⟨htoken, hdeclares, honly⟩ := hreads src w.registry c others hsame hc
      -- a run goes through the first function, and on with it
      have hstep (w' : Workspace) (hruns : CleanRuns resolver none 0 src c w w') :
          (∀ g ∈ fn.body.callees, g ≤ (initial.declareAll before).functions.size) ∧
            ∃ d w₁, d.Faces others ∧ w₁.registry.Same (initial.declareAll (before ++ [fn])) ∧
              CleanRuns resolver none 0 src d w₁ w' := by
        cases hruns with
        | done hend =>
            rw [Cursor.atEnd_of_token (show c.token = (utf8 "function", c.token.2) from htoken ▸ rfl) (by decide)] at hend
            cases hend
        | known hr | unread hr => cases hr
        | declared hk hs _ hb rest =>
            obtain ⟨hcallees, hd, hunlocated⟩ := honly hk hs hb
            refine ⟨hcallees, _, _, hd, ?_, rest⟩
            rw [hdeclare]
            exact hsame.declare hunlocated
      refine ⟨⟨?_, fun hback => ?_⟩, fun w' hruns => ?_⟩
      · rintro ⟨w', hruns⟩ i other hi
        obtain ⟨hcallees, d, w₁, hd, hsame₁, hruns₁⟩ := hstep w' hruns
        cases i with
        | zero =>
            cases hi
            exact hcallees
        | succ i =>
            have hback := (hrest resolver src d w₁ hd hsame₁).1.1 ⟨w', hruns₁⟩ i other hi
            rwa [hsize, Nat.add_assoc, Nat.add_comm 1] at hback
      · obtain ⟨d, e, g, location, body, hk, hs, hb, hunlocated, hg⟩ := hdeclares (hback 0 fn rfl)
        have hunlocated' : (Function.custom fn.name fn.params location body).unlocated = fn.unlocated := by
          rw [(h.definable fn (by simp)).custom]
          simp only [Function.unlocated, Function.custom, hunlocated]
        obtain ⟨w', hruns⟩ := (hrest resolver src g
          (w.withRegistry (w.registry.declare (.custom fn.name fn.params location body))) hg
          (hdeclare ▸ hsame.declare hunlocated')).1.2 fun i other hi => by
            rw [hsize, Nat.add_assoc, Nat.add_comm 1]
            exact hback (i + 1) other hi
        exact ⟨w', .declared hk hs ((hsame.answers.lookup fn.name).trans hnext.new) hb hruns⟩
      · obtain ⟨-, d, w₁, hd, hsame₁, hruns₁⟩ := hstep w' hruns
        rw [hcons]
        exact (hrest resolver src d w₁ hd hsame₁).2 w' hruns₁

theorem backward_declareAll {fns : List Function} : (initial.declareAll fns).functions.Backward ↔
    ∀ i fn, fns[i]? = some fn → ∀ g ∈ fn.body.callees, g ≤ initial.functions.size + i := by
  refine ⟨fun h i fn hi => h _ fn ((getElem?_declareAll initial fns i).trans hi), fun h f fn hf => ?_⟩
  by_cases hlt : f < initial.functions.size
  · rw [getElem?_declareAll_of_lt hlt] at hf
    rw [body_native fn (mem_natives hf)]
    exact List.forall_mem_nil _
  · obtain ⟨i, rfl⟩ := Nat.exists_eq_add_of_le (Nat.le_of_not_lt hlt)
    rw [getElem?_declareAll] at hf
    exact h i fn hf

theorem Textual.source {fns : List Function} (h : Textual fns) :
    ∃ text, Print.functionList (initial.declareAll fns).functions
        ((fns.zipIdx initial.functions.size).map Prod.swap) = .ok text ∧
      ∀ (resolver : Resolver) (path : Bytes), ∃ w, Build.source resolver none ⟨path, text⟩ {} = .ok () w ∧
        (w.report.entries = [] ↔ (initial.declareAll fns).functions.Backward) ∧
        (w.report.entries = [] → w.registry.Same (initial.declareAll fns)) := by
  obtain ⟨text, htext, hruns⟩ := @Textual.runs [] fns h
  refine ⟨text, htext, fun resolver path => ?_⟩
  obtain ⟨hiff, hsame⟩ := hruns resolver ⟨path, text⟩ (Source.start ⟨path, text⟩) {} rfl ⟨rfl, rfl⟩
  obtain ⟨w, hw⟩ : ∃ w, Build.source resolver none ⟨path, text⟩ {} = .ok () w :=
    Build.chunks_total (fun run he => by cases he) _ _ _ _
  have hclean (hw' : w.report.entries = []) := (Build.source_runs_alone hw).clean hw'
  refine ⟨w, hw, ?_, fun hw' => hsame w (hclean hw')⟩
  rw [backward_declareAll]
  refine Iff.trans ⟨fun hw' => ⟨w, hclean hw'⟩, fun ⟨w', hruns'⟩ => ?_⟩ hiff
  cases hw.symm.trans hruns'.source
  rw [hruns'.report]

end Registry

end Polish
