import Polish.Proofs.Declarations
import Polish.Proofs.Printing
import Polish.Proofs.Runs.Complete

namespace Polish

open Grammar

namespace Registry

structure Same (r' r : Registry) : Prop where
  names : r'.names = r.names
  functions : r'.functions.map Function.unlocated = r.functions.map Function.unlocated

theorem Same.trans {r r' r'' : Registry} (h : r.Same r') (h' : r'.Same r'') : r.Same r'' :=
  ⟨h.names.trans h'.names, h.functions.trans h'.functions⟩

theorem same_markImported (r : Registry) (path : Bytes) : r.Same (r.markImported path) := by
  unfold markImported
  split <;> exact ⟨rfl, rfl⟩

theorem Same.size {r' r : Registry} (h : r'.Same r) : r'.functions.size = r.functions.size := by
  have := congrArg Array.size h.functions
  rwa [Array.size_map, Array.size_map] at this

theorem Same.declare {r' r : Registry} (h : r'.Same r) {fn' fn : Function} (hfn : fn'.unlocated = fn.unlocated) :
    (r'.declare fn').Same (r.declare fn) where
  names := by
    have hname := congrArg Function.name hfn
    change fn'.name = fn.name at hname
    rw [names_declare, names_declare, h.names, h.size, hname]
  functions := by
    change (r'.functions.push fn').map _ = (r.functions.push fn).map _
    rw [Array.map_push, Array.map_push, h.functions, hfn]

theorem Same.answers {r' r : Registry} (h : r'.Same r) : r'.Answers r where
  lookup name := by rw [lookup, lookup, h.names]
  arity f := by
    have hf : (r'.functions[f]?).map Function.unlocated = (r.functions[f]?).map Function.unlocated := by
      rw [← Array.getElem?_map, h.functions, Array.getElem?_map]
    have harity (r : Registry) : r.arity f = (((r.functions[f]?).map Function.unlocated).map (·.params.length)).getD 0 := by
      unfold Registry.arity
      cases r.functions[f]? <;> rfl
    rw [harity, hf, ← harity]

inductive Grows : Registry → List Function → Registry → Prop
  | nil (r) : Grows r [] r
  | cons {r r' name params location body fns} (hnew : r.lookup name = none) (hw : IsWord name) (ha : name ≠ arrow)
      (hp : ∀ p ∈ params, p.Legible)
      (hb : body.Legible (r.declare (.awaiting name params location)) (params.map (·.name)))
      (rest : Grows (r.declare (.custom name params location body)) fns r') :
      Grows r (.custom name params location body :: fns) r'

theorem Grows.functions {r r' : Registry} {added : List Function} (h : Grows r added r') :
    r'.functions.toList = r.functions.toList ++ added := by
  induction h with
  | nil => simp
  | @cons r _ _ _ _ _ fns _ _ _ _ _ _ ih =>
      rw [ih]
      change (r.functions.push _).toList ++ fns = _
      simp

end Registry

theorem Functions.Names.declare {fns : Functions} {r : Registry} (h : fns.Names r) {fn fn' : Function}
    (hfn : fns.resolve r.functions.size = .ok fn) (hname : fn'.name = fn.name) : fns.Names (r.declare fn') := by
  intro name f hf
  by_cases he : name = fn'.name
  · rw [he, Registry.lookup_declare_self] at hf
    obtain rfl := Option.some.inj hf
    exact ⟨fn, hfn, hname.symm.trans he.symm⟩
  · rw [Registry.lookup_declare_of_ne r fn' he] at hf
    exact h name f hf

theorem Functions.resolve_custom {fns : Functions} {f : FuncId} {name : Bytes} {params : List Param} {location : Location}
    {body : Expr} (h : fns[f]? = some (.custom name params location body)) :
    fns.resolve f = .ok (.custom name params location body) := by
  rw [resolve, h]
  rfl

namespace Print

def Declares (src : Source) (r : Registry) (c : Cursor) (name : Bytes) (params : List Param) (body : Expr)
    (rest : Bytes) : Prop :=
  ∃ d e g location body', c.token = (utf8 "function", d) ∧ Signature src d name location params e ∧
    Exprs src (r.declare (.awaiting name params location)) (Parser.Bindings.bind [] params (src.locate e.off)) e [body']
      [] g ∧ body'.unlocated = body.unlocated ∧ g.Faces rest

variable {fns : Functions} {r : Registry} {name : Bytes} {params : List Param} {location : Location} {body : Expr}

theorem heading_legible (hw : IsWord name) (ha : name ≠ arrow) (hp : ∀ p ∈ params, p.Legible) :
    ∃ head, Print.params params = .ok head ∧ ∀ (src : Source) (c : Cursor) (rest : Bytes),
      c.Faces (utf8 "function " ++ name ++ utf8 " " ++ head ++ rest) →
      ∃ d e location, c.token = (utf8 "function", d) ∧ Signature src d name location params e ∧ e.Faces rest := by
  obtain ⟨head, hhead, hparams⟩ := params_legible hp
  refine ⟨head, hhead, fun src c rest hc => ?_⟩
  rw [show utf8 "function " = utf8 "function" ++ utf8 " " by decide] at hc
  simp only [List.append_assoc] at hc
  obtain ⟨d, hk, hd⟩ := hc.token (isWord_of_all (by decide) (by decide)) (stops_space _)
  obtain ⟨d', hname, hd'⟩ := (faces_space.1 (faces_of_rest hd)).token hw (stops_space _)
  obtain ⟨e, f, hps, harrow, hf⟩ := hparams d'.skipBlanks _ (faces_space.1 (faces_of_rest hd')).skipBlanks
  exact ⟨d, f, _, hk, .mk hname hw.ne_nil ha hps harrow, hf⟩

theorem function_custom {f : FuncId} (hf : fns[f]? = some (.custom name params location body)) {head text : Bytes}
    (hhead : Print.params params = .ok head) (htext : expr fns false body = .ok text) :
    function fns f = .ok (utf8 "function " ++ name ++ utf8 " " ++ head ++ text ++ utf8 "\n") := by
  rw [function, Functions.resolve_custom hf]
  change (Print.params params >>= fun head => within .body (expr fns false body) >>= _) = _
  rw [hhead, htext]
  rfl

theorem stops_newline (rest : Bytes) : Stops (utf8 "\n" ++ rest) := stops_cons (b := ascii '\n') (by decide) rest

theorem faces_newline {c : Cursor} {text : Bytes} : c.Faces (utf8 "\n" ++ text) ↔ c.Faces text :=
  Cursor.faces_blank (b := ascii '\n') (by decide)

theorem function_legible {f : FuncId} (hf : fns[f]? = some (.custom name params location body))
    (hfns : fns.Names (r.declare (.awaiting name params location))) (hw : IsWord name) (ha : name ≠ arrow)
    (hp : ∀ p ∈ params, p.Legible)
    (hb : body.Legible (r.declare (.awaiting name params location)) (params.map (·.name))) :
    ∃ text, function fns f = .ok text ∧ ∀ (src : Source) (r' : Registry) (c : Cursor) (rest : Bytes), r'.Same r →
      c.Faces (text ++ rest) → Declares src r' c name params body rest := by
  obtain ⟨head, hhead, hreads⟩ := heading_legible hw ha hp
  obtain ⟨text, htext, hbody⟩ := expr_legible hfns hb false
  refine ⟨_, function_custom hf hhead htext, fun src r' c rest hsame hc => ?_⟩
  rw [List.append_assoc, List.append_assoc] at hc
  obtain ⟨d, e, location', hk, hs, he⟩ := hreads src c _ hc
  have hanswers : (r'.declare (.awaiting name params location')).Answers (r.declare (.awaiting name params location)) :=
    Registry.Same.answers (hsame.declare (by rfl))
  obtain ⟨body', g, hb', hg, hsame'⟩ := hbody src _ _ e _ hanswers
    (Parser.Bindings.binds_params params (src.locate e.off)) he (stops_newline rest)
  exact ⟨d, e, g, location', body', hk, hs, hb', hsame', faces_newline.1 (faces_of_rest hg)⟩

end Print

/-- The functions by which a registry grows are printed, and their text is read as the same functions. -/
theorem Registry.Grows.print {fns : Functions} {r r' : Registry} {added : List Function} (h : Grows r added r')
    (hfns : fns.Names r) (htable : ∀ i fn, added[i]? = some fn → fns[r.functions.size + i]? = some fn) :
    ∃ text, Print.functionList fns ((added.zipIdx r.functions.size).map Prod.swap) = .ok text ∧
      ∀ (resolver : Resolver) (src : Source) (c : Cursor) (w : Workspace), c.Faces text → w.registry.Same r →
        ∃ w', CleanRuns resolver none 0 src c w w' ∧ w'.registry.Same r' := by
  induction h with
  | nil r =>
      refine ⟨[], by rw [List.zipIdx_nil, List.map_nil, Print.functionList]; rfl, fun resolver src c w hc hsame => ?_⟩
      refine ⟨w, .done ?_, hsame⟩
      rw [Cursor.atEnd, Cursor.rest_skipBlanks, hc]
      rfl
  | @cons r r' name params location body fns' hnew hw ha hp hb rest ih =>
      -- the body is printed with the whole table, but is read where only the functions before it are known
      have hf : fns[r.functions.size]? = some (.custom name params location body) := htable 0 _ rfl
      have hresolve := Functions.resolve_custom hf
      have hsize : (r.declare (.custom name params location body)).functions.size = r.functions.size + 1 :=
        Array.size_push _
      obtain ⟨first, hfirst, hdeclares⟩ := Print.function_legible hf (hfns.declare hresolve rfl) hw ha hp hb
      obtain ⟨others, hothers, hrest⟩ := ih (hfns.declare hresolve rfl) fun i fn hi => by
        rw [hsize, Nat.add_assoc, Nat.add_comm 1]
        exact htable (i + 1) fn hi
      rw [hsize] at hothers
      refine ⟨first ++ others, ?_, fun resolver src c w hc hsame => ?_⟩
      · rw [List.zipIdx_cons, List.map_cons, Prod.swap_prod_mk, Print.functionList, hfirst, hothers]
        rfl
      · obtain ⟨d, e, g, location', body', hk, hs, hbody, hsame', hg⟩ := hdeclares src w.registry c others hsame hc
        have hunlocated : (Function.custom name params location' body').unlocated =
            (Function.custom name params location body).unlocated := by
          simp only [Function.unlocated, Function.custom, hsame']
        obtain ⟨w', hruns, hw'⟩ := hrest resolver src g
          (w.withRegistry (w.registry.declare (.custom name params location' body'))) hg (hsame.declare hunlocated)
        exact ⟨w', .declared hk hs ((hsame.answers.lookup name).trans hnew) hbody hruns, hw'⟩

theorem Grammar.Signature.located {src : Source} {c d : Cursor} {name : Bytes} {location : Location}
    {params : List Param} (h : Signature src c name location params d) :
    ∃ off : Nat, location = src.locate off ∧ c.off ≤ off ∧ off < d.off := by
  obtain ⟨ht, hn, -, hp, harrow⟩ := h
  rename_i e f
  have h1 := (Cursor.length_token_lt ht hn).1.off_le
  have h2 := e.reaches_skipBlanks.off_le
  have h3 := hp.reaches.1.off_le
  have h4 := harrow.reaches.1.off_add_length
  have h5 := harrow.reaches.2
  exact ⟨_, rfl, by omega, by omega⟩

namespace CleanRuns

variable {resolver : Resolver} {depth : Nat} {src : Source} {c : Cursor} {w w' : Workspace}

theorem report {read : Option (Bytes → Except FileError Bytes)} (h : CleanRuns resolver read depth src c w w') :
    w'.report = w.report := by
  induction h with
  | done => rfl
  | declared _ _ _ _ _ ih | known _ _ _ _ _ _ ih | unread _ _ _ _ _ _ _ ih => exact ih
  | included _ _ _ _ _ _ _ _ ih1 ih2 => exact ih2.trans ih1

/-- Without imports, a run declares functions one after the other in its source. -/
theorem grows (h : CleanRuns resolver none depth src c w w') :
    ∃ added, w.registry.Grows added w'.registry ∧
      (∀ fn ∈ added, fn.location.path = src.path ∧ (c.off : Int) ≤ fn.location.off) ∧
      (added.map (·.location.off)).Pairwise (· < ·) := by
  generalize hread : none = read at h
  induction h with
  | done => exact ⟨[], .nil _, by simp, .nil⟩
  | @declared _ src c d e g name location params body _ _ hk hs hnew hb _ ih =>
      obtain ⟨added, hgrows, hbounds, hsorted⟩ := ih
      -- a function is located between its keyword and its body, so before all that follow
      obtain ⟨off, rfl, hlow, hhigh⟩ := hs.located
      obtain ⟨hw, ha, hp⟩ := hs.legible
      have hbody := hb.legible rfl (Parser.Bindings.binds_params params _) body (List.mem_singleton.2 rfl)
      have hstart := (Cursor.length_token_lt hk (by decide)).1.off_le
      have hend := hb.reaches.1.off_le
      refine ⟨_, .cons hnew hw ha hp hbody hgrows, List.forall_mem_cons.2 ⟨⟨rfl, ?_⟩, fun fn hfn => ?_⟩, ?_⟩
      · exact Int.ofNat_le.2 (Nat.le_trans hstart hlow)
      · obtain ⟨hpath, hle⟩ := hbounds fn hfn
        exact ⟨hpath, by omega⟩
      · refine List.pairwise_cons.2 ⟨fun other hother => ?_, hsorted⟩
        obtain ⟨fn, hfn, rfl⟩ := List.mem_map.1 hother
        have hle := (hbounds fn hfn).2
        change (off : Int) < fn.location.off
        omega
  | known hr => simp [← hread] at hr
  | included hr | unread hr => cases hread.trans hr

end CleanRuns

theorem Functions.declared_unlocated (fns : Functions) :
    Functions.declared (fns.map Function.unlocated) = fns.declared.map (Prod.map id Function.unlocated) := by
  have hkind : (fun entry : FuncId × Function => entry.2.kind != .native) ∘ Prod.map id Function.unlocated =
      fun entry => entry.2.kind != .native := rfl
  rw [declared, declared, Array.toList_map, List.zipIdx_map, List.map_map, ← hkind, ← List.filter_map, List.map_map]
  rfl

theorem Registry.Same.functionList {r' r : Registry} (h : r'.Same r) :
    Print.functionList r'.functions r'.functions.declared = Print.functionList r.functions r.functions.declared := by
  rw [← Print.functionList_unlocated r'.functions, ← Functions.declared_unlocated, h.functions,
    Functions.declared_unlocated, Print.functionList_unlocated]

namespace Registry.Grows

variable {r r' : Registry} {added : List Function}

theorem kinds (h : Grows r added r') : ∀ fn ∈ added, fn.kind = .custom := by
  induction h with
  | nil => simp
  | cons _ _ _ _ _ _ ih => exact List.forall_mem_cons.2 ⟨rfl, ih⟩

theorem declared_of_natives (h : Grows r added r') (hr : r.functions = initial.functions) :
    r'.functions.declared = (added.zipIdx r.functions.size).map Prod.swap := by
  have hnatives : ((r.functions.toList.zipIdx.map Prod.swap).filter (·.2.kind != .native)) = [] := by
    rw [hr]
    decide
  have hadded : ∀ entry ∈ (added.zipIdx r.functions.size).map Prod.swap, (entry.2.kind != .native) = true := by
    intro entry hentry
    obtain ⟨⟨fn, f⟩, hmem, rfl⟩ := List.mem_map.1 hentry
    have hfn := List.mem_map_of_mem (f := Prod.fst) hmem
    rw [List.zipIdx_map_fst] at hfn
    rw [Prod.swap_prod_mk, h.kinds fn hfn]
    rfl
  rw [Functions.declared, h.functions, List.zipIdx_append, List.map_append, List.filter_append, hnatives, List.nil_append,
    Nat.zero_add, Array.length_toList, List.filter_eq_self.2 hadded]

theorem declared (h : initial.Grows added r) :
    r.functions.declared = (added.zipIdx initial.functions.size).map Prod.swap := h.declared_of_natives rfl

theorem getElem? (h : Grows r added r') (i : Nat) :
    r'.functions[r.functions.size + i]? = added[i]? ∧
      ∀ fn, r.functions[i]? = some fn → r'.functions[i]? = some fn := by
  rw [← Array.getElem?_toList, ← Array.getElem?_toList, ← Array.getElem?_toList, h.functions]
  refine ⟨?_, fun fn hfn => ?_⟩
  · rw [List.getElem?_append_right (by simp)]
    simp
  · rw [List.getElem?_append_left (List.getElem?_eq_some_iff.1 hfn).1, hfn]

end Registry.Grows

/-- A source that is read without a problem is printed in the order of its declarations. -/
theorem CleanRuns.functions_eq_of_natives {resolver : Resolver} {depth : Nat} {src : Source} {c : Cursor}
    {w₀ w : Workspace} (h : CleanRuns resolver none depth src c w₀ w)
    (h₀ : w₀.registry.functions = Registry.initial.functions) (hw : w.registry.WellFormed) (hc : w.registry.Current) :
    Print.functions w.registry.functions w.registry.listing =
      Print.functionList w.registry.functions w.registry.functions.declared := by
  obtain ⟨added, hgrows, hbounds, hsorted⟩ := h.grows
  have hadded : w.registry.functions.declared.map (·.2) = added := by
    rw [hgrows.declared_of_natives h₀, List.map_map]
    exact List.zipIdx_map_fst _ _
  rw [Print.functions, Print.sources_eq hw hc]
  · intro entry hentry
    exact (hbounds _ (hadded ▸ List.mem_map_of_mem hentry)).1
  · rw [← hadded, List.map_map] at hsorted
    exact hsorted

theorem CleanRuns.functions_eq {resolver : Resolver} {depth : Nat} {src : Source} {c : Cursor} {w : Workspace}
    (h : CleanRuns resolver none depth src c {} w) (hw : w.registry.WellFormed) :
    Print.functions w.registry.functions w.registry.listing =
      Print.functionList w.registry.functions w.registry.functions.declared :=
  h.functions_eq_of_natives rfl hw (h.current Registry.current_initial)

theorem Registry.Grows.names {r r' : Registry} {added : List Function} (h : r.Grows added r') (hr : r.WellFormed) :
    r'.functions.Names r := by
  intro name f hf
  obtain ⟨fn, hfn, hname, hkind⟩ := hr.named name f (Registry.mem_of_lookup hf)
  refine ⟨fn, ?_, hname⟩
  rw [Functions.resolve, (h.getElem? f).2 fn hfn]
  exact if_neg hkind

theorem Functions.names_initial {r : Registry} {added : List Function} (h : Registry.initial.Grows added r) :
    r.functions.Names Registry.initial := h.names Registry.wellFormed_initial

/-- A text that is read without a problem is printed; what is printed is read without a problem as the same names
and the same functions up to locations, wherever it stands; and these are printed as the same text again. -/
theorem Build.source_of_printed (resolver resolver' : Resolver) (path path' text : Bytes) (w : Workspace)
    (h : source resolver none ⟨path, text⟩ {} = .ok () w) (hclean : w.report.entries = []) :
    ∃ printed w', Print.functions w.registry.functions w.registry.listing = .ok printed ∧
      source resolver' none ⟨path', printed⟩ {} = .ok () w' ∧ w'.report.entries = [] ∧
      w'.registry.names = w.registry.names ∧
      w'.registry.functions.map Function.unlocated = w.registry.functions.map Function.unlocated ∧
      Print.functions w'.registry.functions w'.registry.listing = .ok printed := by
  have hruns := source_runs_alone h
  have hcleanRuns := hruns.clean hclean
  obtain ⟨added, hgrows, -, -⟩ := hcleanRuns.grows
  obtain ⟨printed, hprinted, hread⟩ := hgrows.print (Functions.names_initial hgrows) fun i fn hi =>
    ((hgrows.getElem? i).1).trans hi
  have hfunctions := hcleanRuns.functions_eq (hruns.wellFormed Registry.wellFormed_initial)
  rw [hgrows.declared, hprinted] at hfunctions
  obtain ⟨w', hruns', hsame⟩ := hread resolver' ⟨path', printed⟩ (Source.start ⟨path', printed⟩) {} rfl ⟨rfl, rfl⟩
  have hsource := hruns'.source
  have hwellFormed := (source_runs_alone hsource).wellFormed Registry.wellFormed_initial
  have hagain := hruns'.functions_eq hwellFormed
  rw [hsame.functionList, hgrows.declared, hprinted] at hagain
  exact ⟨printed, w', hfunctions, hsource, by rw [hruns'.report], hsame.names, hsame.functions, hagain⟩

def Build.reprint (src : Source) : Option Bytes :=
  match source (Resolver.make [] []) none src {} with
  | .ok _ w =>
    if w.report.entries.isEmpty then (Print.functions w.registry.functions w.registry.listing).toOption else none
  | .error _ _ => none

theorem Build.of_reprint {src : Source} {text : Bytes} (h : reprint src = some text) :
    ∃ w, source (Resolver.make [] []) none src {} = .ok () w ∧ w.report.entries = [] ∧
      Print.functions w.registry.functions w.registry.listing = .ok text := by
  unfold reprint at h
  split at h
  · rename_i w hsource
    split at h
    · rename_i hclean
      refine ⟨w, hsource, List.isEmpty_iff.1 hclean, ?_⟩
      cases hp : Print.functions w.registry.functions w.registry.listing with
      | error e => rw [hp] at h; exact nomatch h
      | ok printed => rw [hp] at h; exact congrArg _ (Option.some.inj h)
    · exact nomatch h
  · exact nomatch h

def Build.sample : Bytes :=
  utf8 "function twice number x =>(core/add x core/mul 0.10 -1e400) function pick anon [any]=>string f number twice
    => anon string s => ((s)) function main => core/cat twice (twice 5abc)"

def Build.samplePrinted : Bytes :=
  utf8 "function twice number x => core/add x (core/mul 0.1 -1e999)
function pick anon [any] => string f number twice => anon string s => s
function main => core/cat (twice (twice 5))\n"

theorem Build.source_of_printed_sample :
    ∃ w w', source (Resolver.make [] []) none ⟨utf8 "a", sample⟩ {} = .ok () w ∧ w.report.entries = [] ∧
      Print.functions w.registry.functions w.registry.listing = .ok samplePrinted ∧
      source (Resolver.make [] []) none ⟨utf8 "b", samplePrinted⟩ {} = .ok () w' ∧ w'.report.entries = [] ∧
      w'.registry.functions.map Function.unlocated = w.registry.functions.map Function.unlocated := by
  obtain ⟨w, h, hclean, hp⟩ := of_reprint (show reprint ⟨utf8 "a", sample⟩ = some samplePrinted by decide +kernel)
  obtain ⟨printed, w', hprinted, hagain, hclean', -, hsame, -⟩ :=
    source_of_printed (Resolver.make [] []) (Resolver.make [] []) (utf8 "a") (utf8 "b") sample w h hclean
  obtain rfl : samplePrinted = printed := Except.ok.inj (hp.symm.trans hprinted)
  exact ⟨w, w', h, hclean, hp, hagain, hclean', hsame⟩

end Polish
