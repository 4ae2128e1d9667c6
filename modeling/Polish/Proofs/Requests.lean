import Polish.Proofs.Acceptance
import Polish.Proofs.Dependency
import Polish.Proofs.Emission
import Polish.Proofs.Legible

namespace Polish

open Checking (Fits)

def Function.Legible (fn : Function) : Prop := fn.kind = .custom → ∃ r names, fn.body.Legible r names

theorem Registry.legible_natives : ∀ fn ∈ Registry.initial.functions, fn.Legible := by
  intro fn hfn hk
  rw [kind_native fn (List.mem_toArray.1 hfn)] at hk
  exact nomatch hk

theorem CleanRuns.legible {resolver : Resolver} {read : Option (Bytes → Except FileError Bytes)} {depth : Nat}
    {src : Source} {c : Cursor} {w w' : Workspace} (h : CleanRuns resolver read depth src c w w')
    (hw : ∀ fn ∈ w.registry.functions, fn.Legible) : ∀ fn ∈ w'.registry.functions, fn.Legible := by
  induction h with
  | done => exact hw
  | declared hk hs hnew hb rest ih =>
      apply ih
      intro fn hfn
      rcases Array.mem_push.1 hfn with hfn | rfl
      · exact hw fn hfn
      · exact fun _ => ⟨_, _, hb.legible rfl (Parser.Bindings.binds_params _ _) _ (List.mem_singleton.2 rfl)⟩
  | known hr hk hq hp hi rest ih => exact ih hw
  | included hr hk hq hp hi hl file rest ih1 ih2 =>
      exact ih2 (ih1 (by simpa only [Workspace.visit, Registry.functions_markImported] using hw))
  | unread hr hk hq hp hi hl rest ih =>
      exact ih (by simpa only [Workspace.visit, Registry.functions_markImported] using hw)

section Scoped

variable {fns : Functions}

theorem Checking.Fits.argument {l : Location} {f : FuncId} {args : List Expr} (h : Fits fns (.call l f args)) {x : Expr}
    (hx : x ∈ args) : Fits fns x :=
  fun call hcall => h call (List.mem_cons_of_mem _ (Expr.mem_callsList.2 ⟨x, hx, hcall⟩))

theorem Functions.Scoped.fits (hfns : fns.Scoped) {f : FuncId} {fn : Function} (hf : fns[f]? = some fn) :
    Fits fns fn.body := fun call hcall => (hfns.calls f fn hf call hcall).2

theorem Expr.flawList?_eq_none {callee : Bytes} {xs : List Expr} (h : ∀ x ∈ xs, x.flaw? fns = none) (i : Nat) :
    flawList? fns callee i xs = none := by
  induction xs generalizing i with
  | nil => rfl
  | cons x xs ih =>
      obtain ⟨hx, hxs⟩ := List.forall_mem_cons.1 h
      rw [flawList?, hx, ih hxs]
      rfl

theorem Expr.Scoped.flaw?_eq_none (hfns : fns.Scoped) {scope : Scope} {x : Expr} (hx : x.Scoped scope)
    (hfits : Fits fns x) : x.flaw? fns = none := by
  induction hx with
  | number | text | var => rfl
  | relocated _ ih => exact ih hfits
  | closure _ _ ih => rw [flaw?, ih hfits]; rfl
  | @call scope l f args h ih =>
      obtain ⟨fn, hf, -⟩ := hfits (f, args) List.mem_cons_self
      have hresolve := Walking.resolve_of_kind hf (Checking.kind_ne_pending hfns hf)
      simp only [flaw?, hresolve, Checking.applies_eq_false hfns hf, Bool.false_eq_true, if_false]
      exact flawList?_eq_none (fun x hx => ih x hx (hfits.argument hx)) 0

theorem Registry.nativeCode?_natives : ∀ fn ∈ natives, (Emitting.nativeCode? fn.operation).isSome = true := by decide

theorem Functions.Scoped.codable (hfns : fns.Scoped) {f : FuncId} {fn : Function} (hf : fns[f]? = some fn) :
    fns.Codable f := by
  refine ⟨fn, Walking.resolve_of_kind hf (Checking.kind_ne_pending hfns hf), ?_⟩
  rcases hfns.kinds f fn hf with hn | hc
  · simp only [Function.flaw?, Registry.kind_native fn hn, Registry.nativeCode?_natives fn hn, if_true]
  · simp only [Function.flaw?, hc, (hfns.bodies f fn hf hc).flaw?_eq_none hfns (hfns.fits hf), Option.map_none]

theorem Functions.Scoped.walkable (hfns : fns.Scoped) (follow : Bool) {f : FuncId} {fn : Function}
    (hf : fns[f]? = some fn) (hk : fn.kind = .custom) : fn.body.Walkable fns follow := by
  apply Expr.walkable_of_invariant fun y => (∃ scope, y.Scoped scope) ∧ Fits fns y
  · exact ⟨⟨_, hfns.bodies f fn hf hk⟩, hfns.fits hf⟩
  · rintro y z ⟨⟨scope, hy⟩, hfits⟩ hleads
    cases hleads with
    | argument hx =>
        cases hy with
        | call h => exact ⟨⟨scope, h _ hx⟩, hfits.argument hx⟩
    | body hg hk => exact ⟨⟨_, hfns.bodies _ _ hg hk⟩, hfns.fits hg⟩
    | relocated =>
        cases hy with
        | relocated h => exact ⟨⟨scope, h⟩, hfits⟩
    | closure =>
        cases hy with
        | closure _ h => exact ⟨⟨_, h⟩, hfits⟩
  · rintro ⟨⟨scope, h⟩, -⟩
    exact nomatch h
  · rintro l g args ⟨-, hfits⟩
    obtain ⟨gn, hg, -⟩ := hfits (g, args) List.mem_cons_self
    exact ⟨gn, hg, Checking.kind_ne_pending hfns hg⟩

end Scoped

namespace Session

structure Kept (w : Workspace) : Prop where
  sound : Sound w
  scopes : w.report.entries = [] → ∀ fn ∈ w.registry.functions, fn.Scoped
  legible : w.report.entries = [] → ∀ fn ∈ w.registry.functions, fn.Legible

theorem kept_initial : Kept {} :=
  ⟨sound_initial, fun _ => Registry.scoped_natives, fun _ => Registry.legible_natives⟩

theorem Kept.runs {s : Session} {resolver : Resolver} {read : Option (Bytes → Except FileError Bytes)} {depth : Nat}
    {src : Source} {c : Cursor} {path : Bytes} {w : Workspace} (h : Kept s.workspace)
    (hruns : Runs resolver read depth src c (entering s.workspace path) w) :
    Kept w ∧ s.workspace.report.entries <+: w.report.entries := by
  have hreport : (entering s.workspace path).report = s.workspace.report := by
    unfold entering
    split <;> rfl
  have hprefix := hruns.entries_isPrefix
  rw [hreport] at hprefix
  have hclean (hw : w.report.entries = []) : s.workspace.report.entries = [] := List.prefix_nil.1 (hw ▸ hprefix)
  refine ⟨⟨(h.sound.entering path).runs hruns, fun hw => ?_, fun hw => ?_⟩, hprefix⟩
  · apply (hruns.clean hw).scoped
    rw [functions_entering]
    exact h.scopes (hclean hw)
  · apply (hruns.clean hw).legible
    rw [functions_entering]
    exact h.legible (hclean hw)

theorem Kept.withReport {w : Workspace} (h : Kept w) {report : Report} (hne : report.entries ≠ []) :
    Kept { w with report } :=
  ⟨⟨h.sound.wellFormed, fun he => absurd he hne⟩, fun he => absurd he hne, fun he => absurd he hne⟩

theorem Kept.functions {w : Workspace} (h : Kept w) (hclean : w.report.entries = []) : w.registry.functions.Scoped :=
  h.sound.wellFormed.scoped (h.scopes hclean)

/-- How a stage of a session ends: with a result and an empty report, or with the report and nothing written. Only
without a loader there are faults. -/
inductive Ends {α : Type} (s : Session) (good : α → Workspace → Bytes → Prop) :
    EStateM.Result (Halt Rejection) Session α → Prop
  | fault {f s'} (hl : s.loader = none) : Ends s good (.error (.fault f) s')
  | refused {w} (hk : Kept w) (hp : s.workspace.report.entries <+: w.report.entries) (hne : w.report.entries ≠ []) :
      Ends s good (.error (.failure (.problems w.report)) { s with workspace := w })
  | done {a w out} (hs : s.workspace.report.entries = []) (hk : Kept w) (hclean : w.report.entries = [])
      (h : good a w out) : Ends s good (.ok a { s with workspace := w, output := out })

theorem Ends.bind {α β : Type} {s : Session} {good : α → Workspace → Bytes → Prop} {good' : β → Workspace → Bytes → Prop}
    {first : Compiling α} {next : α → Compiling β} (h : Ends s good (first s))
    (hnext : ∀ a w out, first s = .ok a { s with workspace := w, output := out } → s.workspace.report.entries = [] →
      Kept w → w.report.entries = [] → good a w out → Ends s good' (next a { s with workspace := w, output := out })) :
    Ends s good' ((first >>= next) s) := by
  generalize hfirst : first s = r at h
  cases h with
  | fault hl => rw [bind_error hfirst]; exact .fault hl
  | refused hk hp hne => rw [bind_error hfirst]; exact .refused hk hp hne
  | done hs hk hclean hgood => rw [bind_ok hfirst]; exact hnext _ _ _ hfirst hs hk hclean hgood

theorem parse_ends {s : Session} (h : Kept s.workspace) (name text : Bytes) :
    Ends s (fun _ _ out => out = s.output) (parse name text s) := by
  have houtcome {w : Workspace} (hruns : Runs s.resolver (some (Loader.reading s.loader)) s.importDepth
      ⟨mainPath name, text⟩ (Source.start ⟨mainPath name, text⟩) (entering s.workspace (mainPath name)) w) :
      Ends s (fun _ _ out => out = s.output) (outcome s w) := by
    obtain ⟨hk, hp⟩ := h.runs hruns
    unfold outcome
    by_cases hne : w.report.entries = []
    · rw [if_neg (by simp [Report.failed, hne]), hk.sound.wellFormed.pending?_eq_none]
      exact .done (List.prefix_nil.1 (hne ▸ hp)) hk hne rfl
    · rw [if_pos (by simp [Report.failed, hne])]
      exact .refused hk hp hne
  cases hl : s.loader with
  | some l =>
      obtain ⟨w, hruns, he⟩ := parse_runs hl name text
      rw [he]
      exact houtcome hruns
  | none =>
      rw [parse, get_bind]
      cases hread : readSource s ⟨mainPath name, text⟩ s.workspace with
      | ok _ w =>
          rw [bind_ok (building_ok hread), outcome_eq]
          rw [readSource_eq] at hread
          exact houtcome (Build.source_runs hread)
      | error fault w =>
          have hfault : building (readSource s ⟨mainPath name, text⟩) s = .error (.fault fault) { s with workspace := w } := by
            simp only [building, hread]
          rw [bind_error hfault]
          exact .fault hl

theorem refuseEntry_eq (entry : Bytes) (location : Location) (flaw : EntryFlaw) (s : Session) :
    ∃ d, refuseEntry entry location flaw s = .error (.failure (.problems (s.workspace.report.add d)))
      { s with workspace := { s.workspace with report := s.workspace.report.add d } } := ⟨_, rfl⟩

/-- The entry is there and fits, or the report says why not. -/
theorem findEntry_cases {s : Session} (h : s.workspace.registry.WellFormed) :
    (∃ f, findEntry s = .ok f s) ∨
      ∃ d, findEntry s = .error (.failure (.problems (s.workspace.report.add d)))
        { s with workspace := { s.workspace with report := s.workspace.report.add d } } := by
  unfold findEntry
  rw [get_bind]
  cases hl : s.workspace.registry.lookup s.entry with
  | none => exact .inr (refuseEntry_eq _ _ _ s)
  | some f =>
      obtain ⟨fn, hf, -⟩ := h.named _ f (Registry.mem_of_lookup hl)
      simp only [hf]
      split
      · exact .inr (refuseEntry_eq _ _ _ s)
      · split
        · exact .inr (refuseEntry_eq _ _ _ s)
        · exact .inl ⟨f, rfl⟩

structure Accepts (s : Session) (deps : List FuncId) (main : FuncId) (fn : Function) : Prop where
  lookup : s.workspace.registry.lookup s.entry = some main
  entry : s.workspace.registry.functions[main]? = some fn
  custom : fn.kind = .custom
  params : fn.params = []
  nodup : deps.Nodup
  mem_iff : ∀ f, f ∈ deps ↔ f = main ∨ fn.body.Reaches s.workspace.registry.functions s.follow f

theorem dependencies_accepts {s : Session} (hfns : s.workspace.registry.functions.Scoped) {main : FuncId}
    (hentry : findEntry s = .ok main s) :
    ∃ deps fn, dependencies main s = .ok deps s ∧ Accepts s deps main fn := by
  obtain ⟨-, hlookup, fn, hmain, hk, hparams⟩ := of_findEntry_eq_ok hentry
  obtain ⟨w, -, hdeps, hnodup, hmem⟩ := (hfns.walkable s.follow hmain hk).dependencies
  have hrun : dependencies main s = .ok (if w.found.contains main then w.found else w.found ++ [main]) s := by
    simp only [dependencies, hmain, Option.map_some, Option.getD_some, hdeps]
  refine ⟨_, fn, hrun, hlookup, hmain, hk, hparams, ?_, ?_⟩
  · split
    · exact hnodup
    · rename_i hnew
      refine List.nodup_append.2 ⟨hnodup, List.nodup_singleton main, ?_⟩
      rintro f hf g hg rfl
      exact hnew (by simpa [List.mem_singleton.1 hg] using hf)
  · intro f
    rw [← hmem]
    split
    · rename_i hold
      refine ⟨.inr, fun hf => hf.elim (fun he => ?_) fun h => h⟩
      simpa [he] using hold
    · rw [List.mem_append, List.mem_singleton, or_comm]

theorem checkTypes_eq {w : Workspace} (h : Kept w) (hclean : w.report.entries = []) :
    ∃ report, checkTypes w = .ok () { w with report } := by
  obtain ⟨ds, -, hrun⟩ := Checking.checkAll_eq (h.functions hclean) fun f => h.sound.wellFormed.lt_of_mem_listing
  obtain ⟨results, he⟩ := hrun { report := w.report } ⟨rfl, fun _ _ h => (nomatch h), fun _ h => (nomatch h)⟩
    (by simp [Report.stopped, hclean])
  unfold checkTypes
  rw [he]
  exact ⟨_, rfl⟩

def accept : Compiling (List FuncId) := do
  let deps ← dependencies (← findEntry)
  building checkTypes
  requireClean
  return deps

theorem accept_ends {s : Session} (h : Kept s.workspace) (hclean : s.workspace.report.entries = []) :
    Ends s (fun deps w out => w = s.workspace ∧ out = s.output ∧ ∃ main fn, Accepts s deps main fn) (accept s) := by
  rcases findEntry_cases h.sound.wellFormed with ⟨main, hentry⟩ | ⟨d, hentry⟩
  · obtain ⟨deps, fn, hdeps, haccepts⟩ := dependencies_accepts (h.functions hclean) hentry
    obtain ⟨report, htypes⟩ := checkTypes_eq h hclean
    rw [accept, bind_ok hentry, bind_ok hdeps, bind_ok (building_ok htypes), requireClean, bind_assoc, get_bind]
    by_cases hne : report.entries = []
    · have hsame : { s.workspace with report } = s.workspace := by
        have hreport : report = s.workspace.report := congrArg Report.mk (hne.trans hclean.symm)
        rw [hreport]
      rw [hsame, if_neg (by simp [Report.failed, hclean])]
      exact .done hclean h hclean ⟨rfl, rfl, main, fn, haccepts⟩
    · rw [if_pos (by simp [Report.failed, hne])]
      exact .refused (h.withReport hne) (hclean ▸ List.nil_prefix) hne
  · rw [accept, bind_error hentry]
    have hne : (s.workspace.report.add d).entries ≠ [] := List.append_ne_nil_of_right_ne_nil _ (List.cons_ne_nil d [])
    exact .refused (h.withReport hne) (List.prefix_append _ _) hne

theorem check_ends {s : Session} (h : Kept s.workspace) (name text : Bytes) :
    Ends s (fun deps w out => out = s.output ∧ ∃ main fn, Accepts { s with workspace := w } deps main fn)
      (check name text s) := by
  show Ends s _ ((parse name text >>= fun _ => accept) s)
  refine (parse_ends h name text).bind ?_
  rintro - w - - hs hk hclean rfl
  have hends := accept_ends (s := { s with workspace := w }) hk hclean
  generalize accept _ = r at hends ⊢
  cases hends with
  | fault hl => exact .fault hl
  | refused hk' hp hne => exact .refused hk' (hs ▸ List.nil_prefix) hne
  | done _ hk' hclean' hgood =>
      obtain ⟨rfl, rfl, haccepts⟩ := hgood
      exact .done hs hk' hclean' ⟨rfl, haccepts⟩

def emitter (s : Session) : Emitter Lagged := { ids := { source := Lagged.ofSeed s.seed } }

theorem Accepts.codable {s : Session} {deps : List FuncId} {main : FuncId} {fn : Function} (h : Accepts s deps main fn)
    (hfns : s.workspace.registry.functions.Scoped) : ∀ f ∈ deps, s.workspace.registry.functions.Codable f := by
  intro f hf
  rcases (h.mem_iff f).1 hf with rfl | hreach
  · exact hfns.codable h.entry
  · obtain ⟨g, hg, -⟩ := (hfns.walkable s.follow h.entry h.custom).complete f hreach
    exact hfns.codable hg

structure Compiles (s : Session) (name text : Bytes) (w : Workspace) (deps : List FuncId) (e : Emitter Lagged) : Prop where
  check : check name text s = .ok deps { s with workspace := w }
  accepts : ∃ main fn, Accepts { s with workspace := w } deps main fn
  program : Emitting.program w.registry.functions s.entry deps s.emitter = .ok () e
  writes : Emitting.Writes w.registry.functions deps (fun id => w.registry.functions.program id s.entry deps) s.emitter e

theorem compile_of_check {s : Session} {name text : Bytes} {w : Workspace} {deps : List FuncId} (hk : Kept w)
    (hclean : w.report.entries = []) (hcheck : check name text s = .ok deps { s with workspace := w })
    (haccepts : ∃ main fn, Accepts { s with workspace := w } deps main fn) :
    ∃ e, Compiles s name text w deps e ∧
      compile name text s = .ok () { s with workspace := w, output := s.output ++ e.output } := by
  obtain ⟨main, fn, haccepts⟩ := haccepts
  obtain ⟨e, hrun, hwrites⟩ := Emitting.program_writes s.entry (haccepts.codable (hk.functions hclean)) s.emitter
  refine ⟨e, ⟨hcheck, ⟨main, fn, haccepts⟩, hrun, hwrites⟩, ?_⟩
  have hemit : Emitting.program w.registry.functions s.entry deps { ids := { source := Lagged.ofSeed s.seed } } =
      .ok () e := hrun
  rw [compile, bind_ok hcheck, get_bind]
  simp only [hemit]
  rfl

theorem compile_ends {s : Session} (h : Kept s.workspace) (name text : Bytes) :
    Ends s (fun _ w out => ∃ deps e, Compiles s name text w deps e ∧ out = s.output ++ e.output)
      (compile name text s) := by
  have hends := check_ends h name text
  generalize hcheck : check name text s = r at hends
  cases hends with
  | fault hl => rw [compile, bind_error hcheck]; exact .fault hl
  | refused hk hp hne => rw [compile, bind_error hcheck]; exact .refused hk hp hne
  | done hs hk hclean hgood =>
      obtain ⟨rfl, haccepts⟩ := hgood
      obtain ⟨e, hcompiles, hrun⟩ := compile_of_check hk hclean hcheck haccepts
      rw [hrun]
      exact .done hs hk hclean ⟨_, e, hcompiles, rfl⟩

end Session

inductive Request where
  | parse (name text : Bytes)
  | check (name text : Bytes)
  | compile (name text : Bytes)

def Request.run : Request → Compiling Unit
  | .parse name text => Session.parse name text
  | .check name text => do let _ ← Session.check name text
  | .compile name text => Session.compile name text

namespace Session

def serve : List Request → Session → Session
  | [], s => s
  | r :: rs, s => serve rs (after r.run s)

theorem Ends.mono {α : Type} {s : Session} {good good' : α → Workspace → Bytes → Prop}
    {r : EStateM.Result (Halt Rejection) Session α} (h : Ends s good r) (himp : ∀ a w out, good a w out → good' a w out) :
    Ends s good' r := by
  cases h with
  | fault hl => exact .fault hl
  | refused hk hp hne => exact .refused hk hp hne
  | done hs hk hclean hgood => exact .done hs hk hclean (himp _ _ _ hgood)

theorem run_ends {s : Session} (h : Kept s.workspace) (r : Request) : Ends s (fun _ _ _ => True) (r.run s) := by
  cases r with
  | parse name text => exact (parse_ends h name text).mono fun _ _ _ _ => trivial
  | check name text => exact (check_ends h name text).bind fun _ _ _ _ hs hk hclean _ => .done hs hk hclean trivial
  | compile name text => exact (compile_ends h name text).mono fun _ _ _ _ => trivial

/-- A request leaves what is kept, and after a fault nothing is said. -/
theorem kept_after {s : Session} (h : Kept s.workspace) {r : Request} (hr : ∀ fault s', r.run s ≠ .error (.fault fault) s') :
    Kept (after r.run s).workspace ∧ (after r.run s).loader = s.loader := by
  have hends := run_ends h r
  unfold after
  generalize r.run s = result at hr hends
  cases hends with
  | fault => exact absurd rfl (hr _ _)
  | refused hk | done _ hk => exact ⟨hk, rfl⟩

theorem run_ne_fault {s : Session} {l : Loader} (h : Kept s.workspace) (hl : s.loader = some l) (r : Request) :
    ∀ fault s', r.run s ≠ .error (.fault fault) s' := by
  intro fault s' he
  have hends := run_ends h r
  rw [he] at hends
  cases hends with
  | fault hnone => exact nomatch hl.symm.trans hnone

theorem kept_serve {s : Session} {l : Loader} (h : Kept s.workspace) (hl : s.loader = some l) (history : List Request) :
    Kept (serve history s).workspace ∧ (serve history s).loader = some l := by
  induction history generalizing s with
  | nil => exact ⟨h, hl⟩
  | cons r history ih =>
      obtain ⟨hk, hloader⟩ := kept_after h (run_ne_fault h hl r)
      exact ih hk (hloader.trans hl)

/-- Once something is reported, every request is refused with the report. -/
theorem run_of_reported {s : Session} {l : Loader} (h : Kept s.workspace) (hl : s.loader = some l)
    (hne : s.workspace.report.entries ≠ []) (r : Request) :
    ∃ w, s.workspace.report.entries <+: w.report.entries ∧ Kept w ∧ w.report.entries ≠ [] ∧
      r.run s = .error (.failure (.problems w.report)) { s with workspace := w } := by
  have hends := run_ends h r
  generalize r.run s = result at hends
  cases hends with
  | fault hnone => exact nomatch hl.symm.trans hnone
  | refused hk hp hne' => exact ⟨_, hp, hk, hne', rfl⟩
  | done hs => exact absurd hs hne

theorem serve_of_reported {s : Session} {l : Loader} (h : Kept s.workspace) (hl : s.loader = some l)
    (hne : s.workspace.report.entries ≠ []) (history : List Request) :
    ∃ w, s.workspace.report.entries <+: w.report.entries ∧ Kept w ∧ w.report.entries ≠ [] ∧
      serve history s = { s with workspace := w } := by
  induction history generalizing s with
  | nil => exact ⟨s.workspace, List.prefix_rfl, h, hne, rfl⟩
  | cons r history ih =>
      obtain ⟨w, hp, hk, hne', hrun⟩ := run_of_reported h hl hne r
      have hafter : after r.run s = { s with workspace := w } := by rw [after, hrun]
      obtain ⟨w', hp', hrest⟩ := ih (s := { s with workspace := w }) hk hl hne'
      rw [serve, hafter]
      exact ⟨w', hp.trans hp', hrest⟩

/-- Whatever was asked before, a compilation ends without a fault. Either the checker accepts, the report is empty and
the whole program is written, the functions that the entry depends on and the call of the entry; or the checker
refuses with the report and nothing is written. Once anything is reported every later request is refused with the
report, and nothing is written any more. -/
theorem compile_all_or_nothing (loader : Loader) (resolver : Resolver) (entry : Bytes) (seed : Int) (follow : Bool)
    (history : List Request) (name text : Bytes) :
    let s := serve history (make (some loader) resolver entry seed follow)
    ((∃ w deps main fn e, check name text s = .ok deps { s with workspace := w } ∧ w.report.entries = [] ∧
        Accepts { s with workspace := w } deps main fn ∧
        Emitting.program w.registry.functions s.entry deps s.emitter = .ok () e ∧
        e.output = w.registry.functions.program e.ids.assigned s.entry deps ∧
        compile name text s = .ok () { s with workspace := w, output := s.output ++ e.output }) ∨
      ∃ w, w.report.entries ≠ [] ∧ check name text s = .error (.failure (.problems w.report)) { s with workspace := w } ∧
        compile name text s = .error (.failure (.problems w.report)) { s with workspace := w }) ∧
    (s.workspace.report.entries ≠ [] → ∀ (more : List Request) (r : Request),
      ∃ w, s.workspace.report.entries <+: w.report.entries ∧
        r.run (serve more s) = .error (.failure (.problems w.report)) { s with workspace := w }) := by
  intro s
  obtain ⟨hkept, hl⟩ : Kept s.workspace ∧ s.loader = some loader := kept_serve kept_initial rfl history
  constructor
  · have hends := check_ends hkept name text
    generalize hcheck : check name text s = r at hends
    cases hends with
    | fault hnone => exact nomatch hl.symm.trans hnone
    | refused hk hp hne => exact .inr ⟨_, hne, rfl, bind_error hcheck⟩
    | done hs hk hclean hgood =>
        obtain ⟨rfl, main, fn, haccepts⟩ := hgood
        obtain ⟨e, hcompiles, hrun⟩ := compile_of_check hk hclean hcheck ⟨main, fn, haccepts⟩
        have hdistinct := hcompiles.writes.ids.distinct ⟨List.nodup_nil, List.nodup_nil⟩
        exact .inl ⟨_, _, main, fn, e, rfl, hclean, haccepts, hcompiles.program,
          hcompiles.writes.output _ (Identifiers.assigns_assigned hdistinct), hrun⟩
  · intro hne more r
    obtain ⟨w, hp, hk, hne', hserve⟩ := serve_of_reported hkept hl hne more
    obtain ⟨w', hp', -, -, hrun⟩ := run_of_reported (s := { s with workspace := w }) hk hl hne' r
    rw [hserve]
    exact ⟨w', hp.trans hp', hrun⟩

end Session

end Polish
