import Polish.Proofs.Acceptance
import Polish.Proofs.Erasure
import Polish.Proofs.RoundTrip
import Polish.Proofs.Rounds

namespace Polish

namespace Build

variable {resolver : Resolver} {src : Source}

/-- What asks for no import is read in the same way whatever the importer. -/
theorem chunks_of_ask {n : Nat} {c : Cursor} {w w' : Workspace} (hlen : c.rest.length ≤ src.text.length)
    (h : chunks resolver (some ask) src n c w = .ok () w') :
    w.requests <+: w'.requests ∧
      (w'.requests = w.requests → ∀ importer, chunks resolver importer src n c w = .ok () w') := by
  induction n generalizing c w with
  | zero =>
      obtain ⟨-, rfl⟩ := EStateM.Result.ok.inj h
      exact ⟨List.prefix_rfl, fun _ _ => rfl⟩
  | succ n ih =>
      by_cases hend : c.skipBlanks.atEnd = true
      · simp only [chunks, hend, if_true] at h ⊢
        obtain ⟨-, rfl⟩ := EStateM.Result.ok.inj h
        exact ⟨List.prefix_rfl, fun _ _ => rfl⟩
      rw [Bool.not_eq_true] at hend
      have hlen' := Nat.le_trans c.reaches_skipBlanks.length_le hlen
      rcases chunk_cases resolver src c.skipBlanks w with ⟨stop, e, w₁, hchunk⟩ | ⟨d, e, target, path, -, -, -, hchunk⟩
      · have hinv := chunk_runs hlen' (hchunk none)
        have hle := (hinv.onward_lt hend).1.length_le
        rw [chunks_succ hend (hchunk _)] at h
        obtain ⟨hasked, hsame⟩ := ih (Nat.le_trans hle hlen) h
        have hrequests : (w₁.record (remarks src stop)).requests = w.requests := hinv.visits.requests
        rw [hrequests] at hasked hsame
        refine ⟨hasked, fun heq importer => ?_⟩
        rw [chunks_succ hend (hchunk _)]
        exact hsame heq importer
      · -- the request stays, so that there are more of them at the end
        have hask : chunk resolver (some ask) src c.skipBlanks w =
            .ok (none, e) { w with requests := w.requests ++ [(path, src.locate d.skipBlanks.off)] } := hchunk ask
        have hle := ((chunk_runs hlen' hask).onward_lt hend).1.length_le
        rw [chunks_succ hend hask] at h
        have hasked := (ih (Nat.le_trans hle hlen) h).1
        refine ⟨(List.prefix_append _ _).trans hasked, fun heq => ?_⟩
        have hlonger := hasked.length_le
        rw [heq] at hlonger
        simp [Workspace.record] at hlonger

end Build

namespace Session

def imports (s : Session) (name text : Bytes) : List Bytes :=
  Build.requested s.resolver ⟨mainPath name, text⟩ (entering s.workspace (mainPath name))

theorem requests_entering (w : Workspace) (path : Bytes) : (entering w path).requests = w.requests := by
  unfold entering
  split <;> rfl

theorem report_entering (w : Workspace) (path : Bytes) : (entering w path).report = w.report := by
  unfold entering
  split <;> rfl

/-- A main source that asks for no import is read as if there were no importer. -/
theorem parse_of_imports_eq_nil {s : Session} (hs : s.workspace.requests = []) {name text : Bytes}
    (h : imports s name text = []) :
    ∃ w, Runs s.resolver none 0 ⟨mainPath name, text⟩ (Source.start ⟨mainPath name, text⟩)
        (entering s.workspace (mainPath name)) w ∧ parse name text s = outcome s w := by
  have htotal : ∀ run, some Build.ask = some run → ∀ path here w, ∃ w', run path here w = .ok () w' := by
    rintro run ⟨rfl⟩ path here w
    exact ⟨_, rfl⟩
  obtain ⟨w, hw⟩ := Build.chunks_total htotal ⟨mainPath name, text⟩ (text.length + 1)
    (Source.start ⟨mainPath name, text⟩) (entering s.workspace (mainPath name))
  have hasked : w.requests = (entering s.workspace (mainPath name)).requests := by
    rw [requests_entering, hs]
    have hsource : Build.source s.resolver (some Build.ask) ⟨mainPath name, text⟩
        (entering s.workspace (mainPath name)) = .ok () w := hw
    rw [imports, Build.requested, hsource] at h
    exact List.map_eq_nil_iff.1 h
  have hany := (Build.chunks_of_ask (Nat.le_refl _) hw).2 hasked
  refine ⟨w, Build.source_runs_alone (hany none), ?_⟩
  rw [parse, get_bind, bind_ok (building_ok ((readSource_eq s _ _).trans (hany _)))]
  exact outcome_eq s w

theorem parse_of_cleanRuns {s : Session} {name text : Bytes} {w : Workspace}
    (h : CleanRuns s.resolver none 0 ⟨mainPath name, text⟩ (Source.start ⟨mainPath name, text⟩)
      (entering s.workspace (mainPath name)) w) : parse name text s = outcome s w := by
  rw [parse, get_bind, bind_ok (building_ok ((readSource_eq s _ _).trans (h.chunks _ (Nat.lt_succ_self _) (Nat.le_refl _))))]
  exact outcome_eq s w

theorem outcome_of_clean (s : Session) {w : Workspace} (hw : w.registry.WellFormed) (hclean : w.report.entries = []) :
    outcome s w = .ok () { s with workspace := w } := by
  rw [outcome, if_neg (by simp [Report.failed, hclean]), hw.pending?_eq_none]

section Accept

variable {s s' : Session} {main : FuncId} {deps : List FuncId}

theorem of_accept_eq_ok (h : accept s = .ok deps s') :
    ∃ main w, findEntry s = .ok main s ∧ dependencies main s = .ok deps s ∧ checkTypes s.workspace = .ok () w ∧
      w.report.entries = [] ∧ s' = { s with workspace := w } := by
  obtain ⟨main, s₁, hentry, h₁⟩ := bind_eq_ok.1 h
  obtain ⟨rfl, -⟩ := of_findEntry_eq_ok hentry
  obtain ⟨deps', s₂, hdeps, h₂⟩ := bind_eq_ok.1 h₁
  obtain rfl := of_dependencies_eq_ok hdeps
  obtain ⟨⟨⟩, s₃, hbuilding, h₃⟩ := bind_eq_ok.1 h₂
  obtain ⟨w, hw, rfl⟩ := of_building_eq_ok hbuilding
  obtain ⟨⟨⟩, s₄, hrequire, h₄⟩ := bind_eq_ok.1 h₃
  obtain ⟨rfl, hclean⟩ := of_requireClean_eq_ok hrequire
  obtain ⟨rfl, rfl⟩ := EStateM.Result.ok.inj h₄
  exact ⟨main, w, hentry, hdeps, hw, hclean, rfl⟩

/-- Sessions whose functions are the same up to locations, and that ask for the same. -/
structure Alike (s' s : Session) : Prop where
  registry : s'.workspace.registry.Same s.workspace.registry
  entry : s'.entry = s.entry
  follow : s'.follow = s.follow

theorem Alike.getElem? (h : Alike s' s) (f : FuncId) :
    s'.workspace.registry.functions[f]?.map Function.unlocated =
      s.workspace.registry.functions[f]?.map Function.unlocated := by
  rw [← Functions.getElem?_unlocated, h.registry.functions, Functions.getElem?_unlocated]

theorem Alike.findEntry (h : Alike s' s) (hentry : findEntry s = .ok main s) : findEntry s' = .ok main s' := by
  obtain ⟨-, hlookup, fn, hfn, hk, hp⟩ := of_findEntry_eq_ok hentry
  have hget := h.getElem? main
  rw [hfn, Option.map_some, Option.map_eq_some_iff] at hget
  obtain ⟨fn', hfn', he⟩ := hget
  have hk' : fn'.kind = .custom := (congrArg Function.kind he).trans hk
  have hp' : fn'.params = [] := (congrArg Function.params he).trans hp
  have hlookup' : s'.workspace.registry.lookup s'.entry = some main := by
    rw [h.registry.answers.lookup, h.entry, hlookup]
  rw [Session.findEntry, get_bind]
  simp only [hlookup', hfn', hk', hp']
  rfl

theorem Alike.dependencies (h : Alike s' s) (hdeps : dependencies main s = .ok deps s) :
    dependencies main s' = .ok deps s' := by
  have hbody (s : Session) : (((s.workspace.registry.functions[main]?).map Function.body).getD .hole).unlocated =
      (((s.workspace.registry.functions[main]?).map Function.unlocated).map Function.body).getD .hole := by
    cases s.workspace.registry.functions[main]? <;> rfl
  have hsame := hbody s'
  rw [h.getElem? main, ← hbody s] at hsame
  unfold Session.dependencies at hdeps ⊢
  dsimp only at hdeps ⊢
  rw [← Expr.dependencies_unlocated, hsame, h.registry.functions, h.follow, Expr.dependencies_unlocated]
  generalize Expr.dependencies _ _ _ = result at hdeps ⊢
  cases result with
  | error fault => cases hdeps
  | ok found =>
      obtain ⟨rfl, -⟩ := EStateM.Result.ok.inj hdeps
      rfl

theorem checkTypes_flags {w : Workspace} (hk : Kept w) (hclean : w.report.entries = []) :
    ∃ ds, Mismatches w.registry.functions (w.registry.listing.flatMap w.registry.functions.sites) ds ∧
      checkTypes w = .ok () { w with report := (ds.foldl Checker.record { report := w.report }).report } := by
  obtain ⟨ds, hds, hrun⟩ := Checking.checkAll_eq (hk.functions hclean) fun f => hk.sound.wellFormed.lt_of_mem_listing
  have hfit : Checker.Fit w.registry.functions [] { report := w.report } :=
    ⟨rfl, fun _ _ h => (by cases h), List.forall_mem_nil _⟩
  obtain ⟨results, he⟩ := hrun { report := w.report } hfit (by simp [Report.stopped, hclean])
  refine ⟨ds, hds, ?_⟩
  simp only [checkTypes, he]

/-- Where nothing is reported of some functions, nothing is reported of the same functions at other places. -/
theorem Alike.checkTypes (h : Alike s' s) (hk : Kept s.workspace) (hk' : Kept s'.workspace)
    (hclean : s.workspace.report.entries = []) (hclean' : s'.workspace.report.entries = []) {w : Workspace}
    (htypes : checkTypes s.workspace = .ok () w) (hw : w.report.entries = []) :
    checkTypes s'.workspace = .ok () s'.workspace := by
  have hsites (fns : Functions) (fs : List FuncId) :
      (fs.flatMap fns.sites).map Site.unlocated = fs.flatMap (Functions.sites (fns.map Function.unlocated)) := by
    rw [List.map_flatMap, funext (Functions.sites_unlocated fns)]
  obtain ⟨ds, hds, he⟩ := checkTypes_flags hk hclean
  obtain ⟨ds', hds', he'⟩ := checkTypes_flags hk' hclean'
  obtain ⟨-, rfl⟩ := EStateM.Result.ok.inj (he.symm.trans htypes)
  obtain rfl := Checker.eq_nil_of_foldl_record rfl hw
  have hlisting : s'.workspace.registry.listing = s.workspace.registry.listing := by
    rw [Registry.listing, Registry.listing, h.registry.names]
  have hnone := hds.unlocated
  have hsame := hds'.unlocated
  rw [hsites] at hnone
  rw [hsites, h.registry.functions, hlisting] at hsame
  obtain rfl := List.map_eq_nil_iff.1 (hsame.unique hnone)
  exact he'

theorem Alike.accept (h : Alike s' s) (hk : Kept s.workspace) (hk' : Kept s'.workspace)
    (hclean : s.workspace.report.entries = []) (hclean' : s'.workspace.report.entries = []) {s₁ : Session}
    (haccept : accept s = .ok deps s₁) : accept s' = .ok deps s' := by
  obtain ⟨main, w, hentry, hdeps, htypes, hw, -⟩ := of_accept_eq_ok haccept
  have htypes' := h.checkTypes hk hk' hclean hclean' htypes hw
  rw [Session.accept, bind_ok (h.findEntry hentry), bind_ok (h.dependencies hdeps), bind_ok (building_ok htypes'),
    requireClean, bind_assoc, get_bind, if_neg (by simp [Report.failed, hclean'])]
  rfl

end Accept

theorem of_check_eq_ok_accept {s s' : Session} {name text : Bytes} {deps : List FuncId}
    (h : check name text s = .ok deps s') : ∃ s₁, parse name text s = .ok () s₁ ∧ accept s₁ = .ok deps s' := by
  have hbind : (parse name text >>= fun _ => accept) s = .ok deps s' := h
  obtain ⟨⟨⟩, s₁, hparse, haccept⟩ := bind_eq_ok.1 hbind
  exact ⟨s₁, hparse, haccept⟩

theorem same_entering (path path' : Bytes) : (entering {} path).registry.Same (entering {} path').registry := by
  have hsame (path : Bytes) : (entering {} path).registry.Same Registry.initial := by
    unfold entering
    split
    · exact ⟨rfl, rfl⟩
    · exact ⟨(Registry.same_markImported _ _).names.symm, (Registry.same_markImported _ _).functions.symm⟩
  exact (hsame path).trans ⟨(hsame path').names.symm, (hsame path').functions.symm⟩

/-- What a fresh session reads without imports and problems is printed, and what is printed is read by a fresh session
as the same functions. -/
theorem reads_printed {resolver : Resolver} {path : Bytes} {src : Source} {c : Cursor} {w : Workspace}
    (h : CleanRuns resolver none 0 src c (entering {} path) w) (hw : Sound w) (hclean : w.report.entries = []) :
    ∃ printed, Print.functions w.registry.functions w.registry.listing = .ok printed ∧
      ∀ (resolver' : Resolver) (path' : Bytes), ∃ w', CleanRuns resolver' none 0 ⟨path', printed⟩
        (Source.start ⟨path', printed⟩) (entering {} path') w' ∧ w'.registry.Same w.registry := by
  have hnatives : (entering {} path).registry.functions = Registry.initial.functions := functions_entering _ _
  obtain ⟨added, hgrows, -, -⟩ := h.grows
  obtain ⟨printed, hprinted, hread⟩ := hgrows.print (hgrows.names (sound_initial.entering path).wellFormed)
    fun i fn hi => (hgrows.getElem? i).1.trans hi
  have hfunctions := h.functions_eq_of_natives hnatives hw.wellFormed (hw.current hclean)
  rw [hgrows.declared_of_natives hnatives, hprinted] at hfunctions
  refine ⟨printed, hfunctions, fun resolver' path' => ?_⟩
  exact hread resolver' ⟨path', printed⟩ (Source.start ⟨path', printed⟩) (entering {} path') rfl (same_entering _ _)

/-- A program that asks for no import is checked with the same dependencies after its functions are printed and read
again. -/
theorem check_printed (loader loader' : Option Loader) (resolver resolver' : Resolver) (entry : Bytes) (seed : Int)
    (follow : Bool) (name name' text : Bytes) {deps : List FuncId} {w : Workspace}
    (hfree : imports (make loader resolver entry seed follow) name text = [])
    (h : check name text (make loader resolver entry seed follow) =
      .ok deps { make loader resolver entry seed follow with workspace := w }) :
    ∃ printed w', Print.functions w.registry.functions w.registry.listing = .ok printed ∧ Kept w' ∧
      w'.report.entries = [] ∧ w'.registry.Same w.registry ∧
      check name' printed (make loader' resolver' entry seed follow) =
        .ok deps { make loader' resolver' entry seed follow with workspace := w' } := by
  obtain ⟨w₁, hruns, hparse⟩ := parse_of_imports_eq_nil rfl hfree
  obtain ⟨s₁, hparsed, haccept⟩ := of_check_eq_ok_accept h
  obtain ⟨rfl, hclean, -⟩ := outcome_eq_ok (hparse.symm.trans hparsed)
  have hk : Kept w₁ := (kept_initial.runs (s := make loader resolver entry seed follow) hruns).1
  obtain rfl : w = w₁ := by
    have hends := accept_ends (s := { make loader resolver entry seed follow with workspace := w₁ }) hk hclean
    rw [haccept] at hends
    cases hends with
    | done _ _ _ hgood => exact hgood.1
  obtain ⟨printed, hprinted, hread⟩ := reads_printed (hruns.clean hclean) hk.sound hclean
  obtain ⟨w', hruns', hsame⟩ := hread resolver' (mainPath name')
  have hparse' := parse_of_cleanRuns (s := make loader' resolver' entry seed follow) hruns'
  have hclean' : w'.report.entries = [] := by rw [hruns'.report, report_entering]
  have hk' : Kept w' := (kept_initial.runs (s := make loader' resolver' entry seed follow)
    (Build.source_runs_alone hruns'.source)).1
  refine ⟨printed, w', hprinted, hk', hclean', hsame, ?_⟩
  have hparsed' := hparse'.trans (outcome_of_clean _ hk'.sound.wellFormed hclean')
  have halike : Alike { make loader' resolver' entry seed follow with workspace := w' }
      { make loader resolver entry seed follow with workspace := w } := ⟨hsame, rfl, rfl⟩
  exact (bind_ok hparsed').trans (halike.accept hk hk' hclean hclean' haccept)

/-- A program that asks for no import is compiled to the same code after its functions are printed and read again:
under whatever name and with whatever loader and resolver, whether the letters of identifiers are drawn from the same
seed or from any other source. -/
theorem compile_printed (loader loader' : Option Loader) (resolver resolver' : Resolver) (entry : Bytes) (seed : Int)
    (follow : Bool) (name name' text : Bytes) {s : Session}
    (hfree : imports (make loader resolver entry seed follow) name text = [])
    (h : compile name text (make loader resolver entry seed follow) = .ok () s) :
    ∃ (printed : Bytes) (s' : Session) (deps : List FuncId),
      Print.functions s.workspace.registry.functions s.workspace.registry.listing = .ok printed ∧
      compile name' printed (make loader' resolver' entry seed follow) = .ok () s' ∧ s'.output = s.output ∧
      check name text (make loader resolver entry seed follow) = .ok deps { s with output := [] } ∧
      check name' printed (make loader' resolver' entry seed follow) = .ok deps { s' with output := [] } ∧
      ∀ {σ : Type} [LetterSource σ], Emitting.program (σ := σ) s'.workspace.registry.functions s.entry deps =
        Emitting.program s.workspace.registry.functions s.entry deps := by
  have hends := compile_ends (s := make loader resolver entry seed follow) kept_initial name text
  rw [h] at hends
  cases hends with
  | @done _ w _ _ hk hclean hgood =>
  obtain ⟨deps, e, hcompiles, rfl⟩ := hgood
  obtain ⟨printed, w', hprinted, hk', hclean', hsame, hcheck'⟩ := check_printed loader loader' resolver resolver' entry
    seed follow name name' text hfree hcompiles.check
  have hends' := check_ends (s := make loader' resolver' entry seed follow) kept_initial name' printed
  rw [hcheck'] at hends'
  cases hends' with
  | done _ _ _ hgood =>
  obtain ⟨e', hcompiles', hcompile'⟩ := compile_of_check hk' hclean' hcheck' hgood.2
  have hprogram {σ : Type} [LetterSource σ] (entry : Bytes) : Emitting.program (σ := σ) w'.registry.functions entry deps =
      Emitting.program w.registry.functions entry deps := by
    rw [← Emitting.program_unlocated w'.registry.functions, hsame.functions, Emitting.program_unlocated]
  have hemitted := hcompiles'.program
  rw [hprogram] at hemitted
  obtain ⟨-, rfl⟩ := EStateM.Result.ok.inj (hemitted.symm.trans hcompiles.program)
  exact ⟨printed, _, deps, hprinted, hcompile', rfl, hcompiles.check, hcheck', hprogram _⟩

def reprint (s : Session) (name text : Bytes) : Option Bytes :=
  match compile name text s with
  | .ok _ s' => (Print.functions s'.workspace.registry.functions s'.workspace.registry.listing).toOption
  | .error _ _ => none

theorem of_reprint {s : Session} {name text printed : Bytes} (h : reprint s name text = some printed) :
    ∃ s', compile name text s = .ok () s' ∧
      Print.functions s'.workspace.registry.functions s'.workspace.registry.listing = .ok printed := by
  unfold reprint at h
  cases hcompile : compile name text s with
  | error halt s' => rw [hcompile] at h; cases h
  | ok _ s' =>
      rw [hcompile] at h
      dsimp only at h
      refine ⟨s', rfl, ?_⟩
      cases hp : Print.functions s'.workspace.registry.functions s'.workspace.registry.listing with
      | error e => rw [hp] at h; cases h
      | ok other => rw [hp] at h; exact congrArg _ (Option.some.inj h)

def grouped : Bytes :=
  utf8 "function twice number x =>(core/add x core/mul 0.10 x) function later number x =>
    core/cat anon => twice (x) function main => later 5abc"

def groupedPrinted : Bytes :=
  utf8 "function twice number x => core/add x (core/mul 0.1 x)
function later number x => core/cat (anon => twice x)
function main => later 5\n"

theorem compile_printed_grouped :
    ∃ s s' : Session, imports (make none (Resolver.make [] []) [] 1 true) (utf8 "a") grouped = [] ∧
      compile (utf8 "a") grouped (make none (Resolver.make [] []) [] 1 true) = .ok () s ∧
      compile (utf8 "b") groupedPrinted (make none (Resolver.make [] []) [] 1 true) = .ok () s' ∧
      s'.output = s.output := by
  have hfree : imports (make none (Resolver.make [] []) [] 1 true) (utf8 "a") grouped = [] := by decide +kernel
  obtain ⟨s, h, hp⟩ := of_reprint (show reprint (make none (Resolver.make [] []) [] 1 true) (utf8 "a") grouped =
    some groupedPrinted by decide +kernel)
  obtain ⟨printed, s', deps, hprinted, hcompile, houtput, -⟩ := compile_printed none none (Resolver.make [] [])
    (Resolver.make [] []) [] 1 true (utf8 "a") (utf8 "b") grouped hfree h
  obtain rfl : groupedPrinted = printed := Except.ok.inj (hp.symm.trans hprinted)
  exact ⟨s, s', hfree, h, hcompile, houtput⟩

end Session

end Polish
