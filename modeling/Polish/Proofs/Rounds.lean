import Polish.Proofs.Grammar.Depth
import Polish.Proofs.Path
import Polish.Proofs.Runs.Session
import Mathlib.Data.List.Nodup
import Mathlib.Logic.Function.Iterate

namespace Polish

theorem Registry.isImported_remove (r : Registry) (name : Bytes) (f : FuncId) (path : Bytes) :
    (r.remove name f).isImported path = r.isImported path := by
  unfold remove
  split <;> rfl

/-- Paths are marked one after the other and handed to the loader, none of them twice. -/
structure Workspace.Visits (w : Workspace) (paths : List Bytes) (w' : Workspace) : Prop where
  requests : w'.requests = w.requests
  reads : w'.reads = w.reads ++ paths
  imported : ∀ path, w'.registry.isImported path = true ↔ w.registry.isImported path = true ∨ path ∈ paths
  fresh : ∀ path ∈ paths, w.registry.isImported path = false
  nodup : paths.Nodup

namespace Workspace

variable {w w' w'' : Workspace} {paths paths' : List Bytes}

theorem visits_nil (w : Workspace) : w.Visits [] w :=
  ⟨rfl, (List.append_nil _).symm, by simp, nofun, List.nodup_nil⟩

theorem visits_visit {path : Bytes} (h : w.registry.isImported path = false) : w.Visits [path] (w.visit path) := by
  refine ⟨rfl, rfl, fun other => ?_, List.forall_mem_singleton.2 h, List.nodup_singleton path⟩
  simp [visit, Registry.isImported_markImported, or_comm]

theorem Visits.record (h : w.Visits paths w') (notes : List Diagnostic) : w.Visits paths (w'.record notes) :=
  ⟨h.requests, h.reads, h.imported, h.fresh, h.nodup⟩

theorem Visits.trans (h : w.Visits paths w') (h' : w'.Visits paths' w'') : w.Visits (paths ++ paths') w'' where
  requests := h'.requests.trans h.requests
  reads := by rw [h'.reads, h.reads, List.append_assoc]
  imported path := by rw [h'.imported, h.imported, List.mem_append, or_assoc]
  fresh path hpath := by
    rcases List.mem_append.1 hpath with hpath | hpath
    · exact h.fresh path hpath
    · rw [Bool.eq_false_iff]
      intro hold
      exact Bool.eq_false_iff.1 (h'.fresh path hpath) ((h.imported path).2 (.inl hold))
  nodup := by
    refine List.nodup_append.2 ⟨h.nodup, h'.nodup, ?_⟩
    rintro path hpath _ hpath' rfl
    exact Bool.eq_false_iff.1 (h'.fresh path hpath') ((h.imported path).2 (.inr hpath))

end Workspace

namespace Build

variable {resolver : Resolver} {importer : Option Importer} {src : Source} {c d : Cursor} {w w' : Workspace}

def ask : Importer := fun path here => modify fun w => { w with requests := w.requests ++ [(path, here)] }

def requested (resolver : Resolver) (src : Source) (w : Workspace) : List Bytes :=
  match source resolver (some ask) src w with
  | .ok _ w | .error _ w => w.requests.map (·.1)

def onward (src : Source) (stop : Option Stop) (c : Cursor) : Cursor := match stop with
  | none => c
  | some _ => resync (src.text.length + 1) c

def remarks (src : Source) (stop : Option Stop) : List Diagnostic := match stop with
  | none => []
  | some stop => stop.problems src

def round (resolver : Resolver) (src : Source) (c : Cursor) : Build (Cursor × Option (Bytes × Location)) := do
  let (stop, d) ← chunk resolver (some ask) src c.skipBlanks
  let asked := (← get).requests.head?
  modify fun w => { w with requests := [] }
  modify (·.record (remarks src stop))
  return (onward src stop d, asked)

theorem resync_congr {n m : Nat} (hn : c.rest.length < n) (hm : c.rest.length < m) : resync n c = resync m c := by
  induction n generalizing m c with
  | zero => exact absurd hn (Nat.not_lt_zero _)
  | succ n ih =>
      obtain ⟨m, rfl⟩ : ∃ less, m = less + 1 := ⟨m - 1, by omega⟩
      simp only [resync, Cursor.token_skipBlanks]
      by_cases hend : c.skipBlanks.atEnd = true
      · simp only [hend, if_true]
      simp only [if_neg hend]
      by_cases hword : c.token.1 = utf8 "function" ∨ c.token.1 = utf8 "import"
      · simp only [hword, if_true]
      simp only [if_neg hword]
      have hle := (c.reaches_skipBlanks.trans c.reaches_token).length_le
      by_cases hempty : c.token.1.isEmpty = true
      · have hpos : c.token.2.rest ≠ [] := by
          have hrest := c.token_append_rest
          rw [List.isEmpty_iff.1 hempty, List.nil_append, ← Cursor.rest_skipBlanks] at hrest
          simpa [Cursor.atEnd, hrest] using hend
        have hlt : (c.token.2.advance 1).rest.length < c.token.2.rest.length := by
          have := List.length_pos_iff.2 hpos
          simp only [Cursor.advance, List.length_drop]
          omega
        simp only [hempty, if_true]
        exact ih (by omega) (by omega)
      · have hlt := Parser.token_shorter (c := c) (by simpa using hempty)
        simp only [if_neg hempty]
        exact ih (by omega) (by omega)

theorem importation_cases (resolver : Resolver) (src : Source) (d : Cursor) (w : Workspace) :
    (∃ stop e w', ∀ importer, importation resolver importer src d w = .ok (stop, e) w') ∨
    ∃ e target path, d.skipBlanks.Quoted target e ∧ resolver.resolve src.path target = .ok path ∧
      ∀ run, importation resolver (some run) src d w =
        (run path (src.locate d.skipBlanks.off) >>= fun _ => pure (none, e)) w := by
  simp only [importation]
  cases hx : Parser.string ⟨d.skipBlanks, w.report⟩ with
  | error stop r => exact .inl ⟨some stop, r.cursor, _, fun _ => bind_ok (parsing_error hx)⟩
  | ok target r =>
      obtain ⟨hreport, hq⟩ := (Parser.string_ensures 0 _).ok hx
      have hw : { w with report := r.report } = w := by rw [hreport]
      simp only [bind_ok (parsing_ok hx), hw]
      cases hp : resolver.resolve src.path target with
      | error problem => exact .inl ⟨none, r.cursor, _, fun _ => rfl⟩
      | ok path => exact .inr ⟨r.cursor, target, path, hq, hp, fun _ => rfl⟩

/-- A chunk asks for one import when it is over, or for none. -/
theorem chunk_cases (resolver : Resolver) (src : Source) (c : Cursor) (w : Workspace) :
    (∃ stop e w', ∀ importer, chunk resolver importer src c w = .ok (stop, e) w') ∨
    ∃ d e target path, c.token = (utf8 "import", d) ∧ d.skipBlanks.Quoted target e ∧
      resolver.resolve src.path target = .ok path ∧ ∀ run, chunk resolver (some run) src c w =
        (run path (src.locate d.skipBlanks.off) >>= fun _ => pure (none, e)) w := by
  simp only [chunk]
  by_cases hfun : c.token.1 = utf8 "function"
  · simp only [hfun, if_true]
    obtain ⟨stop, e, w', h⟩ := declaration_total src c.token.2 w
    exact .inl ⟨stop, e, w', fun _ => h⟩
  by_cases himp : c.token.1 = utf8 "import"
  · simp only [if_neg hfun, if_pos himp]
    rcases importation_cases resolver src c.token.2 w with hquiet | ⟨e, target, path, hq, hp, hrun⟩
    · exact .inl hquiet
    · exact .inr ⟨c.token.2, e, target, path, by rw [← himp], hq, hp, hrun⟩
  · simp only [if_neg hfun, if_neg himp]
    exact .inl ⟨_, _, w, fun _ => rfl⟩

theorem Chunk.onward_lt {stop : Option Stop} (hend : c.skipBlanks.atEnd = false)
    (h : Chunk resolver importer src c.skipBlanks w stop d w') :
    c.Reaches (onward src stop d) ∧ (onward src stop d).rest.length < c.rest.length := by
  have hafter {word : Bytes} {e f : Cursor} (hk : c.skipBlanks.token = (word, e)) (hw : word ≠ []) (he : e.Reaches f) :
      c.Reaches f ∧ f.rest.length < c.rest.length := by
    obtain ⟨hreach, hlt⟩ := Cursor.length_token_lt (c.token_skipBlanks ▸ hk) hw
    exact ⟨hreach.trans he, Nat.lt_of_le_of_lt he.length_le hlt⟩
  cases h with
  | declared hk hs hb => exact hafter hk (by decide) (hs.reaches.trans hb.reaches.1)
  | dropped hk hs he hn => exact hafter hk (by decide) ((hs.reaches.trans he).trans (resync_reaches _ _))
  | refused ht he hw hn => exact length_stopped_lt (by omega) hend (c.token_skipBlanks ▸ ht) he hw
  | noted hk he hn => exact hafter hk (by decide) he
  | imported hr hk hq hp hrun => exact hafter hk (by decide) ((Cursor.reaches_skipBlanks _).trans hq.reaches.1)

theorem chunks_succ {stop : Option Stop} (hend : c.skipBlanks.atEnd = false)
    (h : chunk resolver importer src c.skipBlanks w = .ok (stop, d) w') (n : Nat) :
    chunks resolver importer src (n + 1) c w =
      chunks resolver importer src n (onward src stop d) (w'.record (remarks src stop)) := by
  simp only [chunks, hend, Bool.false_eq_true, if_false, bind_ok h]
  cases stop with
  | none => rw [remarks, Workspace.record_nil]; rfl
  | some stop =>
      cases stop with
      | malformed off why => rfl
      | reported => rw [remarks, Stop.problems, Workspace.record_nil]; rfl

theorem Chunk.visits {stop : Option Stop} (h : Chunk resolver none src c w stop d w') : w.Visits [] w' := by
  have hkept (registry : Registry) (notes : List Diagnostic)
      (hr : ∀ path, registry.isImported path = w.registry.isImported path) :
      w.Visits [] ((w.withRegistry registry).record notes) :=
    ⟨rfl, (List.append_nil _).symm, fun path => by simp [Workspace.record, Workspace.withRegistry, hr],
      List.forall_mem_nil _, List.nodup_nil⟩
  cases h with
  | declared hk hs hb => exact hkept _ _ fun _ => rfl
  | dropped hk hs he hn => exact hkept _ _ fun path => Registry.isImported_remove _ _ _ path
  | refused ht he hw hn => exact (Workspace.visits_nil w).record _
  | noted hk he hn => exact (Workspace.visits_nil w).record _
  | imported hr => cases hr

theorem round_of_chunk {stop : Option Stop} (h : ∀ importer, chunk resolver importer src c.skipBlanks w = .ok (stop, d) w')
    (hw : w'.requests = []) : round resolver src c w = .ok (onward src stop d, none) (w'.record (remarks src stop)) := by
  have hclear : { w' with requests := [] } = w' := by rw [← hw]
  simp only [round, bind_ok (h _), get_bind, modify_bind, hclear, hw]
  rfl

theorem round_of_ask {path : Bytes} {here : Location} (h : ∀ run : Importer,
      chunk resolver (some run) src c.skipBlanks w = (run path here >>= fun _ => pure (none, d)) w)
    (hw : w.requests = []) : round resolver src c w = .ok (d, some (path, here)) w := by
  have hask : ask path here w = .ok () { w with requests := [(path, here)] } := by
    show EStateM.Result.ok () { w with requests := w.requests ++ [_] } = _
    rw [hw]
    rfl
  have hclear : { w with requests := [] } = w := by rw [← hw]
  simp only [round, bind_ok ((h ask).trans (bind_ok hask)), get_bind, modify_bind, remarks, onward,
    Workspace.record_nil, hclear]
  rfl

theorem round_cases (resolver : Resolver) (hlen : c.rest.length ≤ src.text.length) (hend : c.skipBlanks.atEnd = false)
    (hw : w.requests = []) :
    (∃ d w', round resolver src c w = .ok (d, none) w' ∧ w.Visits [] w' ∧ c.Reaches d ∧
      d.rest.length < c.rest.length ∧
      ∀ run n, chunks resolver (some run) src (n + 1) c w = chunks resolver (some run) src n d w') ∨
    ∃ d path here, round resolver src c w = .ok (d, some (path, here)) w ∧ Path.Canonical path ∧ c.Reaches d ∧
      d.rest.length < c.rest.length ∧ ∀ run n, chunks resolver (some run) src (n + 1) c w =
        (run path here >>= fun _ => chunks resolver (some run) src n d) w := by
  have hlen' := Nat.le_trans c.reaches_skipBlanks.length_le hlen
  rcases chunk_cases resolver src c.skipBlanks w with ⟨stop, e, w₁, hchunk⟩ | ⟨d, e, target, path, hk, hq, hp, hchunk⟩
  · have hinv := chunk_runs hlen' (hchunk none)
    have hvisits := hinv.visits
    obtain ⟨hreach, hlt⟩ := hinv.onward_lt hend
    exact .inl ⟨_, _, round_of_chunk hchunk (hvisits.requests.trans hw), hvisits.record _, hreach, hlt,
      fun run n => chunks_succ hend (hchunk (some run)) n⟩
  · have hinv : Chunk resolver (some fun _ _ => pure ()) src c.skipBlanks w none e w := .imported rfl hk hq hp rfl
    obtain ⟨hreach, hlt⟩ := hinv.onward_lt hend
    refine .inr ⟨e, path, _, round_of_ask hchunk hw, Resolver.canonical hp, hreach, hlt, fun run n => ?_⟩
    have himport := hchunk run
    cases hrun : run path (src.locate d.skipBlanks.off) w with
    | ok _ w₁ =>
        rw [bind_ok hrun] at himport ⊢
        rw [chunks_succ hend himport, remarks, Workspace.record_nil]
        rfl
    | error fault w₁ =>
        rw [bind_error hrun] at himport ⊢
        simp only [chunks, hend, Bool.false_eq_true, if_false]
        exact bind_error himport

end Build

namespace Loader

/-- The size of a loader bounds the paths that an import can find a text under. -/
def Bounded (l : Loader) : Prop :=
  ∃ paths : List Bytes, paths.length ≤ l.size ∧
    ∀ path text, Path.Canonical path → l.read path = .ok text → path ∈ paths

theorem ofFiles_bounded (files : List (Bytes × Bytes)) : (ofFiles files).Bounded := by
  refine ⟨[] :: files.map (·.1), by simp [ofFiles], fun path text hpath hread => ?_⟩
  rcases hpath with rfl | hclean
  · exact List.mem_cons_self
  · simp only [ofFiles, hclean] at hread
    cases hl : files.lookup path with
    | none => simp [hl] at hread
    | some found =>
        obtain ⟨before, after, rfl, -⟩ := List.lookup_eq_some_iff.1 hl
        simp

def fetch (l : Loader) (path : Bytes) (here : Location) : Build (Option Source) := do
  if (← get).registry.isImported path then return none
  modify (·.visit path)
  match l.read path with
  | .error e =>
    Build.note here (.unreadable path (.file e)) true
    return none
  | .ok text => return some ⟨path, text⟩

def turn (l : Loader) (resolver : Resolver) (src : Source) (c : Cursor) : Build (Cursor × Option Source) := do
  let (d, asked) ← Build.round resolver src c
  match asked with
  | none => return (d, none)
  | some (path, here) => return (d, ← l.fetch path here)

section Steps

variable {l : Loader} {resolver : Resolver} {src : Source} {c d : Cursor} {path text : Bytes} {here : Location}
  {w w' : Workspace}

theorem fetch_known (hi : w.registry.isImported path = true) : l.fetch path here w = .ok none w := by
  simp only [fetch, get_bind, hi, if_true]
  rfl

theorem fetch_open (hi : w.registry.isImported path = false) (hl : l.read path = .ok text) :
    l.fetch path here w = .ok (some ⟨path, text⟩) (w.visit path) := by
  simp only [fetch, get_bind, hi, Bool.false_eq_true, if_false, modify_bind, hl]
  rfl

theorem turn_of_round (h : Build.round resolver src c w = .ok (d, none) w') :
    l.turn resolver src c w = .ok (d, none) w' := by
  simp only [turn, bind_ok h]
  rfl

theorem turn_of_fetch {file : Option Source} (h : Build.round resolver src c w = .ok (d, some (path, here)) w)
    (hf : l.fetch path here w = .ok file w') : l.turn resolver src c w = .ok (d, file) w' := by
  simp only [turn, bind_ok h, bind_ok hf]
  rfl

end Steps

theorem fetch_cases (l : Loader) (resolver : Resolver) (path : Bytes) (here : Location) (w : Workspace) :
    (∃ paths w', l.fetch path here w = .ok none w' ∧ w.Visits paths w' ∧
      ∀ depth, importer (some l) resolver depth path here w = .ok () w') ∨
    ∃ text, l.fetch path here w = .ok (some ⟨path, text⟩) (w.visit path) ∧ w.registry.isImported path = false ∧
      l.read path = .ok text ∧ ∀ depth, importer (some l) resolver (depth + 1) path here w =
        Build.source resolver (some (importer (some l) resolver depth)) ⟨path, text⟩ (w.visit path) := by
  cases hi : w.registry.isImported path with
  | true =>
      refine .inl ⟨[], w, fetch_known hi, w.visits_nil, fun depth => ?_⟩
      unfold importer
      simp only [get_bind, hi, if_true]
      rfl
  | false =>
      cases hl : l.read path with
      | error e =>
          refine .inl ⟨[path], _, ?_, (Workspace.visits_visit hi).record
            [{ location := here, problem := .unreadable path (.file e), fatal := true }], fun depth => ?_⟩
          · simp only [fetch, get_bind, hi, Bool.false_eq_true, if_false, modify_bind, hl]
            rfl
          · unfold importer
            simp only [get_bind, hi, Bool.false_eq_true, if_false, modify_bind, hl]
            rfl
      | ok text =>
          refine .inr ⟨text, fetch_open hi hl, rfl, rfl, fun depth => ?_⟩
          rw [importer]
          simp only [get_bind, hi, Bool.false_eq_true, if_false, modify_bind, hl]
          rfl

open Build in
theorem turn_cases (l : Loader) (resolver : Resolver) {src : Source} {c : Cursor} {w : Workspace}
    (hlen : c.rest.length ≤ src.text.length) (hend : c.skipBlanks.atEnd = false) (hw : w.requests = []) :
    ∃ d, c.Reaches d ∧ d.rest.length < c.rest.length ∧
      ((∃ paths w', l.turn resolver src c w = .ok (d, none) w' ∧ w.Visits paths w' ∧
        ∀ depth n, chunks resolver (some (importer (some l) resolver depth)) src (n + 1) c w =
          chunks resolver (some (importer (some l) resolver depth)) src n d w') ∨
      ∃ path text, l.turn resolver src c w = .ok (d, some ⟨path, text⟩) (w.visit path) ∧
        w.registry.isImported path = false ∧ Path.Canonical path ∧ l.read path = .ok text ∧
        ∀ depth n, chunks resolver (some (importer (some l) resolver (depth + 1))) src (n + 1) c w =
          (source resolver (some (importer (some l) resolver depth)) ⟨path, text⟩ >>= fun _ =>
            chunks resolver (some (importer (some l) resolver (depth + 1))) src n d) (w.visit path)) := by
  rcases round_cases resolver hlen hend hw with
    ⟨d, w₁, hround, hvisits, hreach, hlt, hloop⟩ | ⟨d, path, here, hround, hpath, hreach, hlt, hloop⟩
  · exact ⟨d, hreach, hlt, .inl ⟨[], w₁, turn_of_round hround, hvisits, fun depth n => hloop _ n⟩⟩
  · refine ⟨d, hreach, hlt, ?_⟩
    rcases fetch_cases l resolver path here w with ⟨paths, w₁, hfetch, hvisits, himport⟩ | ⟨text, hfetch, hi, hl, himport⟩
    · refine .inl ⟨paths, w₁, turn_of_fetch hround hfetch, hvisits, fun depth n => ?_⟩
      rw [hloop, bind_ok (himport depth)]
    · refine .inr ⟨path, text, turn_of_fetch hround hfetch, hi, hpath, hl, fun depth n => ?_⟩
      rw [hloop]
      simp only [bind, EStateM.bind, himport]

end Loader

def Workspace.unmarked (w : Workspace) (paths : List Bytes) : Nat :=
  (paths.filter fun path => !w.registry.isImported path).length

theorem Workspace.Visits.unmarked_le {w w' : Workspace} {visited : List Bytes} (h : w.Visits visited w')
    (paths : List Bytes) : w'.unmarked paths ≤ w.unmarked paths := by
  simp only [unmarked, ← List.countP_eq_length_filter]
  apply List.countP_mono_left
  intro path _ hnew
  rw [Bool.not_eq_true', Bool.eq_false_iff] at hnew ⊢
  exact fun hold => hnew ((h.imported path).2 (.inl hold))

theorem Workspace.unmarked_visit_lt {w : Workspace} {paths : List Bytes} {path : Bytes} (hmem : path ∈ paths)
    (hi : w.registry.isImported path = false) : (w.visit path).unmarked paths < w.unmarked paths := by
  have hvisits := visits_visit hi
  have hsub : paths.filter (fun other => !(w.visit path).registry.isImported other) =
      (paths.filter fun other => !w.registry.isImported other).filter
        fun other => !(w.visit path).registry.isImported other := by
    rw [List.filter_filter]
    refine List.filter_congr fun other _ => ?_
    cases hold : w.registry.isImported other with
    | false => simp
    | true => simp [(hvisits.imported other).2 (.inl hold)]
  rw [unmarked, unmarked, hsub, List.length_filter_lt_length_iff_exists]
  exact ⟨path, List.mem_filter.2 ⟨hmem, by simp [hi]⟩, by simp [(hvisits.imported path).2 (.inr List.mem_cons_self)]⟩

structure Frame where
  source : Source
  cursor : Cursor

/-- The sources that are being read, the innermost first, and the paths of all that were begun. -/
structure Reader where
  frames : List Frame
  workspace : Workspace
  opened : List Bytes

namespace Reader

def step (l : Loader) (resolver : Resolver) (r : Reader) : Reader := match r.frames with
  | [] => r
  | ⟨src, c⟩ :: frames =>
    if c.skipBlanks.atEnd then { r with frames }
    else match l.turn resolver src c r.workspace with
      | .error _ workspace => { r with frames := [], workspace }
      | .ok (d, none) workspace => { r with frames := ⟨src, d⟩ :: frames, workspace }
      | .ok (d, some file) workspace =>
        { frames := ⟨file, file.start⟩ :: ⟨src, d⟩ :: frames, workspace, opened := r.opened ++ [file.path] }

def start (name text : Bytes) : Reader where
  frames := [⟨⟨Session.mainPath name, text⟩, Source.start ⟨Session.mainPath name, text⟩⟩]
  workspace := Session.entering {} (Session.mainPath name)
  opened := if (Session.mainPath name).isEmpty then [] else [Session.mainPath name]

section Steps

variable {l : Loader} (resolver : Resolver)

open Build in
/-- Where no more paths are unmarked than imports may be nested, the loop with its bounds and the stack without them
read the same. The induction is on the nesting of imports, and for one source on the rounds. -/
theorem steps_of_chunks {paths : List Bytes}
    (hpaths : ∀ path text, Path.Canonical path → l.read path = .ok text → path ∈ paths) (depth n : Nat) (src : Source)
    (c : Cursor) (w : Workspace) (frames : List Frame) (opened : List Bytes) (hw : w.requests = [])
    (hn : c.rest.length < n) (hlen : c.rest.length ≤ src.text.length) (hdepth : w.unmarked paths ≤ depth) :
    ∃ k w' visited more, chunks resolver (some (Loader.importer (some l) resolver depth)) src n c w = .ok () w' ∧
      (step l resolver)^[k] ⟨⟨src, c⟩ :: frames, w, opened⟩ = ⟨frames, w', opened ++ more⟩ ∧ w.Visits visited w' ∧
      List.Sublist more visited := by
  induction depth using Nat.strongRecOn generalizing n src c w frames opened with
  | ind depth ihdepth =>
  induction n generalizing c w opened with
  | zero => exact absurd hn (Nat.not_lt_zero _)
  | succ n ih =>
      by_cases hend : c.skipBlanks.atEnd = true
      · refine ⟨1, w, [], [], ?_, ?_, w.visits_nil, List.nil_sublist _⟩
        · rw [chunks, if_pos hend]
          rfl
        · simp only [Function.iterate_one, step, hend, if_true, List.append_nil]
      rw [Bool.not_eq_true] at hend
      obtain ⟨d, hreach, hlt, hturn⟩ := l.turn_cases resolver hlen hend hw
      rcases hturn with ⟨visited, w₁, hrun, hvisits, hloop⟩ | ⟨path, text, hrun, hi, hpath, hl, hloop⟩
      · obtain ⟨k, w', visited', more, hchunks, hsteps, hvisits', hsub⟩ := ih d w₁ opened (hvisits.requests.trans hw)
          (by omega) (by omega) (Nat.le_trans (hvisits.unmarked_le paths) hdepth)
        refine ⟨k + 1, w', visited ++ visited', more, ?_, ?_, hvisits.trans hvisits', ?_⟩
        · rw [hloop, hchunks]
        · rw [Function.iterate_succ_apply, ← hsteps]
          simp only [step, hend, Bool.false_eq_true, if_false, hrun]
        · exact hsub.trans (List.sublist_append_right _ _)
      · -- the path is marked now, so that the imports of the file are bounded by one less
        have hless := Workspace.unmarked_visit_lt (hpaths path text hpath hl) hi
        obtain ⟨depth, rfl⟩ : ∃ less, depth = less + 1 := ⟨depth - 1, by omega⟩
        have hopen := Workspace.visits_visit hi
        obtain ⟨k, w₁, visited, more, hfile, hsteps, hvisits, hsub⟩ := ihdepth depth (Nat.lt_succ_self _)
          (text.length + 1) ⟨path, text⟩ (Source.start ⟨path, text⟩) (w.visit path) (⟨src, d⟩ :: frames)
          (opened ++ [path]) hw (Nat.lt_succ_self _) (Nat.le_refl _) (by omega)
        have hmarked := hopen.trans hvisits
        obtain ⟨k', w', visited', more', hchunks, hsteps', hvisits', hsub'⟩ := ih d w₁ (opened ++ [path] ++ more)
          (hmarked.requests.trans hw) (by omega) (by omega) (Nat.le_trans (hmarked.unmarked_le paths) hdepth)
        refine ⟨k' + k + 1, w', [path] ++ visited ++ visited', [path] ++ more ++ more', ?_, ?_, hmarked.trans hvisits', ?_⟩
        · rw [hloop, source, bind_ok hfile, hchunks]
        · rw [Function.iterate_succ_apply, Function.iterate_add_apply]
          simp only [step, hend, Bool.false_eq_true, if_false, hrun]
          rw [hsteps, hsteps', List.append_assoc, List.append_assoc, List.append_assoc]
        · exact ((List.Sublist.refl [path]).append hsub).append hsub'

end Steps

structure Valid (r : Reader) : Prop where
  requests : r.workspace.requests = []
  cursors : ∀ f ∈ r.frames, f.source.start.Reaches f.cursor

theorem isImported_start {name text path : Bytes} (h : path ∈ (start name text).opened) :
    (start name text).workspace.registry.isImported path = true := by
  simp only [start] at h
  split at h
  · exact nomatch h
  · rename_i hne
    rw [List.mem_singleton.1 h]
    rcases Session.isImported_entering {} (Session.mainPath name) with hnil | hmarked
    · exact absurd (List.isEmpty_iff.2 hnil) hne
    · exact hmarked

theorem valid_start (name text : Bytes) : (start name text).Valid := by
  refine ⟨?_, List.forall_mem_singleton.2 (.refl _)⟩
  simp only [start, Session.entering]
  split <;> rfl

variable (l : Loader) (resolver : Resolver)

/-- A step that does not leave its source reads at least one byte of it, also where the chunk is not well formed. -/
theorem Valid.step_cases {r : Reader} (h : r.Valid) {src : Source} {c : Cursor} {frames : List Frame}
    (hr : r.frames = ⟨src, c⟩ :: frames) (hend : c.skipBlanks.atEnd = false) :
    ∃ files d w' visited, (step l resolver r).frames = files ++ ⟨src, d⟩ :: frames ∧
      (∀ f ∈ files, f.cursor = f.source.start) ∧ c.Reaches d ∧ d.rest.length < c.rest.length ∧
      (step l resolver r).workspace = w' ∧ r.workspace.Visits visited w' := by
  have hlen := (h.cursors ⟨src, c⟩ (by simp [hr])).length_le
  obtain ⟨d, hreach, hlt, hturn⟩ := l.turn_cases resolver hlen hend h.requests
  rcases hturn with ⟨visited, w', hrun, hvisits, -⟩ | ⟨path, text, hrun, hi, -⟩
  · refine ⟨[], d, w', visited, ?_, nofun, hreach, hlt, ?_, hvisits⟩ <;>
      simp only [step, hr, hend, Bool.false_eq_true, if_false, hrun, List.nil_append]
  · refine ⟨[⟨⟨path, text⟩, Source.start ⟨path, text⟩⟩], d, r.workspace.visit path, [path], ?_,
      List.forall_mem_singleton.2 rfl, hreach, hlt, ?_, Workspace.visits_visit hi⟩ <;>
      simp only [step, hr, hend, Bool.false_eq_true, if_false, hrun, List.cons_append, List.nil_append]

theorem Valid.step {r : Reader} (h : r.Valid) : (step l resolver r).Valid := by
  cases hr : r.frames with
  | nil =>
      have hstay : Reader.step l resolver r = r := by simp only [Reader.step, hr]
      rwa [hstay]
  | cons f frames =>
      obtain ⟨src, c⟩ := f
      have hcursors := h.cursors
      rw [hr, List.forall_mem_cons] at hcursors
      by_cases hend : c.skipBlanks.atEnd = true
      · have hleave : Reader.step l resolver r = { r with frames } := by simp only [Reader.step, hr, hend, if_true]
        rw [hleave]
        exact ⟨h.requests, hcursors.2⟩
      · rw [Bool.not_eq_true] at hend
        obtain ⟨files, d, w', visited, hframes, hfiles, hreach, -, rfl, hvisits⟩ :=
          h.step_cases l resolver hr hend
        refine ⟨hvisits.requests.trans h.requests, ?_⟩
        rw [hframes]
        intro f hf
        rcases List.mem_append.1 hf with hf | hf
        · rw [hfiles f hf]
          exact .refl _
        · rcases List.mem_cons.1 hf with rfl | hf
          · exact hcursors.1.trans hreach
          · exact hcursors.2 f hf

theorem Valid.steps {r : Reader} (h : r.Valid) (k : Nat) : ((Reader.step l resolver)^[k] r).Valid := by
  induction k generalizing r with
  | zero => exact h
  | succ k ih => exact ih (h.step l resolver)

end Reader

namespace Session

/-- Parsing a main source comes to an end: the stack of sources that are read, one chunk at a time and without any
bound, becomes empty, and parsing is decided by what it leaves. No path is handed to the loader twice and no source is
begun twice, the main one included. Every step that does not leave its source reads at least one byte of it, and within
a step the bounds on nesting and on the search for the next keyword are never reached. -/
theorem parse_terminates {l : Loader} (hl : l.Bounded) (resolver : Resolver) (entry : Bytes) (seed : Int) (follow : Bool)
    (name text : Bytes) :
    let s := make (some l) resolver entry seed follow
    let run := fun k => (Reader.step l resolver)^[k] (Reader.start name text)
    (∃ n more, (run n).frames = [] ∧ parse name text s = outcome s (run n).workspace ∧
      (run n).workspace.reads.Nodup ∧ (run n).opened = (Reader.start name text).opened ++ more ∧
      List.Sublist more (run n).workspace.reads ∧ (run n).opened.Nodup ∧
      (name ≠ [] → mainPath name ∉ (run n).workspace.reads)) ∧
    (∀ k src c frames, (run k).frames = ⟨src, c⟩ :: frames → c.skipBlanks.atEnd = false →
      ∃ files d, (run (k + 1)).frames = files ++ ⟨src, d⟩ :: frames ∧ (∀ f ∈ files, f.cursor = f.source.start) ∧
        c.Reaches d ∧ d.rest.length < c.rest.length) ∧
    ∀ (src : Source) (r : Reading) (n : Nat), r.cursor.rest.length ≤ src.text.length → src.text.length < n →
      (∀ registry scope, Parser.expr src registry n scope r = Parser.expr src registry (src.text.length + 1) scope r) ∧
      Parser.params src n r = Parser.params src (src.text.length + 1) r ∧
      Build.resync n r.cursor = Build.resync (src.text.length + 1) r.cursor := by
  intro s run
  refine ⟨?_, ?_, ?_⟩
  · obtain ⟨paths, hsize, hpaths⟩ := hl
    have hunmarked : (Reader.start name text).workspace.unmarked paths ≤ l.size :=
      Nat.le_trans (List.length_filter_le _ _) hsize
    obtain ⟨n, w, visited, more, hchunks, hsteps, hvisits, hsub⟩ := Reader.steps_of_chunks resolver hpaths l.size
      (text.length + 1) ⟨mainPath name, text⟩ (Source.start ⟨mainPath name, text⟩) (Reader.start name text).workspace []
      (Reader.start name text).opened (Reader.valid_start name text).requests (Nat.lt_succ_self _) (Nat.le_refl _)
      hunmarked
    have hrun : run n = ⟨[], w, (Reader.start name text).opened ++ more⟩ := hsteps
    have hreads : w.reads = visited := by
      rw [hvisits.reads]
      simp only [Reader.start, entering]
      split <;> rfl
    have hmain : ∀ path ∈ (Reader.start name text).opened, path ∉ visited := by
      intro path hpath hmem
      exact Bool.eq_false_iff.1 (hvisits.fresh path hmem) (Reader.isImported_start hpath)
    refine ⟨n, more, ?_⟩
    rw [hrun, hreads]
    refine ⟨rfl, ?_, hvisits.nodup, rfl, hsub, ?_, fun hname => hmain _ ?_⟩
    · have hread : readSource s ⟨mainPath name, text⟩ s.workspace = .ok () w :=
        (readSource_eq s ⟨mainPath name, text⟩ s.workspace).trans hchunks
      rw [parse, get_bind, bind_ok (building_ok hread)]
      exact outcome_eq s w
    · refine List.nodup_append.2 ⟨?_, hvisits.nodup.sublist hsub, ?_⟩
      · simp only [Reader.start]
        split
        · exact List.nodup_nil
        · exact List.nodup_singleton _
      · rintro path hpath _ hmore rfl
        exact hmain path hpath (hsub.subset hmore)
    · have hclean : (Path.clean name).isEmpty = false := by simpa using Path.clean_ne_nil name
      simp [Reader.start, mainPath, hname, hclean]
  · intro k src c frames hframes hend
    obtain ⟨files, d, -, -, hnext, hfiles, hreach, hlt, -⟩ :=
      ((Reader.valid_start name text).steps l resolver k).step_cases l resolver hframes hend
    refine ⟨files, d, ?_, hfiles, hreach, hlt⟩
    show ((Reader.step l resolver)^[k + 1] (Reader.start name text)).frames = _
    rw [Function.iterate_succ_apply', hnext]
  · intro src r n hlen hn
    exact ⟨fun registry scope => Parser.expr_congr src registry scope (by omega) (by omega),
      Parser.params_congr src (by omega) (by omega), Build.resync_congr (by omega) (by omega)⟩

/-- Two files that import each other and themselves, one of them malformed. -/
theorem parse_terminates_cycle :
    let l := Loader.ofFiles [(utf8 "b", utf8 "import \"a\" ( import \"b\" function f => 1")]
    let run := fun k => (Reader.step l (Resolver.make [] []))^[k]
      (Reader.start (utf8 "./a") (utf8 "import \"a\" import \"b\" function g => f"))
    l.Bounded ∧ ∃ n, (run n).frames = [] ∧ (run n).workspace.reads.Nodup ∧ (run n).opened.Nodup ∧
      utf8 "a" ∉ (run n).workspace.reads := by
  intro l run
  have hl : l.Bounded := Loader.ofFiles_bounded _
  obtain ⟨⟨n, more, hframes, -, hreads, -, -, hopened, hmain⟩, -⟩ := parse_terminates hl (Resolver.make [] []) [] 1 false
    (utf8 "./a") (utf8 "import \"a\" import \"b\" function g => f")
  have hname : mainPath (utf8 "./a") = utf8 "a" := by decide +kernel
  exact ⟨hl, n, hframes, hreads, hopened, hname ▸ hmain (by decide)⟩

end Session

end Polish
