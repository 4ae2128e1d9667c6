import Polish.Session
import Polish.Proofs.Grammar.Sound

namespace Polish

def Function.awaiting (name : Bytes) (params : List Param) (location : Location) : Function :=
  { name, params, kind := .pending, location }

def Function.custom (name : Bytes) (params : List Param) (location : Location) (body : Expr) : Function :=
  { name, params, kind := .custom, body, location }

namespace Workspace

def record (w : Workspace) (notes : List Diagnostic) : Workspace :=
  { w with report := ⟨w.report.entries ++ notes⟩ }

theorem record_record (w : Workspace) (notes notes' : List Diagnostic) :
    (w.record notes).record notes' = w.record (notes ++ notes') := by
  simp [record]

theorem record_nil (w : Workspace) : w.record [] = w := by simp [record]

def withRegistry (w : Workspace) (registry : Registry) : Workspace := { w with registry }

def visit (w : Workspace) (path : Bytes) : Workspace :=
  { w with registry := w.registry.markImported path, reads := w.reads ++ [path] }

end Workspace

def Stop.problems (src : Source) : Stop → List Diagnostic
  | .malformed off why => [{ location := src.locate off, problem := .malformed why }]
  | .reported => []

/-- No chunk stops without a report. -/
theorem Stop.append_problems_ne_nil (src : Source) (s : Stop) {notes : List Diagnostic}
    (h : s = .reported → notes ≠ []) : notes ++ s.problems src ≠ [] := by
  cases s with
  | malformed off why => simp [problems]
  | reported => simpa [problems] using h

namespace Grammar

inductive Signature (src : Source) : Cursor → Bytes → Location → List Param → Cursor → Prop
  | mk {c d e f name params} (ht : c.token = (name, d)) (hn : name ≠ []) (ha : name ≠ arrow)
      (hp : Params d.skipBlanks params e) (harrow : e.TakesArrow f) :
      Signature src c name (src.locate d.skipBlanks.off) params f

theorem Signature.reaches {src : Source} {c d : Cursor} {name : Bytes} {location : Location} {params : List Param}
    (h : Signature src c name location params d) : c.Reaches d := by
  obtain ⟨ht, hn, -, hp, harrow⟩ := h
  exact (Cursor.length_token_lt ht hn).1.trans
    ((Cursor.reaches_skipBlanks _).trans (hp.reaches.1.trans harrow.reaches.1))

end Grammar

open Grammar

def Registry.duplicates (r : Registry) (name : Bytes) (here : Location) : List Diagnostic :=
  if (r.lookup name).isSome then [{ location := here, problem := .duplicate name }] else []

/-- Reading a source from a position to its end. Imports are nested at most so deep, and their texts are given
by `read`; without it imports are not supported. -/
inductive Runs (resolver : Resolver) (read : Option (Bytes → Except FileError Bytes)) :
    Nat → Source → Cursor → Workspace → Workspace → Prop
  | done {depth src c w} (h : c.skipBlanks.atEnd) : Runs resolver read depth src c w w
  | declared {depth src c d e g name location params body notes w w'} (hk : c.token = (utf8 "function", d))
      (hs : Signature src d name location params e)
      (hb : Exprs src (w.registry.declare (.awaiting name params location))
        (Parser.Bindings.bind [] params (src.locate e.off)) e [body] notes g)
      (rest : Runs resolver read depth src g
        ((w.withRegistry (w.registry.declare (.custom name params location body))).record
          (w.registry.duplicates name (src.locate e.off) ++ notes)) w') :
      Runs resolver read depth src c w w'
  | dropped {depth src c d e g name location params notes w w'} (hk : c.token = (utf8 "function", d))
      (hs : Signature src d name location params e) (he : e.Reaches g) (hn : notes ≠ [])
      (rest : Runs resolver read depth src g
        ((w.withRegistry ((w.registry.declare (.awaiting name params location)).remove name
          w.registry.functions.size)).record notes) w') :
      Runs resolver read depth src c w w'
  | refused {depth src c d notes w w'} (he : c.Reaches d) (hlt : d.rest.length < c.rest.length) (hn : notes ≠ [])
      (rest : Runs resolver read depth src d (w.record notes) w') : Runs resolver read depth src c w w'
  | known {depth src c d e target path w w'} (hr : read.isSome) (hk : c.token = (utf8 "import", d))
      (hq : d.skipBlanks.Quoted target e) (hp : resolver.resolve src.path target = .ok path)
      (hi : w.registry.isImported path = true) (rest : Runs resolver read depth src e w w') :
      Runs resolver read depth src c w w'
  | unreadable {depth src c d e target path load error w w'} (hr : read = some load)
      (hk : c.token = (utf8 "import", d)) (hq : d.skipBlanks.Quoted target e)
      (hp : resolver.resolve src.path target = .ok path) (hi : w.registry.isImported path = false)
      (hl : load path = .error error)
      (rest : Runs resolver read depth src e ((w.visit path).record
        [{ location := src.locate d.skipBlanks.off, problem := .unreadable path (.file error), fatal := true }]) w') :
      Runs resolver read depth src c w w'
  | included {depth src c d e target path load text w w' w''} (hr : read = some load)
      (hk : c.token = (utf8 "import", d)) (hq : d.skipBlanks.Quoted target e)
      (hp : resolver.resolve src.path target = .ok path) (hi : w.registry.isImported path = false)
      (hl : load path = .ok text) (file : Runs resolver read depth ⟨path, text⟩ (Source.start ⟨path, text⟩) (w.visit path) w')
      (rest : Runs resolver read (depth + 1) src e w' w'') : Runs resolver read (depth + 1) src c w w''
  | unread {src c d e target path load text w w'} (hr : read = some load) (hk : c.token = (utf8 "import", d))
      (hq : d.skipBlanks.Quoted target e) (hp : resolver.resolve src.path target = .ok path)
      (hi : w.registry.isImported path = false) (hl : load path = .ok text)
      (rest : Runs resolver read 0 src e (w.visit path) w') : Runs resolver read 0 src c w w'

inductive CleanRuns (resolver : Resolver) (read : Option (Bytes → Except FileError Bytes)) :
    Nat → Source → Cursor → Workspace → Workspace → Prop
  | done {depth src c w} (h : c.skipBlanks.atEnd) : CleanRuns resolver read depth src c w w
  | declared {depth src c d e g name location params body w w'} (hk : c.token = (utf8 "function", d))
      (hs : Signature src d name location params e) (hnew : w.registry.lookup name = none)
      (hb : Exprs src (w.registry.declare (.awaiting name params location))
        (Parser.Bindings.bind [] params (src.locate e.off)) e [body] [] g)
      (rest : CleanRuns resolver read depth src g
        (w.withRegistry (w.registry.declare (.custom name params location body))) w') :
      CleanRuns resolver read depth src c w w'
  | known {depth src c d e target path w w'} (hr : read.isSome) (hk : c.token = (utf8 "import", d))
      (hq : d.skipBlanks.Quoted target e) (hp : resolver.resolve src.path target = .ok path)
      (hi : w.registry.isImported path = true) (rest : CleanRuns resolver read depth src e w w') :
      CleanRuns resolver read depth src c w w'
  | included {depth src c d e target path load text w w' w''} (hr : read = some load)
      (hk : c.token = (utf8 "import", d)) (hq : d.skipBlanks.Quoted target e)
      (hp : resolver.resolve src.path target = .ok path) (hi : w.registry.isImported path = false)
      (hl : load path = .ok text)
      (file : CleanRuns resolver read depth ⟨path, text⟩ (Source.start ⟨path, text⟩) (w.visit path) w')
      (rest : CleanRuns resolver read (depth + 1) src e w' w'') : CleanRuns resolver read (depth + 1) src c w w''
  | unread {src c d e target path load text w w'} (hr : read = some load) (hk : c.token = (utf8 "import", d))
      (hq : d.skipBlanks.Quoted target e) (hp : resolver.resolve src.path target = .ok path)
      (hi : w.registry.isImported path = false) (hl : load path = .ok text)
      (rest : CleanRuns resolver read 0 src e (w.visit path) w') : CleanRuns resolver read 0 src c w w'

namespace Runs

variable {resolver : Resolver} {read : Option (Bytes → Except FileError Bytes)} {depth : Nat} {src : Source}
  {c : Cursor} {w w' : Workspace}

theorem entries_isPrefix (h : Runs resolver read depth src c w w') :
    w.report.entries <+: w'.report.entries := by
  induction h with
  | done => exact List.prefix_rfl
  | declared _ _ _ _ ih | dropped _ _ _ _ _ ih | refused _ _ _ _ ih | unreadable _ _ _ _ _ _ _ ih =>
      exact (List.prefix_append _ _).trans ih
  | known _ _ _ _ _ _ ih | unread _ _ _ _ _ _ _ ih => exact ih
  | included _ _ _ _ _ _ _ _ ih1 ih2 => exact ih1.trans ih2

theorem notes_eq_nil {notes : List Diagnostic} (h : Runs resolver read depth src c (w.record notes) w')
    (hsame : w'.report.entries = w.report.entries) : notes = [] := by
  have hle := h.entries_isPrefix.length_le
  rw [hsame, Workspace.record, List.length_append] at hle
  exact List.length_eq_zero_iff.1 (by omega)

theorem clean_of_same (h : Runs resolver read depth src c w w') (hsame : w'.report.entries = w.report.entries) :
    CleanRuns resolver read depth src c w w' := by
  induction h with
  | done h => exact .done h
  | @declared _ _ _ _ _ _ name _ _ _ _ w _ hk hs hb rest ih =>
      have hn := rest.notes_eq_nil hsame
      obtain ⟨hdup, rfl⟩ := List.append_eq_nil_iff.1 hn
      have hnew : w.registry.lookup name = none := by
        unfold Registry.duplicates at hdup
        split at hdup
        · exact nomatch hdup
        · simpa using ‹¬ (w.registry.lookup name).isSome = true›
      rw [hn, Workspace.record_nil] at ih
      exact .declared hk hs hnew hb (ih hsame)
  | dropped hk hs he hn rest ih => exact absurd (rest.notes_eq_nil hsame) hn
  | refused he hlt hn rest ih => exact absurd (rest.notes_eq_nil hsame) hn
  | known hr hk hq hp hi rest ih => exact .known hr hk hq hp hi (ih hsame)
  | unreadable hr hk hq hp hi hl rest ih => exact nomatch rest.notes_eq_nil hsame
  | included hr hk hq hp hi hl file rest ih1 ih2 =>
      have hfile := rest.entries_isPrefix
      rw [hsame] at hfile
      have hmiddle := hfile.eq_of_length_le file.entries_isPrefix.length_le
      exact .included hr hk hq hp hi hl (ih1 hmiddle) (ih2 (hsame.trans hmiddle.symm))
  | unread hr hk hq hp hi hl rest ih => exact .unread hr hk hq hp hi hl (ih hsame)

theorem clean (h : Runs resolver read depth src c w w') (hclean : w'.report.entries = []) :
    CleanRuns resolver read depth src c w w' := by
  have hstart := h.entries_isPrefix
  rw [hclean, List.prefix_nil] at hstart
  exact h.clean_of_same (hclean.trans hstart.symm)

end Runs

end Polish
