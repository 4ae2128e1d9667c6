import Polish.Proofs.Runs

namespace Polish

open Grammar
namespace Build

theorem signature_ensures (src : Source) (r : Reading) :
    (signature src).Ensures r
      (fun s r' => r'.report = r.report ∧ Signature src r.cursor s.1 s.2.1 s.2.2 r'.cursor)
      (r.Stops (src.text.length + 1)) := by
  simp only [signature, Parser.ensures_skipBlanks_bind, Parser.ensures_token_bind, Cursor.token_skipBlanks]
  have htok : r.cursor.token = (r.cursor.token.1, r.cursor.token.2) := rfl
  have he : r.Extends ⟨r.cursor.token.2, r.report⟩ :=
    Reading.extends_of_reaches r.report (r.cursor.reaches_skipBlanks.trans r.cursor.reaches_token)
  split
  · exact he.stops_malformed
  · rename_i hname
    simp only [Bool.or_eq_true, List.isEmpty_iff, beq_iff_eq, not_or] at hname
    have he' : r.Extends ⟨r.cursor.token.2.skipBlanks, r.report⟩ :=
      he.trans (Reading.extends_of_reaches r.report (Cursor.reaches_skipBlanks _))
    simp only [Parser.ensures_skipBlanks_bind]
    rw [Parser.ensures_bind]
    refine (Parser.params_ensures src _ _).mono ?_ (fun s r' h =>
      .of_extends he' (Nat.lt_of_le_of_lt he'.cursor.length_le) h)
    rintro ps r' ⟨hrep, d, hps, ha⟩
    exact ⟨hrep, .mk htok hname.1 hname.2 hps ha⟩

theorem complete_declare (r : Registry) (name : Bytes) (params : List Param) (location : Location) (body : Expr) :
    (r.declare (.awaiting name params location)).functions.complete r.functions.size body =
      .ok (r.declare (.custom name params location body)).functions := by
  simp [Functions.complete, Registry.declare, Registry.insert, Registry.bind, Function.awaiting, Function.custom,
    Array.setIfInBounds, Array.set_push]

theorem parsing_ok {α : Type} {p : Parser α} {c : Cursor} {w : Workspace} {a : α} {r : Reading}
    (h : p ⟨c, w.report⟩ = .ok a r) : parsing p c w = .ok (.ok a, r.cursor) { w with report := r.report } := by
  simp only [parsing, h]

theorem parsing_error {α : Type} {p : Parser α} {c : Cursor} {w : Workspace} {stop : Stop} {r : Reading}
    (h : p ⟨c, w.report⟩ = .error stop r) :
    parsing p c w = .ok (.error stop, r.cursor) { w with report := r.report } := by
  simp only [parsing, h]

/-- The body is read in the registry that has the function already; then the function is completed or
removed. -/
theorem body_eq (src : Source) (name : Bytes) (location : Location) (params : List Param) (c : Cursor)
    (before : Registry) (w : Workspace) (hw : w.registry = before.declare (.awaiting name params location)) :
    body src name params before.functions.size c w =
      match Parser.expr src w.registry (src.text.length + 1) (Parser.Bindings.bind [] params (src.locate c.off))
        ⟨c, w.report⟩ with
      | .error stop r => .ok (some stop, r.cursor) { w with
          registry := (before.declare (.awaiting name params location)).remove name before.functions.size
          report := r.report }
      | .ok x r => .ok (none, r.cursor) { w with
          registry := before.declare (.custom name params location x)
          report := r.report } := by
  simp only [body, get_bind]
  cases hx : Parser.expr src w.registry (src.text.length + 1) (Parser.Bindings.bind [] params (src.locate c.off))
    ⟨c, w.report⟩ with
  | error stop r =>
      rw [bind_ok (parsing_error hx)]
      simp only [modify_bind, hw]
      rfl
  | ok x r =>
      rw [bind_ok (parsing_ok hx)]
      simp only [get_bind, hw, complete_declare]
      rfl

theorem definition_eq (src : Source) (name : Bytes) (location : Location) (params : List Param) (c : Cursor)
    (w : Workspace) :
    definition src name location params c w =
      body src name params w.registry.functions.size c
        ((w.withRegistry (w.registry.declare (.awaiting name params location))).record
          (w.registry.duplicates name (src.locate c.off))) := by
  simp only [definition, get_bind, modify_bind, Registry.duplicates]
  split
  · rfl
  · simp only [Workspace.record, List.append_nil]
    rfl

/-- What one chunk does. A chunk that stops is not reported yet, except by what it says itself. -/
inductive Chunk (resolver : Resolver) (importer : Option Importer) (src : Source) (c : Cursor) (w : Workspace) :
    Option Stop → Cursor → Workspace → Prop
  | declared {d e g name location params x notes} (hk : c.token = (utf8 "function", d))
      (hs : Signature src d name location params e)
      (hb : Exprs src (w.registry.declare (.awaiting name params location))
        (Parser.Bindings.bind [] params (src.locate e.off)) e [x] notes g) :
      Chunk resolver importer src c w none g
        ((w.withRegistry (w.registry.declare (.custom name params location x))).record
          (w.registry.duplicates name (src.locate e.off) ++ notes))
  | dropped {d e g name location params stop notes} (hk : c.token = (utf8 "function", d))
      (hs : Signature src d name location params e) (he : e.Reaches g) (hn : stop = .reported → notes ≠ []) :
      Chunk resolver importer src c w (some stop) g
        ((w.withRegistry ((w.registry.declare (.awaiting name params location)).remove name
          w.registry.functions.size)).record notes)
  | refused {d word e stop notes} (ht : c.token = (word, d)) (he : d.Reaches e) (hw : word = [] → e = d)
      (hn : stop = .reported → notes ≠ []) : Chunk resolver importer src c w (some stop) e (w.record notes)
  | noted {d e notes} (hk : c.token = (utf8 "import", d)) (he : d.Reaches e) (hn : notes ≠ []) :
      Chunk resolver importer src c w none e (w.record notes)
  | imported {d e target path run w'} (hr : importer = some run) (hk : c.token = (utf8 "import", d))
      (hq : d.skipBlanks.Quoted target e) (hp : resolver.resolve src.path target = .ok path)
      (hrun : run path (src.locate d.skipBlanks.off) w = .ok () w') :
      Chunk resolver importer src c w none e w'

theorem exists_notes {depth : Nat} {s : Stop} {r r' : Reading} (h : r.Stops depth s r')
    (hlt : r.cursor.rest.length < depth) :
    ∃ notes, r'.report = ⟨r.report.entries ++ notes⟩ ∧ (s = .reported → notes ≠ []) := by
  obtain ⟨notes, hnotes⟩ := h.1.report
  refine ⟨notes, by rw [hnotes], ?_⟩
  rintro hs rfl
  have := h.2 hlt hs
  rw [← hnotes] at this
  simp at this

variable {resolver : Resolver} {importer : Option Importer} {src : Source} {c d : Cursor} {w w' : Workspace}
  {stop : Option Stop}

variable (resolver importer w) in
theorem definition_chunk {e : Cursor} {name : Bytes} {location : Location} {params : List Param}
    (hk : c.token = (utf8 "function", d)) (hs : Signature src d name location params e)
    (hlen : e.rest.length ≤ src.text.length) :
    ∃ stop g w', definition src name location params e w = .ok (stop, g) w' ∧
      Chunk resolver importer src c w stop g w' := by
  rw [definition_eq, body_eq src name location params e w.registry _ rfl]
  have hexpr := Parser.expr_ensures src (w.registry.declare (.awaiting name params location))
    (src.text.length + 1) (Parser.Bindings.bind [] params (src.locate e.off))
    ⟨e, ⟨w.report.entries ++ w.registry.duplicates name (src.locate e.off)⟩⟩
  split
  · rename_i s r hx
    have hstop := hexpr.error hx
    obtain ⟨notes, hnotes, hne⟩ := exists_notes hstop (by simp only; omega)
    refine ⟨some s, r.cursor, _, rfl, ?_⟩
    rw [hnotes, List.append_assoc]
    exact .dropped hk hs hstop.1.cursor (fun h he => hne h (List.append_eq_nil_iff.1 he).2)
  · rename_i x r hx
    obtain ⟨notes, hnotes, hread⟩ := hexpr.ok hx
    have hrep : r.report = ⟨w.report.entries ++ (w.registry.duplicates name (src.locate e.off) ++ notes)⟩ := by
      rw [← List.append_assoc, ← hnotes]
    refine ⟨none, r.cursor, _, rfl, ?_⟩
    rw [hrep]
    exact .declared hk hs hread

variable (resolver importer w) in
theorem declaration_chunk (hk : c.token = (utf8 "function", d)) (hlen : d.rest.length ≤ src.text.length) :
    ∃ stop e w', declaration src d w = .ok (stop, e) w' ∧ Chunk resolver importer src c w stop e w' := by
  have hsig := signature_ensures src ⟨d, w.report⟩
  rw [declaration]
  cases hx : signature src ⟨d, w.report⟩ with
  | error s r =>
      have hstop := hsig.error hx
      obtain ⟨notes, hnotes, hne⟩ := exists_notes hstop (by simp only; omega)
      refine ⟨some s, r.cursor, w.record notes, ?_, .refused hk hstop.1.cursor ?_ hne⟩
      · rw [bind_ok (parsing_error hx), hnotes]
        rfl
      · exact fun h => absurd h (by decide)
  | ok sig r =>
      obtain ⟨name, location, params⟩ := sig
      obtain ⟨hrep, hs⟩ := hsig.ok hx
      have hle := hs.reaches.length_le
      rw [bind_ok (parsing_ok hx), hrep]
      exact definition_chunk resolver importer w hk hs (by simp only at hle; omega)

theorem importation_chunk (hk : c.token = (utf8 "import", d)) (hlen : d.rest.length ≤ src.text.length)
    {e : Cursor} (h : importation resolver importer src d w = .ok (stop, e) w') :
    Chunk resolver importer src c w stop e w' := by
  have hstring := Parser.string_ensures (src.text.length + 1) ⟨d.skipBlanks, w.report⟩
  have hle := d.reaches_skipBlanks.length_le
  simp only [importation] at h
  cases hx : Parser.string ⟨d.skipBlanks, w.report⟩ with
  | error s r =>
      have hstop := hstring.error hx
      obtain ⟨notes, hnotes, hne⟩ := exists_notes hstop (by simp only; omega)
      rw [bind_ok (parsing_error hx), hnotes] at h
      obtain ⟨h1, rfl⟩ := EStateM.Result.ok.inj h
      obtain ⟨rfl, rfl⟩ := Prod.mk.inj h1
      refine .refused hk (d.reaches_skipBlanks.trans hstop.1.cursor) ?_ hne
      exact fun h => absurd h (by decide)
  | ok target r =>
      obtain ⟨hrep, hq⟩ := hstring.ok hx
      rw [bind_ok (parsing_ok hx)] at h
      simp only [hrep] at h
      have hreach := d.reaches_skipBlanks.trans hq.reaches.1
      cases hp : resolver.resolve src.path target with
      | error problem =>
          simp only [hp, note, modify_bind] at h
          obtain ⟨h1, rfl⟩ := EStateM.Result.ok.inj h
          obtain ⟨rfl, rfl⟩ := Prod.mk.inj h1
          exact .noted hk hreach (by simp)
      | ok path =>
          cases hi : importer with
          | none =>
              simp only [hp, hi, note, modify_bind] at h
              obtain ⟨h1, rfl⟩ := EStateM.Result.ok.inj h
              obtain ⟨rfl, rfl⟩ := Prod.mk.inj h1
              exact .noted hk hreach (by simp)
          | some run =>
              simp only [hp, hi] at h
              obtain ⟨_, w₁, hrun, h1⟩ := bind_eq_ok.1 h
              obtain ⟨h2, rfl⟩ := EStateM.Result.ok.inj h1
              obtain ⟨rfl, rfl⟩ := Prod.mk.inj h2
              exact .imported rfl hk hq hp hrun

theorem chunk_runs (hlen : c.rest.length ≤ src.text.length) {e : Cursor}
    (h : chunk resolver importer src c w = .ok (stop, e) w') : Chunk resolver importer src c w stop e w' := by
  have htok : c.token = (c.token.1, c.token.2) := rfl
  have hle := (c.reaches_skipBlanks.trans c.reaches_token).length_le
  simp only [chunk] at h
  split at h
  · rename_i hw
    obtain ⟨_, _, _, h', hchunk⟩ := declaration_chunk resolver importer w (hw ▸ htok) (Nat.le_trans hle hlen)
    obtain ⟨h1, rfl⟩ := EStateM.Result.ok.inj (h.symm.trans h')
    obtain ⟨rfl, rfl⟩ := Prod.mk.inj h1
    exact hchunk
  · split at h
    · rename_i hw
      exact importation_chunk (hw ▸ htok) (Nat.le_trans hle hlen) h
    · have hw : w.record [] = w := by simp [Workspace.record]
      obtain ⟨h1, rfl⟩ := EStateM.Result.ok.inj h
      obtain ⟨rfl, rfl⟩ := Prod.mk.inj h1
      have hchunk : Chunk resolver importer src c w (some (.malformed c.off (unknownChunk c.token.1 c.rest)))
          c.token.2 (w.record []) := .refused htok (.refl _) (fun _ => rfl) (by simp)
      rwa [hw] at hchunk

theorem declaration_total (src : Source) (d : Cursor) (w : Workspace) :
    ∃ stop e w', declaration src d w = .ok (stop, e) w' := by
  rw [declaration]
  cases hx : signature src ⟨d, w.report⟩ with
  | error s r => exact ⟨_, _, _, bind_ok (parsing_error hx)⟩
  | ok sig r =>
      rw [bind_ok (parsing_ok hx)]
      simp only [definition_eq]
      rw [body_eq src sig.1 sig.2.1 sig.2.2 r.cursor w.registry _ rfl]
      split <;> exact ⟨_, _, _, rfl⟩

variable (resolver) in
/-- Only an importer may fail. -/
theorem chunk_total (himport : ∀ run, importer = some run → ∀ path here w, ∃ w', run path here w = .ok () w')
    (src : Source) (c : Cursor) (w : Workspace) :
    ∃ stop e w', chunk resolver importer src c w = .ok (stop, e) w' := by
  simp only [chunk]
  split
  · exact declaration_total src _ w
  · split
    · simp only [importation]
      cases hx : Parser.string ⟨c.token.2.skipBlanks, w.report⟩ with
      | error s r => exact ⟨_, _, _, bind_ok (parsing_error hx)⟩
      | ok target r =>
          rw [bind_ok (parsing_ok hx)]
          simp only
          cases hp : resolver.resolve src.path target with
          | error problem => exact ⟨_, _, _, rfl⟩
          | ok path =>
              cases hi : importer with
              | none => exact ⟨_, _, _, rfl⟩
              | some run =>
                  obtain ⟨w', hw'⟩ := himport run hi path (src.locate c.token.2.skipBlanks.off)
                    { w with report := r.report }
                  exact ⟨_, _, _, bind_ok hw'⟩
    · exact ⟨_, _, _, rfl⟩

end Build

end Polish
