import Polish.Proofs.Registration
import Polish.Proofs.Rounds
import Polish.Proofs.Runs.Complete

namespace Polish

open Grammar

/-- What a declaration of a name leaves alone: the other names, the functions made before, and what is imported. -/
structure Registry.Keeps (r : Registry) (name : Bytes) (r' : Registry) : Prop where
  names : ∀ other, other ≠ name → r'.lookup other = r.lookup other
  functions : ∀ (f : FuncId) (fn : Function), r.functions[f]? = some fn → r'.functions[f]? = some fn
  imported : r'.imported = r.imported

namespace Registry

variable {r : Registry} {name : Bytes}

theorem keeps_refl (r : Registry) (name : Bytes) : r.Keeps name r := ⟨fun _ _ => rfl, fun _ _ h => h, rfl⟩

theorem keeps_declare (r : Registry) (fn : Function) : r.Keeps fn.name (r.declare fn) :=
  ⟨fun _ hne => lookup_declare_of_ne r fn hne, fun _ _ h => getElem?_declare fn h, rfl⟩

theorem Keeps.remove {r' : Registry} (h : r.Keeps name r') (f : FuncId) : r.Keeps name (r'.remove name f) where
  names other hne := (lookup_remove_of_ne r' hne f).trans (h.names other hne)
  functions g fn hfn := by
    rw [functions_remove]
    exact h.functions g fn hfn
  imported := by
    rw [← h.imported, Registry.remove]
    split <;> rfl

/-- A declaration that is given up leaves its name unbound, whatever the name stood for. -/
theorem lookup_drop (r : Registry) (fn : Function) :
    ((r.declare fn).remove fn.name r.functions.size).lookup fn.name = none := by
  rw [lookup_remove_self, if_pos (lookup_declare_self r fn)]

theorem of_mem_duplicates {here : Location} {entry : Diagnostic} {word : Bytes} (h : entry ∈ r.duplicates name here)
    (hword : entry.problem = .duplicate word) : word = name ∧ (r.lookup name).isSome = true := by
  unfold duplicates at h
  split at h
  · rename_i hsome
    obtain rfl := List.mem_singleton.1 h
    cases hword
    exact ⟨rfl, hsome⟩
  · exact (List.not_mem_nil h).elim

end Registry

/-- Reading an expression to its end reports only names that stand for nothing. -/
theorem Grammar.Exprs.unresolved_of_mem {src : Source} {registry : Registry} {scope : Parser.Bindings} {c d : Cursor}
    {xs : List Expr} {notes : List Diagnostic} (h : Exprs src registry scope c xs notes d) :
    ∀ entry ∈ notes, ∃ word, entry.problem = .unresolved word := by
  induction h with
  | nil => exact List.forall_mem_nil _
  | text _ _ ih | number _ _ _ ih | bound _ _ _ _ ih => exact ih
  | group _ _ _ _ ih1 ih2 | closure _ _ _ _ _ ih1 ih2 | call _ _ _ _ _ _ _ ih1 ih2 =>
      exact List.forall_mem_append.2 ⟨ih1, ih2⟩
  | unresolved _ _ _ _ _ ih => exact List.forall_mem_cons.2 ⟨⟨_, rfl⟩, ih⟩

theorem Grammar.Signature.token_eq {src : Source} {c e : Cursor} {name : Bytes} {location : Location}
    {params : List Param} (h : Signature src c name location params e) : c.token.1 = name := by
  obtain ⟨ht, -, -, -, -⟩ := h
  rw [ht]

namespace Build

variable {src : Source} {c e : Cursor} {name : Bytes} {location : Location} {params : List Param}

def Unsigned (src : Source) (c : Cursor) : Prop := ∀ name location params e, ¬ Signature src c name location params e

abbrev IsBody (src : Source) (r : Registry) (name : Bytes) (location : Location) (params : List Param) (e : Cursor)
    (body : Expr) (notes : List Diagnostic) (g : Cursor) : Prop :=
  Exprs src (r.declare (.awaiting name params location)) (Parser.Bindings.bind [] params (src.locate e.off)) e [body]
    notes g

theorem declaration_unsigned (h : Unsigned src c) (hlen : c.rest.length ≤ src.text.length) (w : Workspace) :
    ∃ s d notes, declaration src c w = .ok (some s, d) (w.record notes) ∧ (s = .reported → notes ≠ []) := by
  have hsig := signature_ensures src ⟨c, w.report⟩
  rw [declaration]
  cases hx : signature src ⟨c, w.report⟩ with
  | ok sig r => exact (h _ _ _ _ (hsig.ok hx).2).elim
  | error s r =>
      obtain ⟨notes, hnotes, hne⟩ := exists_notes (hsig.error hx) (Nat.lt_succ_of_le hlen)
      refine ⟨s, r.cursor, notes, ?_, hne⟩
      rw [bind_ok (parsing_error hx), hnotes]
      rfl

theorem declaration_signed (h : Signature src c name location params e) (hlen : c.rest.length ≤ src.text.length)
    (w : Workspace) : declaration src c w = definition src name location params e w := by
  rw [declaration, bind_ok (parsing_ok (signature_run h hlen w.report))]

theorem definition_unfinished {w : Workspace} (hlen : e.rest.length ≤ src.text.length)
    (h : ∀ body notes g, ¬ IsBody src w.registry name location params e body notes g) :
    ∃ s d notes, definition src name location params e w = .ok (some s, d)
        ((w.withRegistry ((w.registry.declare (.awaiting name params location)).remove name
          w.registry.functions.size)).record (w.registry.duplicates name (src.locate e.off) ++ notes)) ∧
      (s = .reported → notes ≠ []) := by
  rw [definition_eq, body_eq src name location params e w.registry _ rfl]
  have hexpr := Parser.expr_ensures src (w.registry.declare (.awaiting name params location))
    (src.text.length + 1) (Parser.Bindings.bind [] params (src.locate e.off))
    ⟨e, ⟨w.report.entries ++ w.registry.duplicates name (src.locate e.off)⟩⟩
  split
  · rename_i s r hx
    obtain ⟨notes, hnotes, hne⟩ := exists_notes (hexpr.error hx) (Nat.lt_succ_of_le hlen)
    refine ⟨s, r.cursor, notes, ?_, hne⟩
    rw [hnotes, List.append_assoc]
    rfl
  · rename_i body r hx
    obtain ⟨notes, -, hbody⟩ := hexpr.ok hx
    exact (h body notes r.cursor hbody).elim

theorem definition_finished {w : Workspace} {body : Expr} {notes : List Diagnostic} {g : Cursor}
    (hlen : e.rest.length ≤ src.text.length) (h : IsBody src w.registry name location params e body notes g) :
    definition src name location params e w = .ok (none, g)
      ((w.withRegistry (w.registry.declare (.custom name params location body))).record
        (w.registry.duplicates name (src.locate e.off) ++ notes)) := by
  have hexpr := Parser.expr_run h (Nat.lt_succ_of_le hlen)
    ⟨w.report.entries ++ w.registry.duplicates name (src.locate e.off)⟩
  rw [definition_eq, body_eq src name location params e w.registry _ rfl]
  simp only [Workspace.record, Workspace.withRegistry] at hexpr ⊢
  rw [hexpr]
  simp only [List.append_assoc]

theorem IsBody.duplicate_iff {r : Registry} {body : Expr} {notes : List Diagnostic} {g : Cursor}
    (h : IsBody src r name location params e body notes g) (here : Location) (word : Bytes) :
    (∃ entry ∈ r.duplicates name here ++ notes, entry.problem = .duplicate word) ↔
      word = name ∧ (r.lookup name).isSome = true := by
  constructor
  · rintro ⟨entry, hmem, hword⟩
    rcases List.mem_append.1 hmem with hmem | hmem
    · exact Registry.of_mem_duplicates hmem hword
    · obtain ⟨other, hother⟩ := h.unresolved_of_mem entry hmem
      cases hword.symm.trans hother
  · rintro ⟨rfl, hsome⟩
    rw [Registry.duplicates, if_pos hsome]
    exact ⟨_, List.mem_append_left _ (List.mem_singleton_self _), rfl⟩

inductive Outcome (src : Source) (c : Cursor) (w : Workspace) : Option Stop → Cursor → Workspace → Prop
  | unsigned {s d notes} (h : Unsigned src c) (hn : s = .reported → notes ≠ []) :
      Outcome src c w (some s) d (w.record notes)
  | unfinished {name location params e s d notes} (hs : Signature src c name location params e)
      (h : ∀ body notes g, ¬ IsBody src w.registry name location params e body notes g) (hn : s = .reported → notes ≠ []) :
      Outcome src c w (some s) d ((w.withRegistry ((w.registry.declare (.awaiting name params location)).remove name
        w.registry.functions.size)).record (w.registry.duplicates name (src.locate e.off) ++ notes))
  | finished {name location params e body notes g} (hs : Signature src c name location params e)
      (hb : IsBody src w.registry name location params e body notes g) :
      Outcome src c w none g ((w.withRegistry (w.registry.declare (.custom name params location body))).record
        (w.registry.duplicates name (src.locate e.off) ++ notes))

theorem declaration_outcome (hlen : c.rest.length ≤ src.text.length) (w : Workspace) :
    ∃ stop d w', declaration src c w = .ok (stop, d) w' ∧ Outcome src c w stop d w' := by
  by_cases hsigned : ∃ name location params e, Signature src c name location params e
  · obtain ⟨name, location, params, e, hs⟩ := hsigned
    have hlen' := Nat.le_trans hs.reaches.length_le hlen
    rw [declaration_signed hs hlen]
    by_cases hbody : ∃ body notes g, IsBody src w.registry name location params e body notes g
    · obtain ⟨body, notes, g, hb⟩ := hbody
      exact ⟨_, _, _, definition_finished hlen' hb, .finished hs hb⟩
    · have hnone : ∀ body notes g, ¬ IsBody src w.registry name location params e body notes g :=
        fun body notes g hb => hbody ⟨body, notes, g, hb⟩
      obtain ⟨s, d, notes, hrun, hn⟩ := definition_unfinished hlen' hnone
      exact ⟨_, _, _, hrun, .unfinished hs hnone hn⟩
  · have hnone : Unsigned src c := fun name location params e hs => hsigned ⟨name, location, params, e, hs⟩
    obtain ⟨s, d, notes, hrun, hn⟩ := declaration_unsigned hnone hlen w
    exact ⟨_, _, _, hrun, .unsigned hnone hn⟩

namespace Outcome

variable {w w' : Workspace} {stop : Option Stop} {d : Cursor}

theorem keeps (h : Outcome src c w stop d w') : w.registry.Keeps c.token.1 w'.registry := by
  cases h with
  | unsigned _ _ => exact Registry.keeps_refl _ _
  | @unfinished name location params _ _ _ _ hs _ _ =>
      rw [hs.token_eq]
      exact (w.registry.keeps_declare (.awaiting name params location)).remove w.registry.functions.size
  | @finished name location params _ body _ _ hs _ =>
      rw [hs.token_eq]
      exact w.registry.keeps_declare (.custom name params location body)

theorem reported (h : Outcome src c w stop d w') (hstop : stop ≠ none) :
    ∃ notes, notes ≠ [] ∧ (w'.record (remarks src stop)).report.entries = w.report.entries ++ notes := by
  cases h with
  | @unsigned s _ notes _ hn => exact ⟨_, s.append_problems_ne_nil src hn, List.append_assoc _ _ _⟩
  | @unfinished name _ _ e s _ notes _ _ hn =>
      refine ⟨w.registry.duplicates name (src.locate e.off) ++ (notes ++ s.problems src), ?_, ?_⟩
      · exact fun he => s.append_problems_ne_nil src hn (List.append_eq_nil_iff.1 he).2
      · simp only [Workspace.record, Workspace.withRegistry, remarks, List.append_assoc]
  | finished _ _ => exact absurd rfl hstop

end Outcome

theorem chunks_function {k d : Cursor} {w w' : Workspace} {stop : Option Stop} (hk : k.token = (utf8 "function", c))
    (h : declaration src c w = .ok (stop, d) w') (resolver : Resolver) (importer : Option Importer) (n : Nat) :
    chunks resolver importer src (n + 1) k w =
      chunks resolver importer src n (onward src stop d) (w'.record (remarks src stop)) :=
  chunks_succ (Cursor.atEnd_of_token hk (by decide)) ((chunk_function resolver importer w hk).trans h) n

/-- What is reported of a declaration is in the report when the whole source is read. -/
theorem entries_isPrefix_of_chunks {resolver : Resolver} {importer : Option Importer} {k d : Cursor}
    {w w' final : Workspace} {stop : Option Stop} {n : Nat}
    (himporter : importer = none ∨ ∃ loader depth, importer = some (Loader.importer loader resolver depth))
    (hk : k.token = (utf8 "function", c)) (hlen : k.rest.length ≤ src.text.length) (hn : k.rest.length ≤ n)
    (h : declaration src c w = .ok (stop, d) w') (hrun : chunks resolver importer src (n + 1) k w = .ok () final) :
    (w'.record (remarks src stop)).report.entries <+: final.report.entries := by
  have hend := Cursor.atEnd_of_token hk (by decide)
  have hchunk := chunk_runs (Nat.le_trans k.reaches_skipBlanks.length_le hlen)
    ((chunk_function resolver importer w hk).trans h)
  have hlt := hchunk.onward_lt hend
  rw [chunks_function hk h] at hrun
  rcases himporter with rfl | ⟨loader, depth, rfl⟩
  · have hserves : Serves resolver none 0 none := fun _ he => by cases he
    exact (chunks_runs hserves n _ _ (by omega) (by omega) hrun).entries_isPrefix
  · exact (chunks_runs (Loader.importer_serves loader resolver depth) n _ _ (by omega) (by omega)
      hrun).entries_isPrefix

/-- What a declaration does, by the text after its keyword. It always gives way to the next chunk, which gets nothing of
it but a position, the registry and the report; where it fails the report has grown, and stays so to the end. To abort
a declaration is to stop it with `.reported`: no flag is left behind that the next chunk could see. -/
theorem declaration_effect (src : Source) {c : Cursor} (hc : src.start.Reaches c) (w : Workspace) :
    ∃ stop d w', declaration src c w = .ok (stop, d) w' ∧ w.registry.Keeps c.token.1 w'.registry ∧
      (Unsigned src c → stop ≠ none ∧ w'.registry = w.registry) ∧
      (∀ name location params e, Signature src c name location params e →
        ((∀ body notes g, ¬ IsBody src w.registry name location params e body notes g) →
          stop ≠ none ∧ w'.registry.lookup name = none) ∧
        ∀ body notes g, IsBody src w.registry name location params e body notes g →
          stop = none ∧ d = g ∧
          (∃ f, w'.registry.lookup name = some f ∧
            w'.registry.functions[f]? = some (.custom name params location body)) ∧
          ∃ added, w'.report.entries = w.report.entries ++ added ∧
            ∀ word, (∃ entry ∈ added, entry.problem = .duplicate word) ↔
              word = name ∧ (w.registry.lookup name).isSome = true) ∧
      (stop ≠ none → ∃ notes, notes ≠ [] ∧
        (w'.record (remarks src stop)).report.entries = w.report.entries ++ notes ∧
        ∀ (resolver : Resolver) (importer : Option Importer) (k : Cursor) (n : Nat), src.start.Reaches k →
          k.token = (utf8 "function", c) →
          chunks resolver importer src (n + 1) k w =
            chunks resolver importer src n (resync (src.text.length + 1) d) (w'.record (remarks src stop)) ∧
          ((importer = none ∨ ∃ loader depth, importer = some (Loader.importer loader resolver depth)) →
            k.rest.length ≤ n → ∀ final, chunks resolver importer src (n + 1) k w = .ok () final →
              w.report.entries ++ notes <+: final.report.entries)) := by
  have hlen : c.rest.length ≤ src.text.length := hc.length_le
  obtain ⟨stop, d, w', hrun, hout⟩ := declaration_outcome hlen w
  refine ⟨stop, d, w', hrun, hout.keeps, fun hnone => ?_, fun name location params e hs => ⟨fun hnone => ?_, ?_⟩,
    fun hstop => ?_⟩
  · obtain ⟨s, d', notes, hrun', -⟩ := declaration_unsigned hnone hlen w
    cases hrun.symm.trans hrun'
    exact ⟨Option.some_ne_none s, rfl⟩
  · rw [declaration_signed hs hlen] at hrun
    obtain ⟨s, d', notes, hrun', -⟩ := definition_unfinished (hc.trans hs.reaches).length_le hnone
    cases hrun.symm.trans hrun'
    exact ⟨Option.some_ne_none s, w.registry.lookup_drop (.awaiting name params location)⟩
  · intro body notes g hb
    rw [declaration_signed hs hlen] at hrun
    cases hrun.symm.trans (definition_finished (hc.trans hs.reaches).length_le hb)
    refine ⟨rfl, rfl, ⟨_, Registry.lookup_declare_self _ _, Registry.getElem?_declare_self _ _⟩, _, rfl, fun word => ?_⟩
    exact hb.duplicate_iff _ word
  · obtain ⟨notes, hne, hnotes⟩ := hout.reported hstop
    refine ⟨notes, hne, hnotes, fun resolver importer k n hk hword => ⟨?_, fun himporter hn final hfinal => ?_⟩⟩
    · obtain ⟨s, rfl⟩ := Option.ne_none_iff_exists'.1 hstop
      exact chunks_function hword hrun resolver importer n
    · rw [← hnotes]
      exact entries_isPrefix_of_chunks himporter hword hk.length_le hn hrun hfinal

/-- A function is declared again with a parameter of no known type: its name stands for what it stood for. -/
theorem declaration_effect_untyped :
    let src : Source := ⟨utf8 "a", utf8 "function f ghost x => x"⟩
    let w : Workspace := { registry := Registry.initial.declare (.custom (utf8 "f") [] {} .hole) }
    src.start.Reaches (src.start.advance 8) ∧
      ∃ stop d w', declaration src (src.start.advance 8) w = .ok (stop, d) w' ∧ stop ≠ none ∧
        w'.registry = w.registry ∧ (w'.record (remarks src stop)).report.entries ≠ [] := by
  intro src w
  have hc : src.start.Reaches (src.start.advance 8) := ⟨8, by decide, rfl⟩
  refine ⟨hc, ?_⟩
  obtain ⟨stop, d, w', hrun, -, hunsigned, -, hreported⟩ := declaration_effect src hc w
  have hnone : Unsigned src (src.start.advance 8) := by
    intro name location params e hs
    have hends : ends (signature src ⟨src.start.advance 8, {}⟩) = false := by decide +kernel
    rw [signature_run hs hc.length_le] at hends
    cases hends
  obtain ⟨hstop, hsame⟩ := hunsigned hnone
  obtain ⟨notes, hne, hnotes, -⟩ := hreported hstop
  exact ⟨stop, d, w', hrun, hstop, hsame, hnotes.trans_ne (List.append_ne_nil_of_right_ne_nil _ hne)⟩

end Build

end Polish
