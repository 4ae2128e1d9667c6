import Polish.Proofs.Grammar.Complete
import Polish.Proofs.Runs.Chunk

namespace Polish

open Grammar

namespace Build

variable {src : Source}

theorem signature_run {c d : Cursor} {name : Bytes} {location : Location} {params : List Param}
    (h : Signature src c name location params d) (hlen : c.rest.length ≤ src.text.length) (report : Report) :
    signature src ⟨c, report⟩ = .ok (name, location, params) ⟨d, report⟩ := by
  obtain ⟨ht, hn, ha, hp, harrow⟩ := h
  rename_i e f
  have hname : (name.isEmpty || name == arrow) = false := by simp [hn, ha]
  have hle := (Cursor.length_token_lt ht hn).1.length_le
  have hskip := e.reaches_skipBlanks.length_le
  have hps : Parser.params src (src.text.length + 1) ⟨e.skipBlanks, report⟩ = .ok params ⟨d, report⟩ :=
    Parser.params_run src hp harrow (by omega) (by omega) report
  rw [signature, bind_ok (Parser.skipBlanks_eq _), bind_ok (Parser.token_eq _)]
  simp only [Cursor.token_skipBlanks, ht, hname, Bool.false_eq_true, if_false]
  rw [bind_ok (Parser.skipBlanks_eq _), bind_ok hps]
  rfl

theorem declaration_run {d e g : Cursor} {name : Bytes} {location : Location} {params : List Param} {body : Expr}
    {w : Workspace} (hs : Signature src d name location params e) (hnew : w.registry.lookup name = none)
    (hb : Exprs src (w.registry.declare (.awaiting name params location))
      (Parser.Bindings.bind [] params (src.locate e.off)) e [body] [] g)
    (hlen : d.rest.length ≤ src.text.length) :
    declaration src d w = .ok (none, g) (w.withRegistry (w.registry.declare (.custom name params location body))) := by
  have hle := hs.reaches.length_le
  have hdup : w.registry.duplicates name (src.locate e.off) = [] := by simp [Registry.duplicates, hnew]
  rw [declaration, bind_ok (parsing_ok (signature_run hs hlen w.report))]
  simp only [definition_eq, hdup, Workspace.record_nil]
  rw [body_eq src name location params e w.registry _ rfl]
  have hexpr := Parser.expr_run hb (show e.rest.length < src.text.length + 1 by omega) w.report
  rw [List.append_nil] at hexpr
  simp only [Workspace.withRegistry, hexpr]

theorem chunk_function (resolver : Resolver) (importer : Option Importer) (w : Workspace) {c d : Cursor}
    (hk : c.token = (utf8 "function", d)) : chunk resolver importer src c.skipBlanks w = declaration src d w := by
  simp only [chunk, Cursor.token_skipBlanks, hk, if_true]

theorem chunk_import {resolver : Resolver} {c d e : Cursor} {target path : Bytes} (hk : c.token = (utf8 "import", d))
    (hq : d.skipBlanks.Quoted target e) (hp : resolver.resolve src.path target = .ok path) (run : Importer)
    (w : Workspace) : chunk resolver (some run) src c.skipBlanks w =
      (run path (src.locate d.skipBlanks.off) >>= fun _ => pure (none, e)) w := by
  have hother : ¬ utf8 "import" = utf8 "function" := by decide
  simp only [chunk, Cursor.token_skipBlanks, hk, if_neg hother, if_true, importation,
    bind_ok (parsing_ok (Parser.string_run hq w.report)), hp]

end Build

/-- A run without imports and problems is what is read, whatever the importer. -/
theorem CleanRuns.chunks {resolver : Resolver} {depth : Nat} {src : Source} {c : Cursor} {w w' : Workspace}
    (h : CleanRuns resolver none depth src c w w') (importer : Option Importer) {n : Nat} (hn : c.rest.length < n)
    (hlen : c.rest.length ≤ src.text.length) : Build.chunks resolver importer src n c w = .ok () w' := by
  generalize hread : none = read at h
  induction h generalizing n with
  | done h =>
      obtain ⟨n, rfl⟩ : ∃ m, n = m + 1 := ⟨n - 1, by omega⟩
      rw [Build.chunks, if_pos h]
      rfl
  | @declared _ src c d _ _ _ _ _ _ w _ hk hs hnew hb rest ih =>
      obtain ⟨n, rfl⟩ : ∃ m, n = m + 1 := ⟨n - 1, by omega⟩
      have hend := Cursor.atEnd_of_token hk (by decide)
      have hlt := (Cursor.length_token_lt hk (by decide)).2
      have hle := (hs.reaches.trans hb.reaches.1).length_le
      have hchunk := (Build.chunk_function resolver importer w hk).trans (Build.declaration_run hs hnew hb (by omega))
      rw [Build.chunks, if_neg (by simp [hend]), bind_ok hchunk]
      exact ih (by omega) (by omega)
  | known hr => simp [← hread] at hr
  | included hr | unread hr => cases hread.trans hr

theorem CleanRuns.source {resolver : Resolver} {depth : Nat} {src : Source} {w w' : Workspace}
    (h : CleanRuns resolver none depth src src.start w w') : Build.source resolver none src w = .ok () w' :=
  h.chunks none (Nat.lt_succ_self _) (Nat.le_refl _)

end Polish
