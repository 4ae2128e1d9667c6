import Polish.Proofs.Runs.Chunk

namespace Polish

open Grammar

namespace Build

variable {resolver : Resolver} {importer : Option Importer} {src : Source} {c d : Cursor} {w w' : Workspace}

theorem chunks_total (himport : ∀ run, importer = some run → ∀ path here w, ∃ w', run path here w = .ok () w')
    (src : Source) (n : Nat) (c : Cursor) (w : Workspace) :
    ∃ w', chunks resolver importer src n c w = .ok () w' := by
  induction n generalizing c w with
  | zero => exact ⟨w, rfl⟩
  | succ n ih =>
      simp only [chunks]
      split
      · exact ⟨w, rfl⟩
      · obtain ⟨stop, e, w₁, h⟩ := chunk_total resolver himport src c.skipBlanks w
        rw [bind_ok h]
        cases stop with
        | none => exact ih e w₁
        | some s =>
            cases s with
            | malformed off why => exact ih _ _
            | reported => exact ih _ _

theorem resync_reaches (n : Nat) (c : Cursor) : c.Reaches (resync n c) := by
  induction n generalizing c with
  | zero => exact .refl c
  | succ n ih =>
      have hs := c.reaches_skipBlanks
      simp only [resync, Cursor.token_skipBlanks]
      split
      · exact hs
      · rename_i hend
        split
        · exact hs
        · split
          · rename_i hempty
            refine (hs.trans (c.reaches_token.trans ?_)).trans (ih _)
            refine c.token.2.reaches_advance ?_
            have hrest := c.token_append_rest
            rw [List.isEmpty_iff.1 hempty, List.nil_append, ← Cursor.rest_skipBlanks] at hrest
            rw [hrest]
            exact List.length_pos_iff.2 (by simpa [Cursor.atEnd] using hend)
          · exact (hs.trans c.reaches_token).trans (ih _)

/-- Before a bracket, resynchronising passes at least the bracket. -/
theorem length_resync_lt {n : Nat} {c : Cursor} (hn : 0 < n) (hend : c.skipBlanks.atEnd = false)
    (hempty : c.token.1 = []) : (resync n c.token.2).rest.length < c.skipBlanks.rest.length := by
  obtain ⟨n, rfl⟩ : ∃ m, n = m + 1 := ⟨n - 1, by omega⟩
  have hnext : c.token.2 = c.skipBlanks := by
    rw [Cursor.token] at hempty ⊢
    simp only at hempty ⊢
    rw [hempty]
    rfl
  have hword : c.skipBlanks.token = ([], c.skipBlanks) := by
    rw [Cursor.token_skipBlanks, ← hnext, ← hempty]
  have hne1 : ¬ ([] : Bytes) = utf8 "function" ∧ ¬ ([] : Bytes) = utf8 "import" := by decide
  have hpos : 0 < c.skipBlanks.rest.length := List.length_pos_iff.2 (by simpa [Cursor.atEnd] using hend)
  rw [hnext, resync]
  simp only [Cursor.skipBlanks_idem, hend, hword, hne1, Bool.false_eq_true, if_false, or_self, List.isEmpty_nil,
    if_true]
  refine Nat.lt_of_le_of_lt (resync_reaches n _).length_le ?_
  simp only [Cursor.advance, List.length_drop]
  omega

def Serves (resolver : Resolver) (read : Option (Bytes → Except FileError Bytes)) (depth : Nat)
    (importer : Option Importer) : Prop :=
  ∀ run, importer = some run → ∀ {src : Source} {c d e : Cursor} {target path : Bytes} {w w₁ w' : Workspace},
    c.token = (utf8 "import", d) → d.skipBlanks.Quoted target e → resolver.resolve src.path target = .ok path →
    run path (src.locate d.skipBlanks.off) w = .ok () w₁ → Runs resolver read depth src e w₁ w' →
    Runs resolver read depth src c w w'

section Chunks

variable {read : Option (Bytes → Except FileError Bytes)} {depth : Nat}

theorem length_stopped_lt {n : Nat} {word : Bytes} {d e : Cursor} (hn : 0 < n) (hend : c.skipBlanks.atEnd = false)
    (ht : c.token = (word, d)) (he : d.Reaches e) (hw : word = [] → e = d) :
    c.Reaches (resync n e) ∧ (resync n e).rest.length < c.rest.length := by
  have hr := resync_reaches n e
  by_cases hword : word = []
  · obtain rfl := hw hword
    have hlt := length_resync_lt (c := c) hn hend (by rw [ht]; exact hword)
    have hd : c.token.2 = e := by rw [ht]
    rw [hd] at hlt
    refine ⟨(c.reaches_skipBlanks.trans (hd ▸ c.reaches_token)).trans hr, ?_⟩
    exact Nat.lt_of_lt_of_le hlt c.reaches_skipBlanks.length_le
  · obtain ⟨h1, h2⟩ := Cursor.length_token_lt ht hword
    refine ⟨h1.trans (he.trans hr), Nat.lt_of_le_of_lt (he.trans hr).length_le h2⟩

theorem Chunk.length_resync_lt {n : Nat} {s : Stop} {e : Cursor} {w₁ : Workspace} (hn : 0 < n)
    (hend : c.skipBlanks.atEnd = false) (h : Chunk resolver importer src c.skipBlanks w (some s) e w₁) :
    (resync n e).rest.length < c.rest.length := by
  cases h with
  | dropped hk hs he hne =>
      rw [c.token_skipBlanks] at hk
      have hlt := (Cursor.length_token_lt hk (by decide)).2
      exact Nat.lt_of_le_of_lt (hs.reaches.trans (he.trans (resync_reaches n e))).length_le hlt
  | refused ht he hw hne =>
      rw [c.token_skipBlanks] at ht
      exact (length_stopped_lt hn hend ht he hw).2

theorem stopped_runs {n : Nat} {s : Stop} {e : Cursor} {w₁ w₂ : Workspace} (hn : 0 < n)
    (hend : c.skipBlanks.atEnd = false) (h : Chunk resolver importer src c.skipBlanks w (some s) e w₁)
    (rest : Runs resolver read depth src (resync n e) (w₁.record (s.problems src)) w₂) :
    Runs resolver read depth src c w w₂ := by
  cases h with
  | dropped hk hs he hne =>
      rw [Workspace.record_record] at rest
      exact .dropped (c.token_skipBlanks ▸ hk) hs (he.trans (resync_reaches n e)) (s.append_problems_ne_nil src hne) rest
  | refused ht he hw hne =>
      rw [Workspace.record_record] at rest
      rw [c.token_skipBlanks] at ht
      obtain ⟨hreach, hlt⟩ := length_stopped_lt hn hend ht he hw
      exact .refused hreach hlt (s.append_problems_ne_nil src hne) rest

theorem chunks_runs (hserves : Serves resolver read depth importer) (n : Nat) (c : Cursor) (w : Workspace)
    (hn : c.rest.length < n) (hlen : c.rest.length ≤ src.text.length)
    (h : chunks resolver importer src n c w = .ok () w') : Runs resolver read depth src c w w' := by
  induction n generalizing c w with
  | zero => exact absurd hn (Nat.not_lt_zero _)
  | succ n ih =>
      have hle := c.reaches_skipBlanks.length_le
      simp only [chunks] at h
      split at h
      · rename_i hend
        obtain ⟨-, rfl⟩ := EStateM.Result.ok.inj h
        exact .done hend
      · rename_i hend
        obtain ⟨⟨stop, e⟩, w₁, hc, h⟩ := bind_eq_ok.1 h
        have hchunk := chunk_runs (Nat.le_trans hle hlen) hc
        have hend' : c.skipBlanks.atEnd = false := by simpa using hend
        cases stop with
        | none =>
            simp only at h
            cases hchunk with
            | declared hk hs hb =>
                rw [c.token_skipBlanks] at hk
                have hlt := (Cursor.length_token_lt hk (by decide)).2
                have hle' := (hs.reaches.trans hb.reaches.1).length_le
                exact .declared hk hs hb (ih _ _ (by omega) (by omega) h)
            | noted hk he hne =>
                rw [c.token_skipBlanks] at hk
                obtain ⟨hreach, hlt⟩ := Cursor.length_token_lt hk (by decide)
                have hle' := he.length_le
                exact .refused (hreach.trans he) (by omega) hne (ih _ _ (by omega) (by omega) h)
            | imported hr hk hq hp hrun =>
                rw [c.token_skipBlanks] at hk
                have hlt := (Cursor.length_token_lt hk (by decide)).2
                have hle' := ((Cursor.reaches_skipBlanks _).trans hq.reaches.1).length_le
                exact hserves _ hr hk hq hp hrun (ih _ _ (by omega) (by omega) h)
        | some s =>
            have hlt := (hchunk.length_resync_lt (n := src.text.length + 1) (by omega) hend')
            have h' : chunks resolver importer src n (resync (src.text.length + 1) e)
                (w₁.record (s.problems src)) = .ok () w' := by
              cases s with
              | malformed off why => exact h
              | reported => simpa [Stop.problems, Workspace.record] using h
            exact stopped_runs (by omega) hend' hchunk (ih _ _ (by omega) (by omega) h')

end Chunks

end Build

namespace Loader

def reading (loader : Option Loader) (path : Bytes) : Except FileError Bytes :=
  match loader with
  | some l => l.read path
  | none => .error { path, trouble := .doesNotExist }

theorem importer_cases {loader : Option Loader} {resolver : Resolver} {depth : Nat} {path : Bytes} {here : Location}
    {w w' : Workspace} (h : importer loader resolver depth path here w = .ok () w') :
    w.registry.isImported path = true ∧ w' = w ∨
    w.registry.isImported path = false ∧
      ((∃ e, reading loader path = .error e ∧
        w' = (w.visit path).record
          [{ location := here, problem := .unreadable path (.file e), fatal := true }]) ∨
      ∃ text, reading loader path = .ok text ∧ (depth = 0 ∧ w' = w.visit path ∨ ∃ d, depth = d + 1 ∧
        Build.source resolver (some (importer loader resolver d)) ⟨path, text⟩ (w.visit path) = .ok () w')) := by
  unfold importer at h
  rw [get_bind] at h
  cases hi : w.registry.isImported path with
  | true =>
      simp only [hi, if_true] at h
      obtain ⟨-, rfl⟩ := EStateM.Result.ok.inj h
      exact .inl ⟨rfl, rfl⟩
  | false =>
      refine .inr ⟨rfl, ?_⟩
      simp only [hi, Bool.false_eq_true, if_false, modify_bind] at h
      cases loader with
      | none => exact nomatch h
      | some l =>
          simp only [modify_bind] at h
          cases hl : l.read path with
          | error e =>
              simp only [hl] at h
              obtain ⟨-, rfl⟩ := EStateM.Result.ok.inj h
              exact .inl ⟨e, hl, rfl⟩
          | ok text =>
              simp only [hl] at h
              refine .inr ⟨text, hl, ?_⟩
              cases depth with
              | zero =>
                  obtain ⟨-, rfl⟩ := EStateM.Result.ok.inj h
                  exact .inl ⟨rfl, rfl⟩
              | succ d => exact .inr ⟨d, rfl, h⟩

theorem importer_serves (loader : Option Loader) (resolver : Resolver) (depth : Nat) :
    Build.Serves resolver (some (reading loader)) depth (some (importer loader resolver depth)) := by
  induction depth with
  | zero =>
      rintro _ ⟨rfl⟩ src c d e target path w w₁ w' hk hq hp hrun rest
      obtain ⟨hi, rfl⟩ | ⟨hi, ⟨error, hl, rfl⟩ | ⟨text, hl, ⟨-, rfl⟩ | ⟨d, hd, -⟩⟩⟩ := importer_cases hrun
      · exact .known rfl hk hq hp hi rest
      · exact .unreadable rfl hk hq hp hi hl rest
      · exact .unread rfl hk hq hp hi hl rest
      · exact absurd hd (by omega)
  | succ depth ih =>
      rintro _ ⟨rfl⟩ src c d e target path w w₁ w' hk hq hp hrun rest
      obtain ⟨hi, rfl⟩ | ⟨hi, ⟨error, hl, rfl⟩ | ⟨text, hl, ⟨hd, -⟩ | ⟨d, hd, hfile⟩⟩⟩ := importer_cases hrun
      · exact .known rfl hk hq hp hi rest
      · exact .unreadable rfl hk hq hp hi hl rest
      · exact absurd hd (by omega)
      · obtain rfl := Nat.succ.inj hd
        have hfile' := Build.chunks_runs ih _ _ _ (Nat.lt_succ_self _) (Nat.le_refl _) hfile
        exact .included rfl hk hq hp hi hl hfile' rest

/-- With a loader imports never fail. -/
theorem importer_total (l : Loader) (resolver : Resolver) (depth : Nat) (path : Bytes) (here : Location)
    (w : Workspace) : ∃ w', importer (some l) resolver depth path here w = .ok () w' := by
  induction depth generalizing path here w with
  | zero =>
      unfold importer
      rw [get_bind]
      split
      · exact ⟨w, rfl⟩
      · simp only [modify_bind]
        cases l.read path <;> exact ⟨_, rfl⟩
  | succ depth ih =>
      unfold importer
      rw [get_bind]
      split
      · exact ⟨w, rfl⟩
      · simp only [modify_bind]
        cases l.read path with
        | error e => exact ⟨_, rfl⟩
        | ok text => exact Build.chunks_total (fun run hrun => by cases hrun; exact ih) _ _ _ _

end Loader

theorem Build.source_runs {loader : Option Loader} {resolver : Resolver} {depth : Nat} {src : Source}
    {w w' : Workspace} (h : source resolver (some (Loader.importer loader resolver depth)) src w = .ok () w') :
    Runs resolver (some (Loader.reading loader)) depth src src.start w w' :=
  chunks_runs (Loader.importer_serves loader resolver depth) _ _ _ (Nat.lt_succ_self _) (Nat.le_refl _) h

theorem Build.source_runs_alone {resolver : Resolver} {src : Source} {w w' : Workspace}
    (h : source resolver none src w = .ok () w') : Runs resolver none 0 src src.start w w' :=
  chunks_runs (fun _ he => by cases he) _ _ _ (Nat.lt_succ_self _) (Nat.le_refl _) h

end Polish
