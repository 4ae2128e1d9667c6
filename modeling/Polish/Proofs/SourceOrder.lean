import Polish.Proofs.Rounds

namespace Polish

/-- Diagnostics of a source between two offsets of its text, none of them before an earlier one. -/
structure InOrder (src : Source) (lo hi : Nat) (notes : List Diagnostic) : Prop where
  placed : ∀ d ∈ notes, ∃ off, d.location = src.locate off ∧ lo ≤ off ∧ off ≤ hi
  sorted : notes.Pairwise fun a b => a.location.off ≤ b.location.off

namespace InOrder

variable {src : Source} {lo mid hi : Nat} {notes notes' : List Diagnostic}

theorem nil (src : Source) (lo hi : Nat) : InOrder src lo hi [] := ⟨List.forall_mem_nil _, .nil⟩

theorem singleton {d : Diagnostic} {off : Nat} (hd : d.location = src.locate off) (hlo : lo ≤ off) (hhi : off ≤ hi) :
    InOrder src lo hi [d] :=
  ⟨List.forall_mem_singleton.2 ⟨off, hd, hlo, hhi⟩, List.pairwise_singleton _ d⟩

theorem append (h : InOrder src lo mid notes) (h' : InOrder src mid hi notes') (hlo : lo ≤ mid) (hhi : mid ≤ hi) :
    InOrder src lo hi (notes ++ notes') := by
  refine ⟨fun d hd => ?_, List.pairwise_append.2 ⟨h.sorted, h'.sorted, fun a ha b hb => ?_⟩⟩
  · obtain hd | hd := List.mem_append.1 hd
    · obtain ⟨off, hoff, h1, h2⟩ := h.placed d hd
      exact ⟨off, hoff, h1, Nat.le_trans h2 hhi⟩
    · obtain ⟨off, hoff, h1, h2⟩ := h'.placed d hd
      exact ⟨off, hoff, Nat.le_trans hlo h1, h2⟩
  · obtain ⟨i, hi, -, hle⟩ := h.placed a ha
    obtain ⟨j, hj, hge, -⟩ := h'.placed b hb
    rw [hi, hj]
    exact Int.ofNat_le.2 (Nat.le_trans hle hge)

end InOrder

/-- A later state of the same reading. What is reported in between, with what is still to be reported of it, is in the
order of the text. -/
structure Reading.Advances (src : Source) (r : Reading) (later : List Diagnostic) (r' : Reading) : Prop where
  cursor : r.cursor.Reaches r'.cursor
  notes : ∃ notes, r'.report.entries = r.report.entries ++ notes ∧
    InOrder src r.cursor.off r'.cursor.off (notes ++ later)

namespace Reading

variable {src : Source} {r r' r'' : Reading} {later : List Diagnostic}

theorem advances_of_reaches (src : Source) {c d : Cursor} (report : Report) (h : c.Reaches d) :
    Advances src ⟨c, report⟩ [] ⟨d, report⟩ :=
  ⟨h, [], (List.append_nil _).symm, .nil src _ _⟩

theorem Advances.refl (src : Source) (r : Reading) : r.Advances src [] r := advances_of_reaches src _ (.refl _)

theorem Advances.trans (h : r.Advances src [] r') (h' : r'.Advances src later r'') : r.Advances src later r'' := by
  obtain ⟨notes, hrep, hnotes⟩ := h.notes
  obtain ⟨notes', hrep', hnotes'⟩ := h'.notes
  rw [List.append_nil] at hnotes
  refine ⟨h.cursor.trans h'.cursor, notes ++ notes', by rw [hrep', hrep, List.append_assoc], ?_⟩
  rw [List.append_assoc]
  exact hnotes.append hnotes' h.cursor.off_le h'.cursor.off_le

theorem Advances.stops {d : Cursor} (h : r.Advances src [] r') (h' : r'.cursor.Reaches d) (why : Malformed) :
    r.Advances src (Stop.problems src (.malformed r'.cursor.off why)) ⟨d, r'.report⟩ :=
  h.trans ⟨h', [], (List.append_nil _).symm, .singleton rfl (Nat.le_refl _) h'.off_le⟩

theorem Advances.noted {d : Cursor} (h : r.Advances src [] r') (h' : r'.cursor.Reaches d) {note : Diagnostic}
    (hnote : note.location = src.locate r'.cursor.off) : r.Advances src [] ⟨d, r'.report.add note⟩ :=
  h.trans ⟨h', [note], rfl, .singleton hnote (Nat.le_refl _) h'.off_le⟩

end Reading

namespace Parser

variable {α β : Type}

def GoesOn (src : Source) (r : Reading) (p : Parser α) (r' : Reading) : Prop :=
  p.Ensures r' (fun _ r'' => r.Advances src [] r'') fun s r'' => r.Advances src (s.problems src) r''

def Orderly (src : Source) (p : Parser α) : Prop := ∀ r, GoesOn src r p r

variable {src : Source} {p : Parser α} {r r' : Reading}

theorem Orderly.goesOn (hp : p.Orderly src) (h : r.Advances src [] r') : GoesOn src r p r' :=
  (hp r').mono (fun _ _ h' => h.trans h') fun _ _ h' => h.trans h'

theorem GoesOn.bind {f : α → Parser β} (h : GoesOn src r p r') (hf : ∀ a, (f a).Orderly src) :
    GoesOn src r (p >>= f) r' := by
  rw [GoesOn, ensures_bind]
  exact Ensures.mono h (fun a _ h' => (hf a).goesOn h') fun _ _ h' => h'

theorem orderly_pure (src : Source) (a : α) : (pure a : Parser α).Orderly src := fun r => .refl src r

theorem orderly_throw_reported (src : Source) : (throw .reported : Parser α).Orderly src := fun r => .refl src r

theorem close_orderly (src : Source) (bracket : UInt8) (why : Malformed) : (close bracket why).Orderly src := by
  intro r
  have hs := r.cursor.reaches_skipBlanks
  simp only [GoesOn, close, ensures_skipBlanks_bind]
  split
  · rename_i hb
    have htakes : r.cursor.Takes bracket (r.cursor.skipBlanks.advance 1) := ⟨hb, rfl⟩
    exact Reading.advances_of_reaches src r.report htakes.reaches.1
  · exact (Reading.advances_of_reaches src r.report hs).stops (.refl _) why

theorem string_orderly (src : Source) : string.Orderly src := by
  intro r
  have hr := Reading.Advances.refl src r
  simp only [GoesOn, string, ensures_cursor_bind]
  split
  · exact hr.stops (.refl _) _
  · rename_i quote rest hrest
    split
    · split
      · exact hr.stops (r.cursor.reaches_advance (Nat.le_refl _)) _
      · rename_i hlen
        refine Reading.advances_of_reaches src r.report (r.cursor.reaches_advance ?_)
        have hle := (List.takeWhile_prefix (l := rest) (· != quote)).length_le
        rw [hrest, List.length_cons]
        omega
    · exact hr.stops (.refl _) _

theorem untilArrow_orderly {item : Parser α} (hitem : item.Orderly src) (n : Nat) :
    (untilArrow item n).Orderly src := by
  induction n with
  | zero => exact orderly_throw_reported src
  | succ n ih =>
      intro r
      have hs := Reading.advances_of_reaches src r.report r.cursor.reaches_skipBlanks
      simp only [GoesOn, untilArrow, ensures_skipBlanks_bind]
      split
      · exact hs.stops (.refl _) _
      · split
        · rename_i ha
          have harrow : r.cursor.TakesArrow (r.cursor.skipBlanks.advance arrow.length) := ⟨ha, rfl⟩
          exact Reading.advances_of_reaches src r.report harrow.reaches.1
        · exact (hitem.goesOn hs).bind fun a => fun r' => (ih r').bind fun as => orderly_pure src (a :: as)

theorem times_orderly {item : Parser α} (hitem : item.Orderly src) (n : Nat) : (times item n).Orderly src := by
  induction n with
  | zero => exact orderly_pure src []
  | succ n ih => exact fun r => (hitem r).bind fun a => fun r' => (ih r').bind fun as => orderly_pure src (a :: as)

/-- What stands between two brackets; the first one is still to be read. -/
theorem bracketed_goesOn {inner : Parser α} (hinner : inner.Orderly src) {c : Cursor} {report : Report} {b : UInt8}
    {bs : Bytes} (hrest : c.rest = b :: bs) (hr : r.Advances src [] ⟨c, report⟩) (bracket : UInt8) (why : Malformed)
    (f : α → β) :
    GoesOn src r (do advance 1; let x ← inner; close bracket why; return f x) ⟨c, report⟩ := by
  have hc : c.Reaches (c.advance 1) := c.reaches_advance (by rw [hrest]; exact Nat.succ_pos _)
  simp only [GoesOn, ensures_advance_bind]
  exact (hinner.goesOn (hr.trans (Reading.advances_of_reaches src report hc))).bind fun x => fun r' =>
    (close_orderly src bracket why r').bind fun _ => orderly_pure src (f x)

theorem function_orderly {item : Parser Ty} (hitem : item.Orderly src) (depth : Nat) :
    (function depth item).Orderly src := fun r =>
  (untilArrow_orderly hitem depth r).bind fun params => fun r' =>
    (hitem r').bind fun result => orderly_pure src (Ty.function params result)

theorem ty_orderly (src : Source) (depth : Nat) : (ty src depth).Orderly src := by
  induction depth with
  | zero => exact orderly_throw_reported src
  | succ depth ih =>
      intro r
      have hs := Reading.advances_of_reaches src r.report r.cursor.reaches_skipBlanks
      simp only [GoesOn, ty, ensures_skipBlanks_bind]
      split
      · exact hs.stops (.refl _) _
      · rename_i b bs hrest
        split
        · exact bracketed_goesOn ih hrest hs _ _ _
        · simp only [ensures_token_bind, Cursor.token_skipBlanks]
          have ht := hs.trans (Reading.advances_of_reaches src r.report r.cursor.reaches_token)
          split
          · exact ht
          · split
            · exact (function_orderly ih depth).goesOn ht
            · simp only [ensures_note_bind, ensures_throw]
              -- an unknown type is reported at once, so that the stop has nothing to add
              exact hs.noted r.cursor.reaches_token rfl

theorem param_orderly (src : Source) (depth : Nat) : (param src depth).Orderly src := by
  intro r
  refine (ty_orderly src depth r).bind fun t r' => ?_
  have hs := Reading.advances_of_reaches src r'.report r'.cursor.reaches_skipBlanks
  simp only [GoesOn, ensures_skipBlanks_bind, ensures_token_bind, Cursor.token_skipBlanks]
  split
  · exact hs.stops r'.cursor.reaches_token _
  · exact hs.trans (Reading.advances_of_reaches src r'.report r'.cursor.reaches_token)

theorem params_orderly (src : Source) (depth : Nat) : (params src depth).Orderly src :=
  untilArrow_orderly (param_orderly src depth) depth

theorem closure_orderly {body : Bindings → Parser Expr} (hbody : ∀ scope, (body scope).Orderly src) (depth : Nat)
    (l : Location) (scope : Bindings) : (closure src depth l scope body).Orderly src := by
  intro r
  refine (params_orderly src depth r).bind fun ps r' => ?_
  simp only [GoesOn, ensures_cursor_bind]
  exact (hbody _ r').bind fun x => orderly_pure src (Expr.closure l ps x)

theorem name_goesOn {item : Parser Expr} (hitem : item.Orderly src) (registry : Registry) (scope : Bindings)
    (word : Bytes) {d : Cursor} (hr : r.Advances src [] r') (hd : r'.cursor.Reaches d) :
    GoesOn src r (name registry (src.locate r'.cursor.off) scope word item) ⟨d, r'.report⟩ := by
  have ht := hr.trans (Reading.advances_of_reaches src r'.report hd)
  unfold name
  split
  · exact ht
  · split
    -- a name without a meaning is reported where it starts, when it is read already
    · exact hr.noted hd rfl
    · exact ((times_orderly hitem _).goesOn ht).bind fun args => orderly_pure src _

theorem expr_orderly (src : Source) (registry : Registry) (depth : Nat) (scope : Bindings) :
    (expr src registry depth scope).Orderly src := by
  induction depth generalizing scope with
  | zero => exact orderly_throw_reported src
  | succ depth ih =>
      intro r
      have hs := Reading.advances_of_reaches src r.report r.cursor.reaches_skipBlanks
      simp only [GoesOn, expr, ensures_skipBlanks_bind]
      split
      · exact hs.stops (.refl _) _
      · rename_i b bs hrest
        split
        · exact ((string_orderly src).goesOn hs).bind fun value => orderly_pure src _
        · split
          · exact bracketed_goesOn (ih scope) hrest hs _ _ id
          · simp only [ensures_token_bind, Cursor.token_skipBlanks]
            have ht := hs.trans (Reading.advances_of_reaches src r.report r.cursor.reaches_token)
            split
            · exact hs.stops r.cursor.reaches_token _
            · split
              · exact ht
              · split
                · exact (closure_orderly ih depth _ scope).goesOn ht
                · exact name_goesOn (ih scope) registry scope _ hs r.cursor.reaches_token

end Parser

namespace Build

variable {resolver : Resolver} {src : Source} {c d : Cursor} {w w' : Workspace} {stop : Option Stop}

theorem signature_orderly (src : Source) : (signature src).Orderly src := by
  intro r
  have hs := Reading.advances_of_reaches src r.report r.cursor.reaches_skipBlanks
  simp only [Parser.GoesOn, signature, Parser.ensures_skipBlanks_bind, Parser.ensures_token_bind,
    Cursor.token_skipBlanks]
  split
  · exact hs.stops r.cursor.reaches_token _
  · have ht := hs.trans (Reading.advances_of_reaches src r.report r.cursor.reaches_token)
    have ht' := ht.trans (Reading.advances_of_reaches src r.report (Cursor.reaches_skipBlanks _))
    simp only [Parser.ensures_skipBlanks_bind]
    exact ((Parser.params_orderly src _).goesOn ht').bind fun ps => Parser.orderly_pure src _

theorem definition_advances {name : Bytes} {location : Location} {params : List Param}
    (h : definition src name location params c w = .ok (stop, d) w') :
    Reading.Advances src ⟨c, w.report⟩ (remarks src stop) ⟨d, w'.report⟩ := by
  -- a name that is declared again is reported before anything in the body
  have hdup : Reading.Advances src ⟨c, w.report⟩ []
      ⟨c, ⟨w.report.entries ++ w.registry.duplicates name (src.locate c.off)⟩⟩ := by
    refine ⟨.refl c, _, rfl, ?_⟩
    rw [List.append_nil, Registry.duplicates]
    split
    · exact .singleton rfl (Nat.le_refl _) (Nat.le_refl _)
    · exact .nil src _ _
  have hexpr := (Parser.expr_orderly src (w.registry.declare (.awaiting name params location)) (src.text.length + 1)
    (Parser.Bindings.bind [] params (src.locate c.off))).goesOn hdup
  rw [definition_eq, body_eq src name location params c w.registry _ rfl] at h
  split at h
  · rename_i s r hx
    cases h
    exact hexpr.error hx
  · rename_i x r hx
    cases h
    exact hexpr.ok hx

theorem declaration_advances (h : declaration src c w = .ok (stop, d) w') :
    Reading.Advances src ⟨c, w.report⟩ (remarks src stop) ⟨d, w'.report⟩ := by
  have hsig := signature_orderly src ⟨c, w.report⟩
  rw [declaration] at h
  cases hx : signature src ⟨c, w.report⟩ with
  | error s r =>
      rw [bind_ok (parsing_error hx)] at h
      cases h
      exact hsig.error hx
  | ok sig r =>
      rw [bind_ok (parsing_ok hx)] at h
      exact (hsig.ok hx).trans (definition_advances h)

theorem importation_advances (h : importation resolver none src c w = .ok (stop, d) w') :
    Reading.Advances src ⟨c, w.report⟩ (remarks src stop) ⟨d, w'.report⟩ := by
  have hs := Reading.advances_of_reaches src w.report c.reaches_skipBlanks
  have hstring := (Parser.string_orderly src).goesOn hs
  simp only [importation] at h
  cases hx : Parser.string ⟨c.skipBlanks, w.report⟩ with
  | error s r =>
      rw [bind_ok (parsing_error hx)] at h
      cases h
      exact hstring.error hx
  | ok target r =>
      obtain ⟨hrep, hq⟩ := (Parser.string_ensures 0 _).ok hx
      simp only [bind_ok (parsing_ok hx), hrep] at h
      -- the target is refused, or imports are not supported: either is reported where the target starts
      cases hp : resolver.resolve src.path target
      all_goals
        simp only [hp, note, modify_bind] at h
        cases h
        exact hs.noted hq.reaches.1 rfl

theorem chunk_advances (h : chunk resolver none src c w = .ok (stop, d) w') :
    Reading.Advances src ⟨c, w.report⟩ (remarks src stop) ⟨d, w'.report⟩ := by
  have hword := c.reaches_skipBlanks.trans c.reaches_token
  have ht := Reading.advances_of_reaches src w.report hword
  simp only [chunk] at h
  split at h
  · exact ht.trans (declaration_advances h)
  · split at h
    · exact ht.trans (importation_advances h)
    · cases h
      exact (Reading.Advances.refl src ⟨c, w.report⟩).stops hword _

/-- A chunk with what is reported of it when it is over and the way to the next one. -/
theorem onward_advances (h : chunk resolver none src c.skipBlanks w = .ok (stop, d) w') :
    Reading.Advances src ⟨c, w.report⟩ [] ⟨onward src stop d, (w'.record (remarks src stop)).report⟩ := by
  have hreach : d.Reaches (onward src stop d) := by
    cases stop with
    | none => exact .refl d
    | some s => exact resync_reaches _ d
  have hchunk := (Reading.advances_of_reaches src w.report c.reaches_skipBlanks).trans (chunk_advances h)
  obtain ⟨notes, hrep, hnotes⟩ := hchunk.notes
  refine ⟨hchunk.cursor.trans hreach, notes ++ remarks src stop, ?_, ?_⟩
  · rw [Workspace.record, hrep, List.append_assoc]
  · exact hnotes.append (.nil src _ _) hchunk.cursor.off_le hreach.off_le

theorem chunks_advances (n : Nat) (h : chunks resolver none src n c w = .ok () w') :
    ∃ d, Reading.Advances src ⟨c, w.report⟩ [] ⟨d, w'.report⟩ := by
  induction n generalizing c w with
  | zero =>
      cases h
      exact ⟨c, .refl src _⟩
  | succ n ih =>
      by_cases hend : c.skipBlanks.atEnd = true
      · simp only [chunks, hend, if_true] at h
        cases h
        exact ⟨c, .refl src _⟩
      · obtain ⟨stop, d, w₁, hchunk⟩ : ∃ stop d w₁, chunk resolver none src c.skipBlanks w = .ok (stop, d) w₁ :=
          chunk_total resolver (fun _ he => by cases he) src c.skipBlanks w
        rw [chunks_succ (by simpa using hend) hchunk] at h
        obtain ⟨e, he⟩ := ih h
        exact ⟨e, (onward_advances hchunk).trans he⟩

/-- Reading a source on its own always comes to an end. All that it adds to the report has its place in the text, in the
order of the text; if it adds nothing, there is no problem in the source. -/
theorem source_report_in_order (resolver : Resolver) (src : Source) (w : Workspace) :
    ∃ w' notes, source resolver none src w = .ok () w' ∧ w'.report.entries = w.report.entries ++ notes ∧
      (∀ d ∈ notes, d.location.path = src.path ∧ d.location.text = src.text ∧ 0 ≤ d.location.off ∧
        d.location.off ≤ src.text.length) ∧
      (notes.Pairwise fun a b => a.location.off ≤ b.location.off) ∧
      (notes = [] → CleanRuns resolver none 0 src src.start w w') := by
  obtain ⟨w', h⟩ : ∃ w', source resolver none src w = .ok () w' := chunks_total (fun _ he => by cases he) src _ _ w
  obtain ⟨d, hd⟩ := chunks_advances _ h
  obtain ⟨notes, hrep, hnotes⟩ := hd.notes
  rw [List.append_nil] at hnotes
  refine ⟨w', notes, h, hrep, fun note hnote => ?_, hnotes.sorted, ?_⟩
  · obtain ⟨off, hoff, -, hle⟩ := hnotes.placed note hnote
    have hlen := hd.cursor.off_add_length
    simp only [Source.start, Nat.zero_add] at hlen hle
    rw [hoff]
    exact ⟨rfl, rfl, Int.natCast_nonneg off, Int.ofNat_le.2 (by omega)⟩
  · rintro rfl
    exact (source_runs_alone h).clean_of_same (hrep.trans (List.append_nil _))

end Build

end Polish
