import Polish.Proofs.Grammar

namespace Polish.Parser

open Grammar

theorem close_run {c d : Cursor} {bracket : UInt8} (h : c.Takes bracket d) (why : Malformed) (report : Report) :
    close bracket why ⟨c, report⟩ = .ok () ⟨d, report⟩ := by
  obtain ⟨hb, rfl⟩ := h
  rw [close, bind_ok (skipBlanks_eq _), if_pos hb]
  rfl

theorem untilArrow_nil {α : Type} {item : Parser α} {c d : Cursor} (h : c.TakesArrow d) (n : Nat)
    (report : Report) : untilArrow item (n + 1) ⟨c, report⟩ = .ok [] ⟨d, report⟩ := by
  obtain ⟨ha, rfl⟩ := h
  have hend : c.skipBlanks.atEnd = false := by
    cases hr : c.skipBlanks.rest with
    | nil => rw [Cursor.startsWith, hr] at ha; exact absurd ha (by decide)
    | cons => simp [Cursor.atEnd, hr]
  rw [untilArrow, bind_ok (skipBlanks_eq _)]
  simp only [hend, ha, Bool.false_eq_true, if_false, if_true]
  rfl

theorem untilArrow_cons {α : Type} {item : Parser α} {c d : Cursor} {a : α} {as : List α} {n : Nat}
    {report : Report} {r : Reading} (hend : c.skipBlanks.atEnd = false) (ha : c.skipBlanks.startsWith arrow = false)
    (hitem : item ⟨c.skipBlanks, report⟩ = .ok a ⟨d, report⟩)
    (hrest : untilArrow item n ⟨d, report⟩ = .ok as r) :
    untilArrow item (n + 1) ⟨c, report⟩ = .ok (a :: as) r := by
  rw [untilArrow, bind_ok (skipBlanks_eq _)]
  simp only [hend, ha, Bool.false_eq_true, if_false]
  rw [bind_ok hitem, bind_ok hrest]
  rfl

theorem types_start {c d : Cursor} {t : Ty} {ts : List Ty} (h : Types c (t :: ts) d) :
    c.skipBlanks.atEnd = false ∧ c.skipBlanks.startsWith arrow = false := by
  have hword {word : Bytes} {e : Cursor} (ht : c.token = (word, e)) (hne : word ≠ [])
      (hb : word.head? ≠ some (ascii '=')) :
      c.skipBlanks.atEnd = false ∧ c.skipBlanks.startsWith arrow = false := by
    rw [Cursor.atEnd, Cursor.startsWith, Cursor.skipBlanks_rest_of_token ht]
    cases word with
    | nil => exact absurd rfl hne
    | cons b bs =>
        refine ⟨rfl, ?_⟩
        have hb' : (ascii '=' == b) = false := beq_false_of_ne fun he => hb (by rw [he]; rfl)
        have harrow : arrow = [ascii '=', ascii '>'] := by decide
        simp only [harrow, List.cons_append, List.isPrefixOf, hb', Bool.false_and]
  cases h with
  | @basic _ _ _ word b _ ht hb _ =>
      have hall : ∀ b : Basic, b.name ≠ [] ∧ b.name.head? ≠ some (ascii '=') := by
        intro b
        cases b <;> decide
      have hname : b.name = word := by simpa [Basic.ofWord?] using List.find?_some hb
      exact hword ht (hname ▸ (hall b).1) (hname ▸ (hall b).2)
  | function ht => exact hword ht (by decide) (by decide)
  | array ho =>
      obtain ⟨hb, -⟩ := ho
      cases hr : c.skipBlanks.rest with
      | nil => simp [hr] at hb
      | cons b bs =>
          have hb' : b = ascii '[' := by simpa [hr] using hb
          rw [Cursor.atEnd, Cursor.startsWith, hr, hb']
          exact ⟨rfl, rfl⟩

theorem ty_skipBlanks (src : Source) (depth : Nat) (c : Cursor) (report : Report) :
    ty src (depth + 1) ⟨c.skipBlanks, report⟩ = ty src (depth + 1) ⟨c, report⟩ := by
  simp only [ty, bind_ok (skipBlanks_eq _), Cursor.skipBlanks_idem]

theorem basic_run (src : Source) {c d : Cursor} {word : Bytes} {b : Basic} (ht : c.token = (word, d))
    (hb : Basic.ofWord? word = some b) (depth : Nat) (report : Report) :
    ty src (depth + 1) ⟨c, report⟩ = .ok (.basic b) ⟨d, report⟩ := by
  obtain ⟨q, bs, hrest, -, hq⟩ := Cursor.exists_cons_of_token ht (by rintro rfl; simp [ofWord?_nil] at hb)
  have hne : q ≠ ascii '[' := by rintro rfl; exact absurd hq (by decide)
  rw [ty, bind_ok (skipBlanks_eq _)]
  simp only [hrest, hne, if_false]
  rw [bind_ok (token_eq _)]
  simp only [Cursor.token_skipBlanks, ht, hb]
  rfl

theorem array_run (src : Source) {c d e f : Cursor} {t : Ty} (ho : c.Takes (ascii '[') d) (hc : e.Takes (ascii ']') f)
    {depth : Nat} {report : Report} (ht : ty src depth ⟨d, report⟩ = .ok t ⟨e, report⟩) :
    ty src (depth + 1) ⟨c, report⟩ = .ok (.array t) ⟨f, report⟩ := by
  obtain ⟨hb, rfl⟩ := ho
  obtain ⟨bs, hrest⟩ := List.head?_eq_some_iff.1 hb
  rw [ty, bind_ok (skipBlanks_eq _)]
  simp only [hrest, if_true]
  rw [array, bind_ok (advance_eq _ _), bind_ok ht, bind_ok (close_run hc _ _)]
  rfl

theorem function_run (src : Source) {c d e f : Cursor} {ts : List Ty} {t : Ty} (ht : c.token = (utf8 "anon", d))
    {depth : Nat} {report : Report} (hts : untilArrow (ty src depth) depth ⟨d, report⟩ = .ok ts ⟨e, report⟩)
    (hres : ty src depth ⟨e, report⟩ = .ok t ⟨f, report⟩) :
    ty src (depth + 1) ⟨c, report⟩ = .ok (.function ts t) ⟨f, report⟩ := by
  obtain ⟨q, bs, hrest, -, hq⟩ := Cursor.exists_cons_of_token ht (by decide)
  have hne : q ≠ ascii '[' := by rintro rfl; exact absurd hq (by decide)
  have hword : Basic.ofWord? (utf8 "anon") = none := by decide
  rw [ty, bind_ok (skipBlanks_eq _)]
  simp only [hrest, hne, if_false]
  rw [bind_ok (token_eq _)]
  simp only [Cursor.token_skipBlanks, ht, hword, if_true]
  rw [function, bind_ok hts, bind_ok hres]
  rfl

/-- Reads a list of types in the two ways in which types are read: one alone, or all up to the arrow. -/
def RunsTypes (src : Source) (c : Cursor) (ts : List Ty) (d : Cursor) : Prop :=
  ∀ depth report, c.rest.length < depth →
    (∀ t, ts = [t] → ty src depth ⟨c, report⟩ = .ok t ⟨d, report⟩) ∧
    ∀ n e, c.rest.length < n → d.TakesArrow e → untilArrow (ty src depth) n ⟨c, report⟩ = .ok ts ⟨e, report⟩

theorem RunsTypes.cons {src : Source} {c d e : Cursor} {t : Ty} {ts : List Ty} (h : Types c [t] d)
    (hrest : Types d ts e)
    (hhead : ∀ depth report, c.rest.length < depth → ty src depth ⟨c, report⟩ = .ok t ⟨d, report⟩)
    (htail : RunsTypes src d ts e) : RunsTypes src c (t :: ts) e := by
  have hlt := h.reaches.2 (by simp)
  intro depth report hdepth
  refine ⟨fun t' he => ?_, fun n f hn ha => ?_⟩
  · obtain ⟨rfl, rfl⟩ := List.cons.inj he
    cases hrest
    exact hhead depth report hdepth
  · obtain ⟨hend, harrow⟩ := types_start h
    have hitem := hhead depth report hdepth
    obtain ⟨n, rfl⟩ : ∃ m, n = m + 1 := ⟨n - 1, by omega⟩
    obtain ⟨depth, rfl⟩ : ∃ m, depth = m + 1 := ⟨depth - 1, by omega⟩
    rw [← ty_skipBlanks] at hitem
    exact untilArrow_cons hend harrow hitem ((htail (depth + 1) report (by omega)).2 n f (by omega) ha)

theorem types_run (src : Source) {c d : Cursor} {ts : List Ty} (h : Types c ts d) : RunsTypes src c ts d := by
  induction h with
  | nil c =>
      intro depth report _
      refine ⟨fun t he => (nomatch he), fun n e hn ha => ?_⟩
      obtain ⟨n, rfl⟩ : ∃ m, n = m + 1 := ⟨n - 1, by omega⟩
      exact untilArrow_nil ha n report
  | basic ht hb rest ih =>
      refine RunsTypes.cons (.basic ht hb (.nil _)) rest (fun depth report hdepth => ?_) ih
      obtain ⟨depth, rfl⟩ : ∃ m, depth = m + 1 := ⟨depth - 1, by omega⟩
      exact basic_run src ht hb depth report
  | array ho inner hc rest ih1 ih2 =>
      refine RunsTypes.cons (.array ho inner hc (.nil _)) rest (fun depth report hdepth => ?_) ih2
      have hlt := ho.reaches.2
      obtain ⟨depth, rfl⟩ : ∃ m, depth = m + 1 := ⟨depth - 1, by omega⟩
      exact array_run src ho hc ((ih1 depth report (by omega)).1 _ rfl)
  | function ht hp ha hr rest ih1 ih2 ih3 =>
      refine RunsTypes.cons (.function ht hp ha hr (.nil _)) rest (fun depth report hdepth => ?_) ih3
      have hlt := (Cursor.length_token_lt ht (by decide)).2
      have hle := (hp.reaches.1.trans ha.reaches.1).length_le
      obtain ⟨depth, rfl⟩ : ∃ m, depth = m + 1 := ⟨depth - 1, by omega⟩
      exact function_run src ht ((ih1 depth report (by omega)).2 depth _ (by omega) ha)
        ((ih2 depth report (by omega)).1 _ rfl)

theorem params_run (src : Source) {c d e : Cursor} {ps : List Param} (h : Params c ps d) (ha : d.TakesArrow e)
    {depth n : Nat} (hd : c.rest.length < depth) (hn : c.rest.length < n) (report : Report) :
    untilArrow (param src depth) n ⟨c, report⟩ = .ok ps ⟨e, report⟩ := by
  obtain ⟨n, rfl⟩ : ∃ m, n = m + 1 := ⟨n - 1, by omega⟩
  induction h generalizing n with
  | nil c => exact untilArrow_nil ha n report
  | @cons c d' e' f t name ps hty ht hname harrow rest ih =>
      have hlt := hty.reaches.2 (by simp)
      have hle := (Cursor.length_token_lt ht hname).1.length_le
      obtain ⟨hend, hstart⟩ := types_start hty
      obtain ⟨n, rfl⟩ : ∃ m, n = m + 1 := ⟨n - 1, by omega⟩
      have hitem := ((types_run src hty) depth report hd).1 t rfl
      obtain ⟨depth, rfl⟩ : ∃ m, depth = m + 1 := ⟨depth - 1, by omega⟩
      rw [← ty_skipBlanks] at hitem
      have hbool : (name.isEmpty || arrow.isPrefixOf name) = false := by
        rw [← List.isPrefixOf_iff_prefix, Bool.not_eq_true] at harrow
        simp [hname, harrow]
      refine untilArrow_cons hend hstart ?_ (ih ha (by omega) n (by omega))
      rw [param, bind_ok hitem, bind_ok (skipBlanks_eq _), bind_ok (token_eq _)]
      simp only [Cursor.token_skipBlanks, ht, hbool, Bool.false_eq_true, if_false]
      rfl

theorem string_run {c d : Cursor} {value : Bytes} (h : c.Quoted value d) (report : Report) :
    string ⟨c, report⟩ = .ok value ⟨d, report⟩ := by
  obtain ⟨q, rest, hq, hmem, hrest, rfl⟩ := h
  have htake : (value ++ q :: rest).takeWhile (· != q) = value := by
    rw [List.takeWhile_append_of_pos (fun b hb => by simp; rintro rfl; exact hmem hb)]
    simp
  rw [string, bind_ok (cursor_eq _)]
  simp only [hrest, hq, if_true, htake]
  rw [if_neg (by simp)]
  rfl

theorem unquoted_of_ofToken? {word : Bytes} {value : Double} (h : Double.ofToken? word = some value) (b : UInt8)
    (hb : word.head? = some b) : isQuote b = false := by
  obtain ⟨bs, rfl⟩ := List.head?_eq_some_iff.1 hb
  rw [Bool.eq_false_iff]
  intro hq
  simp only [isQuote, Bool.or_eq_true, decide_eq_true_eq] at hq
  rcases hq with (rfl | rfl) | rfl <;> exact absurd (h : none = some value) nofun

section Exprs

variable {src : Source} {registry : Registry} {scope : Bindings}

theorem times_one {item : Parser Expr} {r r' : Reading} {x : Expr} (h : times item 1 r = .ok [x] r') :
    item r = .ok x r' := by
  cases hi : item r with
  | ok a r1 =>
      have h0 : times item 0 r1 = .ok [] r1 := rfl
      rw [times, bind_ok hi, bind_ok h0] at h
      injection h with h1 h2
      injection h1 with h1
      rw [h1, h2]
  | error s r1 =>
      rw [times] at h
      simp [bind, EStateM.bind, hi] at h

theorem times_cons {item : Parser Expr} {n : Nat} {r r1 r2 : Reading} {x : Expr} {xs : List Expr}
    (hx : item r = .ok x r1) (hxs : times item n r1 = .ok xs r2) : times item (n + 1) r = .ok (x :: xs) r2 := by
  rw [times, bind_ok hx, bind_ok hxs]
  rfl

theorem text_run {c d : Cursor} {value : Bytes} (hq : c.skipBlanks.Quoted value d) (depth : Nat) (report : Report) :
    expr src registry (depth + 1) scope ⟨c, report⟩ =
      .ok (.text (src.locate c.skipBlanks.off) value) ⟨d, report⟩ := by
  obtain ⟨q, rest, hquote, -, hrest, -⟩ := id hq
  rw [expr, bind_ok (skipBlanks_eq _)]
  simp only [hrest, hquote, if_true]
  rw [bind_ok (string_run hq _)]
  rfl

theorem group_run {c d e f : Cursor} {x : Expr} (ho : c.Takes (ascii '(') d) (hc : e.Takes (ascii ')') f)
    {depth : Nat} {report report' : Report}
    (hx : expr src registry depth scope ⟨d, report⟩ = .ok x ⟨e, report'⟩) :
    expr src registry (depth + 1) scope ⟨c, report⟩ = .ok x ⟨f, report'⟩ := by
  obtain ⟨hb, rfl⟩ := ho
  obtain ⟨bs, hrest⟩ := List.head?_eq_some_iff.1 hb
  have hq : isQuote (ascii '(') = false := by decide
  rw [expr, bind_ok (skipBlanks_eq _)]
  simp only [hrest, hq, Bool.false_eq_true, if_false, if_true]
  rw [group, bind_ok (advance_eq _ _), bind_ok hx, bind_ok (close_run hc _ _)]
  rfl

/-- The part of an expression parser after a word that starts neither a string nor a group. -/
theorem word_run {c d : Cursor} {word : Bytes} (ht : c.token = (word, d)) (hne : word ≠ [])
    (hq : ∀ b, word.head? = some b → isQuote b = false) (depth : Nat) (report : Report) :
    expr src registry (depth + 1) scope ⟨c, report⟩ =
      (Double.ofToken? word).elim
        (if word = utf8 "anon" then
            closure src depth (src.locate c.skipBlanks.off) scope (expr src registry depth)
          else name registry (src.locate c.skipBlanks.off) scope word (expr src registry depth scope))
        (fun value => return .number (src.locate c.skipBlanks.off) value) ⟨d, report⟩ := by
  obtain ⟨b, bs, hrest, hhead, hb⟩ := Cursor.exists_cons_of_token ht hne
  have hpar : b ≠ ascii '(' := by rintro rfl; exact absurd hb (by decide)
  have hempty : word.isEmpty = false := by simpa using hne
  rw [expr, bind_ok (skipBlanks_eq _)]
  simp only [hrest, hq b hhead, hpar, Bool.false_eq_true, if_false]
  rw [bind_ok (token_eq _)]
  cases hword : Double.ofToken? word with
  | none => simp only [Cursor.token_skipBlanks, ht, hempty, hword, Bool.false_eq_true, if_false, Option.elim]
  | some value => simp only [Cursor.token_skipBlanks, ht, hempty, hword, Bool.false_eq_true, if_false, Option.elim]

theorem number_run {c d : Cursor} {word : Bytes} {value : Double} (ht : c.token = (word, d))
    (hn : Double.ofToken? word = some value) (depth : Nat) (report : Report) :
    expr src registry (depth + 1) scope ⟨c, report⟩ =
      .ok (.number (src.locate c.skipBlanks.off) value) ⟨d, report⟩ := by
  rw [word_run ht (by rintro rfl; simp [ofToken?_nil] at hn) (unquoted_of_ofToken? hn)]
  rw [hn]
  rfl

theorem unquoted_anon (b : UInt8) (hb : (utf8 "anon").head? = some b) : isQuote b = false := by
  rw [show (utf8 "anon").head? = some (ascii 'a') by decide] at hb
  rw [← Option.some.inj hb]
  decide

theorem closure_run {c d e f g : Cursor} {ps : List Param} {x : Expr} (ht : c.token = (utf8 "anon", d))
    (hp : Params d ps e) (ha : e.TakesArrow f) {depth : Nat} (hd : d.rest.length < depth)
    {report report' : Report}
    (hx : expr src registry depth (scope.bind ps (src.locate f.off)) ⟨f, report⟩ = .ok x ⟨g, report'⟩) :
    expr src registry (depth + 1) scope ⟨c, report⟩ =
      .ok (.closure (src.locate c.skipBlanks.off) ps x) ⟨g, report'⟩ := by
  have hn : Double.ofToken? (utf8 "anon") = none := by decide
  have hps : params src depth ⟨d, report⟩ = .ok ps ⟨f, report⟩ := params_run src hp ha hd hd report
  rw [word_run ht (by decide) unquoted_anon]
  simp only [hn, Option.elim, if_true]
  rw [closure, bind_ok hps, bind_ok (cursor_eq _), bind_ok hx]
  rfl

theorem name_run {c d : Cursor} {word : Bytes} (ht : c.token = (word, d)) (hw : IsName word) (depth : Nat)
    (report : Report) :
    expr src registry (depth + 1) scope ⟨c, report⟩ =
      name registry (src.locate c.skipBlanks.off) scope word (expr src registry depth scope) ⟨d, report⟩ := by
  rw [word_run ht hw.ne_nil hw.unquoted]
  simp only [hw.not_number, hw.not_anon, Option.elim, if_false]

/-- Expressions of the grammar are read, and the report gains their problems. -/
theorem exprs_run {c d : Cursor} {xs : List Expr} {notes : List Diagnostic}
    (h : Exprs src registry scope c xs notes d) (depth : Nat) (hdepth : c.rest.length < depth) (report : Report) :
    times (expr src registry depth scope) xs.length ⟨c, report⟩ = .ok xs ⟨d, ⟨report.entries ++ notes⟩⟩ := by
  induction h generalizing depth report with
  | nil _ c => simp only [List.append_nil]; rfl
  | @text _ c _ _ _ _ _ hq rest ih =>
      have hlt := hq.reaches.2
      have hle := c.reaches_skipBlanks.length_le
      obtain ⟨depth, rfl⟩ : ∃ m, depth = m + 1 := ⟨depth - 1, by omega⟩
      exact times_cons (text_run hq depth report) (ih _ (by omega) report)
  | group ho inner hc rest ih1 ih2 =>
      have hlt := ho.reaches.2
      have hle := (inner.reaches.1.trans hc.reaches.1).length_le
      obtain ⟨depth, rfl⟩ : ∃ m, depth = m + 1 := ⟨depth - 1, by omega⟩
      have hx := times_one (ih1 depth (by omega) report)
      rw [← List.append_assoc]
      exact times_cons (group_run ho hc hx) (ih2 _ (by omega) _)
  | number ht hn rest ih =>
      have hlt := (Cursor.length_token_lt ht (by rintro rfl; simp [ofToken?_nil] at hn)).2
      obtain ⟨depth, rfl⟩ : ∃ m, depth = m + 1 := ⟨depth - 1, by omega⟩
      exact times_cons (number_run ht hn depth report) (ih _ (by omega) report)
  | closure ht hp ha body rest ih1 ih2 =>
      have hlt := (Cursor.length_token_lt ht (by decide)).2
      have hle := (hp.reaches.1.trans ha.reaches.1).length_le
      have hle' := body.reaches.1.length_le
      obtain ⟨depth, rfl⟩ : ∃ m, depth = m + 1 := ⟨depth - 1, by omega⟩
      have hx := times_one (ih1 depth (by omega) report)
      rw [← List.append_assoc]
      exact times_cons (closure_run ht hp ha (by omega) hx) (ih2 _ (by omega) _)
  | bound ht hw hs rest ih =>
      have hlt := (Cursor.length_token_lt ht hw.ne_nil).2
      obtain ⟨depth, rfl⟩ : ∃ m, depth = m + 1 := ⟨depth - 1, by omega⟩
      refine times_cons ?_ (ih _ (by omega) report)
      rw [name_run ht hw, name, hs]
      rfl
  | unresolved ht hw hs hr rest ih =>
      have hlt := (Cursor.length_token_lt ht hw.ne_nil).2
      obtain ⟨depth, rfl⟩ : ∃ m, depth = m + 1 := ⟨depth - 1, by omega⟩
      rw [List.append_cons]
      refine times_cons ?_ (ih _ (by omega) _)
      rw [name_run ht hw, name, hs]
      simp only [hr]
      rfl
  | call ht hw hs hr hl hargs rest ih1 ih2 =>
      have hlt := (Cursor.length_token_lt ht hw.ne_nil).2
      have hle := hargs.reaches.1.length_le
      obtain ⟨depth, rfl⟩ : ∃ m, depth = m + 1 := ⟨depth - 1, by omega⟩
      rw [← List.append_assoc]
      refine times_cons ?_ (ih2 _ (by omega) _)
      rw [name_run ht hw, name, hs]
      simp only [hr]
      rw [bind_ok (hl ▸ ih1 depth (by omega) report)]
      rfl

theorem expr_run {c d : Cursor} {x : Expr} {notes : List Diagnostic} (h : Exprs src registry scope c [x] notes d)
    {depth : Nat} (hdepth : c.rest.length < depth) (report : Report) :
    expr src registry depth scope ⟨c, report⟩ = .ok x ⟨d, ⟨report.entries ++ notes⟩⟩ :=
  times_one (exprs_run h depth hdepth report)

end Exprs

end Polish.Parser
