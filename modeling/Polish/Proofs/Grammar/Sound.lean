import Polish.Proofs.Grammar

namespace Polish

structure Reading.Extends (r r' : Reading) : Prop where
  cursor : r.cursor.Reaches r'.cursor
  report : r.report.entries <+: r'.report.entries

def Reading.Stops (depth : Nat) (r : Reading) (s : Stop) (r' : Reading) : Prop :=
  r.Extends r' ∧ (r.cursor.rest.length < depth → s = .reported →
    r.report.entries.length < r'.report.entries.length)

namespace Reading

theorem Extends.refl (r : Reading) : r.Extends r := ⟨.refl _, List.prefix_refl _⟩

theorem Extends.trans {r r' r'' : Reading} (h : r.Extends r') (h' : r'.Extends r'') : r.Extends r'' :=
  ⟨h.cursor.trans h'.cursor, h.report.trans h'.report⟩

theorem extends_of_reaches {c d : Cursor} (report : Report) (h : c.Reaches d) :
    (⟨c, report⟩ : Reading).Extends ⟨d, report⟩ := ⟨h, List.prefix_refl _⟩

theorem Extends.stops_malformed {depth off : Nat} {why : Malformed} {r r' : Reading} (h : r.Extends r') :
    r.Stops depth (.malformed off why) r' := ⟨h, fun _ he => nomatch he⟩

theorem Stops.of_extends {m n : Nat} {s : Stop} {r r' r'' : Reading} (h : r.Extends r')
    (hlt : r.cursor.rest.length < n → r'.cursor.rest.length < m) (hs : r'.Stops m s r'') : r.Stops n s r'' :=
  ⟨h.trans hs.1, fun hn he => Nat.lt_of_le_of_lt h.report.length_le (hs.2 (hlt hn) he)⟩

end Reading

namespace Parser

open Grammar

theorem close_ensures (bracket : UInt8) (why : Malformed) (depth : Nat) (r : Reading) :
    (close bracket why).Ensures r
      (fun _ r' => r'.report = r.report ∧ r.cursor.Takes bracket r'.cursor) (r.Stops depth) := by
  simp only [close, ensures_skipBlanks_bind]
  split
  · rename_i h
    exact ⟨rfl, h, rfl⟩
  · exact (Reading.extends_of_reaches r.report r.cursor.reaches_skipBlanks).stops_malformed

section UntilArrow

variable {α : Type} {item : Parser α} (Items : Cursor → List α → Cursor → Prop)

/-- Items up to the arrow, from what is known of one item. -/
theorem untilArrow_ensures (depth : Nat) (hnil : ∀ c, Items c [] c)
    (hcons : ∀ c a d as e, Items c.skipBlanks [a] d → Items d as e → Items c (a :: as) e)
    (hone : ∀ c a d, Items c [a] d → c.Reaches d ∧ d.rest.length < c.rest.length)
    (hitem : ∀ r, item.Ensures r (fun a r' => r'.report = r.report ∧ Items r.cursor [a] r'.cursor) (r.Stops depth))
    (n : Nat) (r : Reading) :
    (untilArrow item n).Ensures r
      (fun as r' => r'.report = r.report ∧ ∃ d, Items r.cursor as d ∧ d.TakesArrow r'.cursor)
      (r.Stops (min depth n)) := by
  induction n generalizing r with
  | zero => exact ⟨.refl r, fun h => absurd h (by omega)⟩
  | succ n ih =>
      have hs : r.Extends ⟨r.cursor.skipBlanks, r.report⟩ :=
        Reading.extends_of_reaches r.report r.cursor.reaches_skipBlanks
      have hslen := hs.cursor.length_le
      simp only [untilArrow, ensures_skipBlanks_bind]
      split
      · exact hs.stops_malformed
      · split
        · rename_i ha
          exact ⟨rfl, r.cursor, hnil _, ha, rfl⟩
        · rw [ensures_bind]
          refine (hitem _).mono ?_ ?_
          · rintro a r1 ⟨hrep, h1⟩
            obtain ⟨hreach, hlt⟩ := hone _ _ _ h1
            have he : r.Extends r1 := hs.trans ⟨hreach, by simp [hrep]⟩
            rw [ensures_bind]
            refine (ih r1).mono ?_ ?_
            · rintro as r2 ⟨hrep2, d, hm, ha⟩
              exact ⟨hrep2.trans hrep, d, hcons _ _ _ _ _ h1 hm, ha⟩
            · intro s r2 h2
              refine Reading.Stops.of_extends he (fun hl => ?_) h2
              simp only at hlt hslen
              omega
          · intro s r1 h1
            refine Reading.Stops.of_extends hs (fun hl => ?_) h1
            simp only at hslen ⊢
            omega

end UntilArrow

section Types

variable {depth : Nat} {item : Parser Ty}

theorem array_ensures {c : Cursor} {report : Report} (hb : c.skipBlanks.rest.head? = some (ascii '['))
    (hitem : ∀ r, item.Ensures r (fun t r' => r'.report = r.report ∧ Types r.cursor [t] r'.cursor) (r.Stops depth)) :
    (array item).Ensures ⟨c.skipBlanks, report⟩ (fun t r' => r'.report = report ∧ Types c [t] r'.cursor)
      (Reading.Stops (depth + 1) ⟨c, report⟩) := by
  have ho : c.Takes (ascii '[') (c.skipBlanks.advance 1) := ⟨hb, rfl⟩
  have he : Reading.Extends ⟨c, report⟩ ⟨c.skipBlanks.advance 1, report⟩ :=
    Reading.extends_of_reaches report ho.reaches.1
  have hlt := ho.reaches.2
  simp only [array, ensures_advance_bind]
  rw [ensures_bind]
  refine (hitem _).mono ?_ (fun s r h => .of_extends he (fun hl => by simp only at hl ⊢; omega) h)
  rintro t r ⟨hrep, ht⟩
  rw [ensures_bind]
  refine (close_ensures _ _ depth r).mono ?_ ?_
  · rintro _ r' ⟨hrep', hc⟩
    exact ⟨hrep'.trans hrep, .array ho ht hc (.nil _)⟩
  · intro s r' h
    have hle := ht.reaches.1.length_le
    refine .of_extends (he.trans ⟨ht.reaches.1, by simp [hrep]⟩) (fun hl => ?_) h
    simp only at hle hl
    omega

theorem function_ensures {c d : Cursor} {report : Report} (ht : c.token = (utf8 "anon", d))
    (hitem : ∀ r, item.Ensures r (fun t r' => r'.report = r.report ∧ Types r.cursor [t] r'.cursor) (r.Stops depth)) :
    (function depth item).Ensures ⟨d, report⟩ (fun t r' => r'.report = report ∧ Types c [t] r'.cursor)
      (Reading.Stops (depth + 1) ⟨c, report⟩) := by
  obtain ⟨hreach, hlt⟩ := Cursor.length_token_lt ht (by decide)
  have he : Reading.Extends ⟨c, report⟩ ⟨d, report⟩ := Reading.extends_of_reaches report hreach
  simp only [function]
  rw [ensures_bind]
  refine (untilArrow_ensures Types depth Types.nil (fun c a d as e h h' => h.of_skipBlanks.append h')
    (fun c a d h => ⟨h.reaches.1, h.reaches.2 (by simp)⟩) hitem depth _).mono ?_ ?_
  · rintro ts r ⟨hrep, e, hts, ha⟩
    have hr := hts.reaches.1.trans ha.reaches.1
    rw [ensures_bind]
    refine (hitem r).mono ?_ ?_
    · rintro t r' ⟨hrep', hres⟩
      exact ⟨hrep'.trans hrep, .function ht hts ha hres (.nil _)⟩
    · intro s r' h
      have hle := hr.length_le
      refine .of_extends (he.trans ⟨hr, by simp [hrep]⟩) (fun hl => ?_) h
      simp only at hle hl
      omega
  · intro s r h
    exact .of_extends he (fun hl => by simp only at hl ⊢; omega) h

theorem ty_ensures (src : Source) (depth : Nat) (r : Reading) :
    (ty src depth).Ensures r (fun t r' => r'.report = r.report ∧ Types r.cursor [t] r'.cursor)
      (r.Stops depth) := by
  induction depth generalizing r with
  | zero => exact ⟨.refl r, fun h => absurd h (Nat.not_lt_zero _)⟩
  | succ depth ih =>
      have hs : r.Extends ⟨r.cursor.skipBlanks, r.report⟩ :=
        Reading.extends_of_reaches r.report r.cursor.reaches_skipBlanks
      simp only [ty, ensures_skipBlanks_bind]
      split
      · exact hs.stops_malformed
      · rename_i b bs hrest
        split
        · rename_i hb
          exact array_ensures (by rw [hrest, hb]; rfl) ih
        · simp only [ensures_token_bind, Cursor.token_skipBlanks]
          have htok : r.cursor.token = (r.cursor.token.1, r.cursor.token.2) := rfl
          split
          · rename_i hw
            exact ⟨rfl, .basic htok hw (.nil _)⟩
          · split
            · rename_i hw
              exact function_ensures (hw ▸ htok) ih
            · simp only [ensures_note_bind, ensures_throw]
              refine ⟨⟨hs.cursor.trans r.cursor.reaches_token, ?_⟩, fun _ _ => ?_⟩
              · exact List.prefix_append _ _
              · simp [Report.add]

end Types

theorem param_ensures (src : Source) (depth : Nat) (r : Reading) :
    (param src depth).Ensures r (fun p r' => r'.report = r.report ∧ Params r.cursor [p] r'.cursor)
      (r.Stops depth) := by
  simp only [param]
  rw [ensures_bind]
  refine (ty_ensures src depth r).mono ?_ (fun s r' h => h)
  rintro t r1 ⟨hrep, ht⟩
  have he : r.Extends r1 := ⟨ht.reaches.1, by simp [hrep]⟩
  simp only [ensures_skipBlanks_bind, ensures_token_bind, Cursor.token_skipBlanks]
  split
  · refine (he.trans ?_).stops_malformed
    exact Reading.extends_of_reaches r1.report (r1.cursor.reaches_skipBlanks.trans r1.cursor.reaches_token)
  · rename_i hn
    simp only [Bool.or_eq_true, List.isEmpty_iff, List.isPrefixOf_iff_prefix, not_or] at hn
    exact ⟨hrep, .cons ht rfl hn.1 hn.2 (.nil _)⟩

theorem params_ensures (src : Source) (depth : Nat) (r : Reading) :
    (params src depth).Ensures r
      (fun ps r' => r'.report = r.report ∧ ∃ d, Params r.cursor ps d ∧ d.TakesArrow r'.cursor)
      (r.Stops depth) := by
  have h := untilArrow_ensures Params depth Params.nil
    (fun c a d as e h h' => h.of_skipBlanks.append h')
    (fun c a d h => ⟨h.reaches.1, h.reaches.2 (by simp)⟩) (param_ensures src depth) depth r
  rwa [Nat.min_self] at h

theorem string_ensures (depth : Nat) (r : Reading) :
    string.Ensures r (fun value r' => r'.report = r.report ∧ r.cursor.Quoted value r'.cursor)
      (r.Stops depth) := by
  simp only [string, ensures_cursor_bind]
  split
  · exact (Reading.Extends.refl r).stops_malformed
  · rename_i quote rest hrest
    split
    · rename_i hquote
      split
      · rename_i hlen
        have hr : r.cursor.Reaches (r.cursor.advance r.cursor.rest.length) :=
          r.cursor.reaches_advance (Nat.le_refl _)
        exact (Reading.extends_of_reaches r.report hr).stops_malformed
      · rename_i hlen
        have hsplit := List.takeWhile_append_dropWhile (p := (· != quote)) (l := rest)
        obtain ⟨b, bs, hd⟩ : ∃ b bs, rest.dropWhile (· != quote) = b :: bs := by
          cases hd : rest.dropWhile (· != quote) with
          | nil => rw [hd, List.append_nil] at hsplit; exact absurd (congrArg List.length hsplit) hlen
          | cons b bs => exact ⟨b, bs, rfl⟩
        have hb : b = quote := by
          have := List.head?_dropWhile_not (· != quote) rest
          simpa [hd] using this
        refine ⟨rfl, quote, bs, hquote, fun hmem => ?_, ?_, rfl⟩
        · simpa using List.all_eq_true.1 (List.all_takeWhile (p := (· != quote)) (l := rest)) _ hmem
        · rw [hrest, ← hb, ← hd, hb, hsplit]
    · exact (Reading.Extends.refl r).stops_malformed

/-- The expressions between two readings; their problems are what the report gains. -/
def ReadsExprs (src : Source) (registry : Registry) (scope : Bindings) (r : Reading) (xs : List Expr)
    (r' : Reading) : Prop :=
  ∃ notes, r'.report.entries = r.report.entries ++ notes ∧
    Exprs src registry scope r.cursor xs notes r'.cursor

section Exprs

variable {src : Source} {registry : Registry} {scope : Bindings} {depth : Nat} {item : Parser Expr}

theorem ReadsExprs.extends {r r' : Reading} {xs : List Expr} (h : ReadsExprs src registry scope r xs r') :
    r.Extends r' := by
  obtain ⟨notes, hrep, hxs⟩ := h
  exact ⟨hxs.reaches.1, by simp [hrep]⟩

theorem times_ensures
    (hitem : ∀ r, item.Ensures r (fun x r' => ReadsExprs src registry scope r [x] r') (r.Stops depth))
    (n : Nat) (r : Reading) :
    (times item n).Ensures r (fun xs r' => xs.length = n ∧ ReadsExprs src registry scope r xs r')
      (r.Stops depth) := by
  induction n generalizing r with
  | zero => exact ⟨rfl, [], by simp, .nil _ _⟩
  | succ n ih =>
      simp only [times]
      rw [ensures_bind]
      refine (hitem r).mono ?_ (fun s r' h => h)
      intro x r1 hx
      have he := hx.extends
      rw [ensures_bind]
      refine (ih r1).mono ?_ (fun s r2 h => .of_extends he (Nat.lt_of_le_of_lt he.cursor.length_le) h)
      rintro xs r2 ⟨hlen, notes', hrep', hxs⟩
      obtain ⟨notes, hrep, hx⟩ := hx
      refine ⟨by simp [hlen], notes ++ notes', ?_, hx.append hxs⟩
      rw [hrep', hrep, List.append_assoc]

theorem group_ensures {c : Cursor} {report : Report} (hb : c.skipBlanks.rest.head? = some (ascii '('))
    (hitem : ∀ r, item.Ensures r (fun x r' => ReadsExprs src registry scope r [x] r') (r.Stops depth)) :
    (group item).Ensures ⟨c.skipBlanks, report⟩
      (fun x r' => ReadsExprs src registry scope ⟨c, report⟩ [x] r')
      (Reading.Stops (depth + 1) ⟨c, report⟩) := by
  have ho : c.Takes (ascii '(') (c.skipBlanks.advance 1) := ⟨hb, rfl⟩
  have he : Reading.Extends ⟨c, report⟩ ⟨c.skipBlanks.advance 1, report⟩ :=
    Reading.extends_of_reaches report ho.reaches.1
  have hlt := ho.reaches.2
  simp only [group, ensures_advance_bind]
  rw [ensures_bind]
  refine (hitem _).mono ?_ (fun s r h => .of_extends he (fun hl => by simp only at hl ⊢; omega) h)
  intro x r hx
  rw [ensures_bind]
  refine (close_ensures _ _ depth r).mono ?_ ?_
  · rintro _ r' ⟨hrep', hc⟩
    obtain ⟨notes, hrep, hx⟩ := hx
    refine ⟨notes, hrep' ▸ hrep, ?_⟩
    simpa using Exprs.group ho hx hc (.nil _ _)
  · intro s r' h
    have hle := hx.extends.cursor.length_le
    refine .of_extends (he.trans hx.extends) (fun hl => ?_) h
    simp only at hle hl
    omega

theorem closure_ensures {c d : Cursor} {report : Report} {body : Bindings → Parser Expr}
    (ht : c.token = (utf8 "anon", d))
    (hbody : ∀ scope r, (body scope).Ensures r (fun x r' => ReadsExprs src registry scope r [x] r') (r.Stops depth)) :
    (closure src depth (src.locate c.skipBlanks.off) scope body).Ensures ⟨d, report⟩
      (fun x r' => ReadsExprs src registry scope ⟨c, report⟩ [x] r')
      (Reading.Stops (depth + 1) ⟨c, report⟩) := by
  obtain ⟨hreach, hlt⟩ := Cursor.length_token_lt ht (by decide)
  have he : Reading.Extends ⟨c, report⟩ ⟨d, report⟩ := Reading.extends_of_reaches report hreach
  simp only [closure]
  rw [ensures_bind]
  refine (params_ensures src depth _).mono ?_ (fun s r h =>
    .of_extends he (fun hl => by simp only at hl ⊢; omega) h)
  rintro ps r ⟨hrep, e, hps, ha⟩
  have hr := hps.reaches.1.trans ha.reaches.1
  simp only [ensures_cursor_bind]
  rw [ensures_bind]
  refine (hbody _ r).mono ?_ ?_
  · rintro x r' ⟨notes, hrep', hx⟩
    refine ⟨notes, by rw [hrep', hrep], ?_⟩
    simpa using Exprs.closure ht hps ha hx (.nil _ _)
  · intro s r' h
    have hle := hr.length_le
    refine .of_extends (he.trans ⟨hr, by simp [hrep]⟩) (fun hl => ?_) h
    simp only at hle hl
    omega

theorem name_ensures {c d : Cursor} {report : Report} {word : Bytes} (ht : c.token = (word, d)) (hw : IsName word)
    (hitem : ∀ r, item.Ensures r (fun x r' => ReadsExprs src registry scope r [x] r') (r.Stops depth)) :
    (name registry (src.locate c.skipBlanks.off) scope word item).Ensures ⟨d, report⟩
      (fun x r' => ReadsExprs src registry scope ⟨c, report⟩ [x] r')
      (Reading.Stops (depth + 1) ⟨c, report⟩) := by
  obtain ⟨hreach, hlt⟩ := Cursor.length_token_lt ht hw.ne_nil
  have he : Reading.Extends ⟨c, report⟩ ⟨d, report⟩ := Reading.extends_of_reaches report hreach
  unfold name
  split
  · rename_i place hs
    exact ⟨[], by simp, .bound ht hw hs (.nil _ _)⟩
  · rename_i hs
    split
    · rename_i hr
      exact ⟨_, rfl, .unresolved ht hw hs hr (.nil _ _)⟩
    · rename_i f hr
      rw [ensures_bind]
      refine (times_ensures hitem (registry.arity f) _).mono ?_ (fun s r h =>
        .of_extends he (fun hl => by simp only at hl ⊢; omega) h)
      rintro args r ⟨hl, notes, hrep, hargs⟩
      refine ⟨notes, hrep, ?_⟩
      simpa using Exprs.call ht hw hs hr hl hargs (.nil _ _)

theorem expr_ensures (src : Source) (registry : Registry) (depth : Nat) (scope : Bindings) (r : Reading) :
    (expr src registry depth scope).Ensures r (fun x r' => ReadsExprs src registry scope r [x] r')
      (r.Stops depth) := by
  induction depth generalizing scope r with
  | zero => exact ⟨.refl r, fun h => absurd h (Nat.not_lt_zero _)⟩
  | succ depth ih =>
      have hs : r.Extends ⟨r.cursor.skipBlanks, r.report⟩ :=
        Reading.extends_of_reaches r.report r.cursor.reaches_skipBlanks
      simp only [expr, ensures_skipBlanks_bind]
      split
      · exact hs.stops_malformed
      · rename_i b bs hrest
        split
        · rw [ensures_bind]
          refine (string_ensures (depth + 1) _).mono ?_ (fun s r1 h1 =>
            .of_extends hs (Nat.lt_of_le_of_lt hs.cursor.length_le) h1)
          rintro value r1 ⟨hrep, hq⟩
          exact ⟨[], by simp [hrep], .text hq (.nil _ _)⟩
        · rename_i hquote
          split
          · rename_i hb
            exact group_ensures (by rw [hrest, hb]; rfl) (ih scope)
          · simp only [ensures_token_bind, Cursor.token_skipBlanks]
            have htok : r.cursor.token = (r.cursor.token.1, r.cursor.token.2) := rfl
            have he := hs.trans (Reading.extends_of_reaches r.report r.cursor.reaches_token)
            split
            · exact he.stops_malformed
            · rename_i hempty
              split
              · rename_i value hn
                exact ⟨[], by simp, .number htok hn (.nil _ _)⟩
              · rename_i hn
                split
                · rename_i hw
                  exact closure_ensures (hw ▸ htok) ih
                · rename_i hw
                  refine name_ensures htok ⟨by simpa using hempty, fun q hq => ?_, hn, hw⟩ (ih scope)
                  have hhead := Cursor.head_of_token htok hq
                  rw [hrest] at hhead
                  simp_all

end Exprs

end Parser

end Polish
