import Polish.Proofs.Grammar.Sound

namespace Polish.Parser

open Grammar

variable {α β : Type} {item item' : Parser α} {r : Reading}

theorem bind_congr_at {p q : Parser α} {f g : α → Parser β} (hp : p r = q r)
    (hf : ∀ a r', p r = .ok a r' → f a r' = g a r') : (p >>= f) r = (q >>= g) r := by
  cases h : p r with
  | ok a r' => rw [bind_ok h, bind_ok (hp ▸ h), hf a r' h]
  | error stop r' => rw [bind_error h, bind_error (hp ▸ h)]

theorem untilArrow_congr {k : Nat} (hshorter : ∀ r a r', item r = .ok a r' → r'.cursor.rest.length < r.cursor.rest.length)
    (hitem : ∀ r : Reading, r.cursor.rest.length < k → item r = item' r) {n m : Nat} (hk : r.cursor.rest.length < k)
    (hn : r.cursor.rest.length < n) (hm : r.cursor.rest.length < m) : untilArrow item n r = untilArrow item' m r := by
  induction n generalizing m r with
  | zero => exact absurd hn (Nat.not_lt_zero _)
  | succ n ih =>
      obtain ⟨m, rfl⟩ : ∃ less, m = less + 1 := ⟨m - 1, by omega⟩
      have hle := r.cursor.reaches_skipBlanks.length_le
      simp only [untilArrow]
      rw [bind_ok (skipBlanks_eq r), bind_ok (skipBlanks_eq r)]
      by_cases hend : r.cursor.skipBlanks.atEnd = true
      · simp only [hend, if_true]
      by_cases harrow : r.cursor.skipBlanks.startsWith arrow = true
      · simp only [if_neg hend, harrow, if_true]
      simp only [if_neg hend, if_neg harrow]
      refine bind_congr_at (hitem _ (by dsimp only; omega)) fun a r₁ h₁ => ?_
      have hlt := hshorter _ a r₁ h₁
      dsimp only at hlt
      exact bind_congr_at (ih (by omega) (by omega) (by omega)) fun _ _ _ => rfl

theorem times_congr (hshorter : ∀ r a r', item r = .ok a r' → r'.cursor.rest.length < r.cursor.rest.length) {k : Nat}
    (hitem : ∀ r : Reading, r.cursor.rest.length < k → item r = item' r) (hk : r.cursor.rest.length < k) (n : Nat) :
    times item n r = times item' n r := by
  induction n generalizing r with
  | zero => rfl
  | succ n ih =>
      refine bind_congr_at (hitem r hk) fun a r₁ h₁ => ?_
      have hlt := hshorter r a r₁ h₁
      exact bind_congr_at (ih (by omega)) fun _ _ _ => rfl

/-- What stands after an opening bracket starts later. -/
theorem bracket_congr {f : α → Parser β} (hrest : r.cursor.rest ≠ [])
    (hitem : ∀ r' : Reading, r'.cursor.rest.length < r.cursor.rest.length → item r' = item' r') :
    (advance 1 >>= fun _ => item >>= f) r = (advance 1 >>= fun _ => item' >>= f) r := by
  have hlt : (r.cursor.advance 1).rest.length < r.cursor.rest.length := by
    have hpos := List.length_pos_iff.2 hrest
    simp only [Cursor.advance, List.length_drop]
    omega
  rw [bind_ok (advance_eq 1 r), bind_ok (advance_eq 1 r)]
  exact bind_congr_at (hitem _ hlt) fun _ _ _ => rfl

theorem token_shorter {c : Cursor} (h : c.token.1 ≠ []) : c.token.2.rest.length < c.rest.length :=
  (Cursor.length_token_lt rfl h).2

section Types

variable {src : Source} {n m : Nat}

theorem ty_shorter (r : Reading) (t : Ty) (r' : Reading) (h : ty src n r = .ok t r') :
    r'.cursor.rest.length < r.cursor.rest.length :=
  ((ty_ensures src n r).ok h).2.reaches.2 (List.cons_ne_nil _ _)

theorem function_congr {k : Nat} {item' : Parser Ty} (hk : r.cursor.rest.length < k)
    (hitem : ∀ r : Reading, r.cursor.rest.length < k → ty src n r = item' r) (hn : r.cursor.rest.length < n)
    (hm : r.cursor.rest.length < m) : function n (ty src n) r = function m item' r := by
  refine bind_congr_at (untilArrow_congr ty_shorter hitem hk hn hm) fun ts r₁ h₁ => ?_
  have hle : r₁.cursor.rest.length ≤ r.cursor.rest.length := by
    obtain ⟨-, d, hts, ha⟩ := (untilArrow_ensures Types n Types.nil (fun _ _ _ _ _ h h' => h.of_skipBlanks.append h')
      (fun _ _ _ h => ⟨h.reaches.1, h.reaches.2 (by simp)⟩) (ty_ensures src n) n r).ok h₁
    exact (hts.reaches.1.trans ha.reaches.1).length_le
  exact bind_congr_at (hitem r₁ (by omega)) fun _ _ _ => rfl

theorem ty_congr (src : Source) (hn : r.cursor.rest.length < n) (hm : r.cursor.rest.length < m) :
    ty src n r = ty src m r := by
  induction n generalizing m r with
  | zero => exact absurd hn (Nat.not_lt_zero _)
  | succ n ih =>
      obtain ⟨m, rfl⟩ : ∃ less, m = less + 1 := ⟨m - 1, by omega⟩
      have hle := r.cursor.reaches_skipBlanks.length_le
      have hnested (r' : Reading) (h : r'.cursor.rest.length < r.cursor.rest.length) : ty src n r' = ty src m r' :=
        ih (by omega) (by omega)
      simp only [ty]
      rw [bind_ok (skipBlanks_eq r), bind_ok (skipBlanks_eq r)]
      cases hrest : r.cursor.skipBlanks.rest with
      | nil => rfl
      | cons b bs =>
          by_cases hb : b = ascii '['
          · simp only [hb, if_true]
            exact bracket_congr (by simp [hrest]) fun r' h => hnested r' (Nat.lt_of_lt_of_le h hle)
          simp only [if_neg hb]
          rw [bind_ok (token_eq _), bind_ok (token_eq _)]
          simp only [Cursor.token_skipBlanks]
          cases Basic.ofWord? r.cursor.token.1 with
          | some basic => rfl
          | none =>
              by_cases hw : r.cursor.token.1 = utf8 "anon"
              · have hlt := token_shorter (c := r.cursor) (by rw [hw]; decide)
                simp only [hw, if_true]
                exact function_congr hlt hnested (by dsimp only; omega) (by dsimp only; omega)
              · simp only [if_neg hw]

theorem param_shorter (r : Reading) (p : Param) (r' : Reading) (h : param src n r = .ok p r') :
    r'.cursor.rest.length < r.cursor.rest.length :=
  ((param_ensures src n r).ok h).2.reaches.2 (List.cons_ne_nil _ _)

theorem params_congr (src : Source) (hn : r.cursor.rest.length < n) (hm : r.cursor.rest.length < m) :
    params src n r = params src m r := by
  refine untilArrow_congr param_shorter (k := r.cursor.rest.length + 1) (fun r' h => ?_) (Nat.lt_succ_self _) hn hm
  exact bind_congr_at (ty_congr src (by omega) (by omega)) fun _ _ _ => rfl

end Types

section Exprs

variable {src : Source} {registry : Registry} {n m : Nat}

theorem expr_shorter (scope : Bindings) (r : Reading) (x : Expr) (r' : Reading)
    (h : expr src registry n scope r = .ok x r') : r'.cursor.rest.length < r.cursor.rest.length := by
  obtain ⟨notes, -, hx⟩ := (expr_ensures src registry n scope r).ok h
  exact hx.reaches.2 (List.cons_ne_nil _ _)

theorem closure_congr {body body' : Bindings → Parser Expr} (l : Location) (scope : Bindings)
    (hbody : ∀ (scope : Bindings) (r' : Reading), r'.cursor.rest.length ≤ r.cursor.rest.length →
      body scope r' = body' scope r')
    (hn : r.cursor.rest.length < n) (hm : r.cursor.rest.length < m) :
    closure src n l scope body r = closure src m l scope body' r := by
  refine bind_congr_at (params_congr src hn hm) fun ps r₁ h₁ => ?_
  obtain ⟨-, d, hps, ha⟩ := (params_ensures src n r).ok h₁
  rw [bind_ok (cursor_eq r₁), bind_ok (cursor_eq r₁)]
  exact bind_congr_at (hbody _ r₁ (hps.reaches.1.trans ha.reaches.1).length_le) fun _ _ _ => rfl

theorem expr_congr (src : Source) (registry : Registry) (scope : Bindings) (hn : r.cursor.rest.length < n)
    (hm : r.cursor.rest.length < m) : expr src registry n scope r = expr src registry m scope r := by
  induction n generalizing m r scope with
  | zero => exact absurd hn (Nat.not_lt_zero _)
  | succ n ih =>
      obtain ⟨m, rfl⟩ : ∃ less, m = less + 1 := ⟨m - 1, by omega⟩
      have hle := r.cursor.reaches_skipBlanks.length_le
      have hnested (scope : Bindings) (r' : Reading) (h : r'.cursor.rest.length < r.cursor.rest.length) :
          expr src registry n scope r' = expr src registry m scope r' := ih scope (by omega) (by omega)
      simp only [expr]
      rw [bind_ok (skipBlanks_eq r), bind_ok (skipBlanks_eq r)]
      cases hrest : r.cursor.skipBlanks.rest with
      | nil => rfl
      | cons b bs =>
          by_cases hq : isQuote b = true
          · simp only [hq, if_true]
          simp only [if_neg hq]
          by_cases hb : b = ascii '('
          · simp only [hb, if_true]
            exact bracket_congr (by simp [hrest]) fun r' h => hnested scope r' (Nat.lt_of_lt_of_le h hle)
          simp only [if_neg hb]
          rw [bind_ok (token_eq _), bind_ok (token_eq _)]
          simp only [Cursor.token_skipBlanks]
          by_cases hempty : r.cursor.token.1.isEmpty = true
          · simp only [hempty, if_true]
          simp only [if_neg hempty]
          have hlt := token_shorter (c := r.cursor) (by simpa using hempty)
          cases Double.ofToken? r.cursor.token.1 with
          | some value => rfl
          | none =>
              by_cases hw : r.cursor.token.1 = utf8 "anon"
              · simp only [hw, if_true]
                exact closure_congr _ scope (fun scope r' h => hnested scope r' (Nat.lt_of_le_of_lt h hlt))
                  (by dsimp only; omega) (by dsimp only; omega)
              · simp only [if_neg hw, name]
                cases scope.lookup r.cursor.token.1 with
                | some place => rfl
                | none =>
                    cases registry.lookup r.cursor.token.1 with
                    | none => rfl
                    | some f =>
                        exact bind_congr_at (times_congr (expr_shorter scope) (hnested scope) hlt _) fun _ _ _ => rfl

end Exprs

end Polish.Parser
