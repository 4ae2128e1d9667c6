import Polish.Proofs.Path

namespace Polish

namespace Location

def lines (text : Bytes) : List Bytes := Bytes.split newline text

def lineStart : List Bytes → Nat → Nat
  | content :: ls, n + 1 => content.length + 1 + lineStart ls n
  | _, _ => 0

def linesBefore : List Bytes → Nat → Bytes
  | content :: ls, n + 1 => content ++ newline :: linesBefore ls n
  | _, _ => []

theorem intercalate_lines (text : Bytes) : List.intercalate [newline] (lines text) = text := by
  rw [lines, Bytes.split_eq_splitOn, List.intercalate_splitOn]

theorem lines_ne_nil (text : Bytes) : lines text ≠ [] := by
  rw [lines, Bytes.split_eq_splitOn]
  exact List.splitOn_ne_nil newline text

theorem lineStart_zero (ls : List Bytes) : lineStart ls 0 = 0 := by
  cases ls <;> rfl

section Lines

variable {ls : List Bytes} {m n : Nat} {content : Bytes}

theorem length_linesBefore (ls : List Bytes) (n : Nat) : (linesBefore ls n).length = lineStart ls n := by
  induction ls generalizing n with
  | nil => rfl
  | cons first ls ih =>
      cases n with
      | zero => rfl
      | succ n => rw [linesBefore, lineStart, List.length_append, List.length_cons, ih, Nat.add_assoc, Nat.add_comm 1]

theorem linesBefore_prefix (h : ls[n]? = some content) :
    linesBefore ls n ++ content <+: List.intercalate [newline] ls := by
  induction ls generalizing n with
  | nil => cases h
  | cons first ls ih =>
      cases n with
      | zero =>
          cases h
          cases ls with
          | nil =>
              rw [List.intercalate_singleton]
              exact List.prefix_rfl
          | cons second ls =>
              rw [List.intercalate_cons_cons, List.append_assoc]
              exact List.prefix_append _ _
      | succ n =>
          cases ls with
          | nil => cases h
          | cons second ls =>
              rw [List.intercalate_cons_cons, linesBefore, List.append_assoc, List.append_assoc,
                List.prefix_append_right_inj]
              exact (List.prefix_append_right_inj [newline]).2 (ih h)

theorem exists_line {off : Nat} (hne : ls ≠ []) (h : off ≤ (List.intercalate [newline] ls).length) :
    ∃ n content col, ls[n]? = some content ∧ col ≤ content.length ∧ off = lineStart ls n + col := by
  induction ls generalizing off with
  | nil => exact absurd rfl hne
  | cons first ls ih =>
      by_cases hoff : off ≤ first.length
      · exact ⟨0, first, off, rfl, hoff, (Nat.zero_add off).symm⟩
      · cases ls with
        | nil =>
            rw [List.intercalate_singleton] at h
            exact absurd h hoff
        | cons second ls =>
            rw [List.intercalate_cons_cons, List.length_append, List.length_append, List.length_singleton] at h
            have hrest : off - (first.length + 1) ≤ (List.intercalate [newline] (second :: ls)).length := by omega
            obtain ⟨n, content, col, hn, hcol, he⟩ := ih (List.cons_ne_nil _ _) hrest
            refine ⟨n + 1, content, col, hn, hcol, ?_⟩
            rw [lineStart]
            omega

theorem lineStart_lt (h : ls[m]? = some content) (hm : m < n) (hn : n < ls.length) :
    lineStart ls m + content.length < lineStart ls n := by
  induction ls generalizing m n with
  | nil => cases h
  | cons first ls ih =>
      obtain ⟨n, rfl⟩ := Nat.exists_eq_succ_of_ne_zero (Nat.ne_zero_of_lt hm)
      cases m with
      | zero =>
          cases h
          rw [lineStart_zero, lineStart]
          omega
      | succ m =>
          have hrest := ih h (Nat.lt_of_succ_lt_succ hm) (Nat.lt_of_succ_lt_succ hn)
          rw [lineStart, lineStart]
          omega

theorem count_linesBefore (hls : ∀ content ∈ ls, newline ∉ content) (hn : n ≤ ls.length) :
    (linesBefore ls n).count newline = n := by
  induction ls generalizing n with
  | nil => exact (Nat.le_zero.1 hn).symm
  | cons first ls ih =>
      obtain ⟨hfirst, hls⟩ := List.forall_mem_cons.1 hls
      cases n with
      | zero => rfl
      | succ n =>
          rw [linesBefore, List.count_append, List.count_cons_self, List.count_eq_zero.2 hfirst,
            ih hls (Nat.le_of_succ_le_succ hn), Nat.zero_add]

theorem linesBefore_eq_nil_or (ls : List Bytes) (n : Nat) :
    linesBefore ls n = [] ∨ ∃ text, linesBefore ls n = text ++ [newline] := by
  induction ls generalizing n with
  | nil => exact .inl rfl
  | cons first ls ih =>
      cases n with
      | zero => exact .inl rfl
      | succ n =>
          rw [linesBefore]
          rcases ih n with he | ⟨text, he⟩
          · exact .inr ⟨first, by rw [he]⟩
          · exact .inr ⟨first ++ newline :: text, by rw [he, List.append_assoc, List.cons_append]⟩

variable {l : Location} {start : Bytes} (hstart : newline ∉ start) (h : l.before = linesBefore ls n ++ start)
include hstart h

theorem line_of_before (hls : ∀ content ∈ ls, newline ∉ content) (hn : n ≤ ls.length) : l.line = n + 1 := by
  rw [line, h, List.count_append, count_linesBefore hls hn, List.count_eq_zero.2 hstart, Nat.add_zero]

theorem column_of_before : l.column = start.length := by
  have hgo : ∀ b ∈ start.reverse, (b != newline) = true := by
    intro b hb
    rw [bne_iff_ne]
    rintro rfl
    exact hstart (List.mem_reverse.1 hb)
  have hstop : (linesBefore ls n).reverse.takeWhile (· != newline) = [] := by
    rcases linesBefore_eq_nil_or ls n with he | ⟨text, he⟩
    · rw [he, List.reverse_nil, List.takeWhile_nil]
    · rw [he, List.reverse_append, List.reverse_singleton, List.singleton_append,
        List.takeWhile_cons_of_neg (by simp)]
  rw [column, h, List.reverse_append, List.takeWhile_append_of_pos hgo, hstop, List.append_nil, List.length_reverse]

end Lines

theorem lineStart_add_length {text content : Bytes} {n : Nat} (h : (lines text)[n]? = some content) :
    lineStart (lines text) n + content.length ≤ text.length ∧ content <+: text.drop (lineStart (lines text) n) := by
  have hpre := linesBefore_prefix h
  rw [intercalate_lines] at hpre
  constructor
  · simpa [length_linesBefore] using hpre.length_le
  · obtain ⟨rest, hrest⟩ := hpre
    have hdrop : text.drop (linesBefore (lines text) n).length = content ++ rest :=
      (congrArg (List.drop _) hrest.symm).trans (by rw [List.append_assoc, List.drop_left])
    rw [← length_linesBefore, hdrop]
    exact List.prefix_append content rest

/-- A column in a line is found again from its offset. -/
theorem line_column_of_offset {l : Location} {n col : Nat} {content : Bytes} (hn : (lines l.text)[n]? = some content)
    (hcol : col ≤ content.length) (hoff : l.off = (lineStart (lines l.text) n + col : Nat)) :
    l.line = n + 1 ∧ l.column = col := by
  have hls : ∀ content ∈ lines l.text, newline ∉ content := fun _ => Bytes.notMem_of_mem_split
  have hstart : newline ∉ content.take col := fun hmem => hls _ (List.mem_of_getElem? hn) (List.mem_of_mem_take hmem)
  obtain ⟨rest, hrest⟩ := linesBefore_prefix hn
  have hbefore : l.before = linesBefore (lines l.text) n ++ content.take col := by
    rw [before, hoff, Int.toNat_natCast, ← length_linesBefore]
    refine (congrArg (List.take _) (hrest.trans (intercalate_lines l.text)).symm).trans ?_
    rw [List.append_assoc, List.take_length_add_append, List.take_append_of_le_length hcol]
  have hlen : n ≤ (lines l.text).length := Nat.le_of_lt (List.getElem?_eq_some_iff.1 hn).1
  exact ⟨line_of_before hstart hbefore hls hlen, (column_of_before hstart hbefore).trans (List.length_take_of_le hcol)⟩

def moved (l : Location) (off : Int) : Location := { l with off }

def Precedes (l l' : Location) : Prop := Prod.Lex (· < ·) (· < ·) (l.line, l.column) (l'.line, l'.column)

theorem exists_line_column (l : Location) {off : Int} (h : 0 ≤ off) (hlen : off ≤ l.text.length) :
    ∃ n content col, (lines l.text)[n]? = some content ∧ col ≤ content.length ∧
      off = (lineStart (lines l.text) n + col : Nat) ∧ (l.moved off).line = n + 1 ∧ (l.moved off).column = col := by
  have hoff : off.toNat ≤ (List.intercalate [newline] (lines l.text)).length := by
    rw [intercalate_lines]
    omega
  obtain ⟨n, content, col, hn, hcol, he⟩ := exists_line (lines_ne_nil l.text) hoff
  have he' : off = (lineStart (lines l.text) n + col : Nat) := by omega
  exact ⟨n, content, col, hn, hcol, he', line_column_of_offset (l := l.moved off) hn hcol he'⟩

theorem precedes_of_lt (l : Location) {o o' : Int} (h : 0 ≤ o) (hlt : o < o') (hlen : o' ≤ l.text.length) :
    (l.moved o).Precedes (l.moved o') := by
  obtain ⟨n, content, col, hn, hcol, he, hline, hcolumn⟩ := l.exists_line_column h (by omega)
  obtain ⟨n', content', col', hn', hcol', he', hline', hcolumn'⟩ := l.exists_line_column (by omega) hlen
  rw [Precedes, hline, hcolumn, hline', hcolumn']
  rcases Nat.lt_trichotomy n n' with hlt' | rfl | hgt
  · exact .left _ _ (Nat.succ_lt_succ hlt')
  · exact .right _ (by omega)
  · -- the greater offset would be in a line that ends before the line of the other one starts
    have hstart := lineStart_lt hn' hgt (List.getElem?_eq_some_iff.1 hn).1
    omega

/-- Before an offset there is what is before the nearest offset in the text. -/
theorem before_nearest (l : Location) (off : Int) : ∃ near : Nat, near ≤ l.text.length ∧
    (∀ o : Int, 0 ≤ o → o ≤ l.text.length → (off - near).natAbs ≤ (off - o).natAbs) ∧
    (l.moved off).before = (l.moved near).before := by
  by_cases hlen : off.toNat ≤ l.text.length
  · exact ⟨off.toNat, hlen, by omega, rfl⟩
  · refine ⟨l.text.length, Nat.le_refl _, by omega, ?_⟩
    have hall : l.text.length ≤ off.toNat := by omega
    rw [before, before, moved, moved, Int.toNat_natCast, List.take_length, List.take_of_length_le hall]

/-- Line and column are ordered as the offsets in a text are. An offset in the text is the start of its line and its
column, any column up to the end of a line is one of an offset, and an offset outside is treated as the nearest one. -/
theorem line_column_order (l : Location) :
    (∀ o o' : Int, 0 ≤ o → o < o' → o' ≤ l.text.length → (l.moved o).Precedes (l.moved o')) ∧
    (∀ o : Int, 0 ≤ o → o ≤ l.text.length → ∃ n content, (l.moved o).line = n + 1 ∧
      (lines l.text)[n]? = some content ∧ content <+: l.text.drop (lineStart (lines l.text) n) ∧
      (l.moved o).column ≤ content.length ∧ o = lineStart (lines l.text) n + (l.moved o).column) ∧
    (∀ n content col, (lines l.text)[n]? = some content → col ≤ content.length →
      lineStart (lines l.text) n + col ≤ l.text.length ∧
      (l.moved (lineStart (lines l.text) n + col)).line = n + 1 ∧
      (l.moved (lineStart (lines l.text) n + col)).column = col) ∧
    ∀ o : Int, ∃ o' : Int, 0 ≤ o' ∧ o' ≤ l.text.length ∧
      (∀ o'' : Int, 0 ≤ o'' → o'' ≤ l.text.length → (o - o').natAbs ≤ (o - o'').natAbs) ∧
      (l.moved o).line = (l.moved o').line ∧ (l.moved o).column = (l.moved o').column ∧
      (l.moved o).render = (l.moved o').render := by
  refine ⟨fun o o' => l.precedes_of_lt, fun o h hlen => ?_, fun n content col hn hcol => ?_, fun o => ?_⟩
  · obtain ⟨n, content, col, hn, hcol, he, hline, hcolumn⟩ := l.exists_line_column h hlen
    exact ⟨n, content, hline, hn, (lineStart_add_length hn).2, hcolumn ▸ hcol, by omega⟩
  · have hlen := (lineStart_add_length hn).1
    exact ⟨by omega, line_column_of_offset (l := l.moved _) hn hcol rfl⟩
  · obtain ⟨near, hle, hnear, hbefore⟩ := l.before_nearest o
    have hline : (l.moved o).line = (l.moved near).line := by rw [line, hbefore, line]
    have hcolumn : (l.moved o).column = (l.moved near).column := by rw [column, hbefore, column]
    refine ⟨near, Int.natCast_nonneg near, Int.ofNat_le.2 hle, hnear, hline, hcolumn, ?_⟩
    rw [render, hline, hcolumn]
    rfl

/-- An empty line between two newlines, and an offset after the end. -/
theorem line_column_order_newlines :
    let l : Location := { text := utf8 "ab\n\nc" }
    lines l.text = [utf8 "ab", [], utf8 "c"] ∧ (l.moved 2).Precedes (l.moved 3) ∧
      (∃ n, (l.moved 2).line = n + 1 ∧ 2 = lineStart (lines l.text) n + (l.moved 2).column) ∧
      (l.moved 3).line = 2 ∧ (l.moved 3).column = 0 ∧ (l.moved 9).render = (l.moved 5).render := by
  intro l
  have hlen : l.text.length = 5 := rfl
  have hlines : lines l.text = [utf8 "ab", [], utf8 "c"] := by decide
  obtain ⟨horder, hstart, hplace, hnear⟩ := line_column_order l
  obtain ⟨n, -, hline, -, -, -, hoff⟩ := hstart 2 (by decide) (by omega)
  have hempty := (hplace 1 [] 0 (by rw [hlines]; rfl) (Nat.le_refl 0)).2
  rw [hlines] at hempty
  obtain ⟨o, -, hle, hdist, -, -, hrender⟩ := hnear 9
  have ho : o = 5 := by
    have hfive := hdist 5 (by decide) (by omega)
    omega
  exact ⟨hlines, horder 2 3 (by decide) (by decide) (by omega), ⟨n, hline, by omega⟩, hempty.1, hempty.2, ho ▸ hrender⟩

end Location

end Polish
