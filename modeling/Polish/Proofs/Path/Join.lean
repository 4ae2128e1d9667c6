import Polish.Proofs.Overlay
import Mathlib.Data.List.Induction
import Mathlib.Data.List.Infix

namespace Polish

namespace Path

/-- A text read from a directory, wherever the directory is: a slash in front does not lead to the root. -/
def relative (text : Bytes) : Path := ofBytes (here ++ slash :: text)

def climbs (text : Bytes) : Bool := (relative text).parts.contains parent

/-- Whether a text that is read from a directory leads to a place at or below the directory: what it climbs out of are
the parts that it enters next. At the root of all paths there is nothing to climb out of. -/
def stays (root : Path) (text : Bytes) : Bool :=
  let parts := (relative text).parts
  let up := (parts.takeWhile (· = parent)).length
  (root.rooted || up ≤ root.parts.length) && (root.parts.drop (root.parts.length - up)).isPrefixOf (parts.drop up)

theorem split_append (a b : Bytes) :
    Bytes.split slash (a ++ slash :: b) = Bytes.split slash a ++ Bytes.split slash b := by
  rw [Bytes.split_eq_splitOn, Bytes.split_eq_splitOn, Bytes.split_eq_splitOn, List.splitOn_append_cons_self]

theorem ofBytes_append {a : Bytes} (ha : a ≠ []) (b : Bytes) : ofBytes (a ++ slash :: b) =
    ⟨(ofBytes a).rooted,
      ((Bytes.split slash b).foldl (push (ofBytes a).rooted) (ofBytes a).parts.reverse).reverse⟩ := by
  simp only [ofBytes, split_append, List.foldl_append, List.head?_append_of_ne_nil _ ha, List.reverse_reverse]

theorem relative_eq (text : Bytes) :
    relative text = ⟨false, ((Bytes.split slash text).foldl (push false) []).reverse⟩ := by
  have hhere : ofBytes here = ⟨false, []⟩ := by decide
  rw [relative, ofBytes_append (by decide), hhere]
  rfl

def Plain (part : Bytes) : Prop := part ≠ [] ∧ part ≠ here ∧ part ≠ parent

theorem push_skip {rooted : Bool} {part : Bytes} (h : part = [] ∨ part = here) (reversed : List Bytes) :
    push rooted reversed part = reversed := by
  simp only [push, if_pos h]

theorem push_plain {rooted : Bool} {part : Bytes} (h : Plain part) (reversed : List Bytes) :
    push rooted reversed part = part :: reversed := by
  simp [push, h.1, h.2.1, h.2.2]

theorem push_parent {rooted : Bool} {last : Bytes} (h : Plain last) (before : List Bytes) :
    push rooted (last :: before) parent = before := by
  have hstep : ¬ (parent = [] ∨ parent = here) := by decide
  simp only [push, if_neg hstep, if_true, if_neg h.2.2]

theorem foldl_push_plain {rooted : Bool} {parts : List Bytes} (h : ∀ part ∈ parts, Plain part) (base : List Bytes) :
    parts.foldl (push rooted) base = parts.reverse ++ base := by
  induction parts generalizing base with
  | nil => rfl
  | cons part parts ih =>
      obtain ⟨hpart, hparts⟩ := List.forall_mem_cons.1 h
      rw [List.foldl_cons, push_plain hpart, ih hparts, List.reverse_cons, List.append_assoc, List.singleton_append]

/-- A reduced path climbs first, and only where it is not rooted. -/
theorem Settled.exists_append {rooted : Bool} {reversed : List Bytes} (h : Settled rooted reversed) :
    ∃ plain up, reversed = plain ++ List.replicate up parent ∧ (∀ part ∈ plain, Plain part) ∧
      (rooted = true → up = 0) := by
  induction h with
  | nil => exact ⟨[], 0, rfl, List.forall_mem_nil _, fun _ => rfl⟩
  | climb hr hlast h ih =>
      obtain ⟨plain, up, rfl, hplain, -⟩ := ih
      cases plain with
      | nil => exact ⟨[], up + 1, rfl, List.forall_mem_nil _, fun hrooted => by rw [hr] at hrooted; cases hrooted⟩
      | cons last before => exact absurd (hlast last rfl) (hplain last List.mem_cons_self).2.2
  | @part part reversed hne hhere hparent hslash h ih =>
      obtain ⟨plain, up, rfl, hplain, hup⟩ := ih
      exact ⟨part :: plain, up, rfl, List.forall_mem_cons.2 ⟨⟨hne, hhere, hparent⟩, hplain⟩, hup⟩

/-- To go on by one part is to go on by what the part makes of the parts before it. -/
theorem foldl_push_reverse {rooted : Bool} {base reversed : List Bytes} (h : Settled false reversed) (part : Bytes) :
    (push false reversed part).reverse.foldl (push rooted) base =
      push rooted (reversed.reverse.foldl (push rooted) base) part := by
  by_cases hskip : part = [] ∨ part = here
  · rw [push_skip hskip, push_skip hskip]
  by_cases hparent : part = parent
  · subst hparent
    cases h with
    | nil => rfl
    | climb hr hlast h =>
        have hpush (before : List Bytes) : push false (parent :: before) parent = parent :: parent :: before := rfl
        rw [hpush, List.reverse_cons, List.foldl_concat]
    | @part last before hne hhere hother hslash h =>
        have hplain : Plain last := ⟨hne, hhere, hother⟩
        rw [push_parent hplain, List.reverse_cons, List.foldl_concat, push_plain hplain, push_parent hplain]
  · rw [not_or] at hskip
    have hplain : Plain part := ⟨hskip.1, hskip.2, hparent⟩
    rw [push_plain hplain, List.reverse_cons, List.foldl_concat]

theorem foldl_push_reduced {rooted : Bool} (base : List Bytes) {parts : List Bytes}
    (h : ∀ part ∈ parts, slash ∉ part) :
    parts.foldl (push rooted) base = (parts.foldl (push false) []).reverse.foldl (push rooted) base := by
  induction parts using List.reverseRecOn with
  | nil => rfl
  | append_singleton parts part ih =>
      have hparts : ∀ part ∈ parts, slash ∉ part := fun other hother => h other (List.mem_append_left _ hother)
      rw [List.foldl_concat, List.foldl_concat, ih hparts, foldl_push_reverse (Settled.nil.foldl_push hparts)]

theorem ofBytes_join {root : Bytes} (hroot : root ≠ []) (text : Bytes) : ofBytes (join root text) =
    ⟨(ofBytes root).rooted,
      ((relative text).parts.foldl (push (ofBytes root).rooted) (ofBytes root).parts.reverse).reverse⟩ := by
  have hempty : root.isEmpty = false := by simpa using hroot
  simp only [join, hempty, Bool.false_and, Bool.false_eq_true, if_false]
  by_cases ht : text = []
  · subst ht
    have hnone : (relative []).parts = [] := by decide
    rw [List.isEmpty_nil, if_pos rfl, ofBytes_clean, hnone, List.foldl_nil, List.reverse_reverse]
  · rw [if_neg (by simpa using ht), ofBytes_clean, ofBytes_append hroot, relative_eq,
      foldl_push_reduced _ fun part => Bytes.notMem_of_mem_split]

theorem Reduced.exists_append {p : Path} (h : p.Reduced) : ∃ out plain, p.parts = List.replicate out parent ++ plain ∧
    (∀ part ∈ plain, Plain part) ∧ (p.rooted = true → out = 0) := by
  obtain ⟨plain, out, hparts, hplain, hout⟩ := Settled.exists_append h
  refine ⟨out, plain.reverse, ?_, fun part hpart => hplain part (List.mem_reverse.1 hpart), hout⟩
  rw [← List.reverse_reverse p.parts, hparts, List.reverse_append, List.reverse_replicate]

theorem exists_relative (text : Bytes) : ∃ up rest, (relative text).parts = List.replicate up parent ++ rest ∧
    ∀ part ∈ rest, Plain part := by
  obtain ⟨up, rest, hparts, hrest, -⟩ := (reduced_ofBytes (here ++ slash :: text)).exists_append
  exact ⟨up, rest, hparts, hrest⟩

theorem stays_iff {root : Path} {text : Bytes} {up : Nat} {rest : List Bytes}
    (h : (relative text).parts = List.replicate up parent ++ rest) (hrest : ∀ part ∈ rest, Plain part) :
    stays root text = true ↔ (root.rooted = true ∨ up ≤ root.parts.length) ∧
      root.parts.drop (root.parts.length - up) <+: rest := by
  have htake : (List.replicate up parent ++ rest).takeWhile (· = parent) = List.replicate up parent := by
    rw [List.takeWhile_append_of_pos (by simp)]
    cases rest with
    | nil => simp
    | cons part rest => simp [(hrest part List.mem_cons_self).2.2]
  have hdrop : (List.replicate up parent ++ rest).drop up = rest := List.drop_left' List.length_replicate
  simp only [stays, h, htake, List.length_replicate, hdrop, Bool.and_eq_true, Bool.or_eq_true, decide_eq_true_eq,
    List.isPrefixOf_iff_prefix]

section Climbing

variable {rooted : Bool} {out up : Nat} {plain : List Bytes}

/-- Steps up take back plain parts, and at the root of all paths they do nothing more. -/
theorem foldl_push_parents (hplain : ∀ part ∈ plain, Plain part) (hup : up ≤ plain.length ∨ rooted = true ∧ out = 0) :
    (List.replicate up parent).foldl (push rooted) (plain ++ List.replicate out parent) =
      (plain ++ List.replicate out parent).drop up := by
  induction up generalizing plain with
  | zero => rfl
  | succ up ih =>
      rw [List.replicate_succ, List.foldl_cons]
      cases plain with
      | nil =>
          obtain ⟨rfl, rfl⟩ := hup.resolve_left (Nat.not_succ_le_zero up)
          have hroot : push true [] parent = [] := rfl
          have hrest := ih (List.forall_mem_nil _) (.inr ⟨rfl, rfl⟩)
          rwa [List.replicate_zero, List.append_nil, List.drop_nil] at hrest ⊢
      | cons last plain =>
          obtain ⟨hlast, hplain⟩ := List.forall_mem_cons.1 hplain
          rw [List.cons_append, push_parent hlast, List.drop_succ_cons]
          exact ih hplain (hup.imp_left Nat.le_of_succ_le_succ)

theorem foldl_push_within (hplain : ∀ part ∈ plain, Plain part) (hup : up ≤ plain.length ∨ rooted = true ∧ out = 0) :
    (List.replicate up parent).foldl (push rooted) (List.replicate out parent ++ plain).reverse =
      ((List.replicate out parent ++ plain).take (out + plain.length - up)).reverse := by
  have hback : ∀ part ∈ plain.reverse, Plain part := fun part hpart => hplain part (List.mem_reverse.1 hpart)
  have hparts : (List.replicate out parent ++ plain).reverse = plain.reverse ++ List.replicate out parent := by
    rw [List.reverse_append, List.reverse_replicate]
  rw [hparts, foldl_push_parents hback (by rwa [List.length_reverse]), ← hparts, List.drop_reverse, List.length_append,
    List.length_replicate]

theorem foldl_push_beyond (hplain : ∀ part ∈ plain, Plain part) (more : Nat) :
    (List.replicate (plain.length + more) parent).foldl (push false) (List.replicate out parent ++ plain).reverse =
      List.replicate (out + more) parent := by
  have hout : (List.replicate plain.length parent).foldl (push false) (List.replicate out parent ++ plain).reverse =
      List.replicate out parent := by
    rw [foldl_push_within hplain (.inl (Nat.le_refl _)), Nat.add_sub_cancel, List.take_left' List.length_replicate,
      List.reverse_replicate]
  rw [List.replicate_add, List.foldl_append, hout]
  induction more with
  | zero => rfl
  | succ more ih =>
      rw [List.replicate_succ', List.foldl_concat, ih, ← Nat.add_assoc, List.replicate_succ]
      cases out + more with
      | zero => rfl
      | succ n => rfl

end Climbing

theorem below?_take (root : Path) {rest : List Bytes} (hrest : ∀ part ∈ rest, Plain part) (n : Nat) :
    (root.below? ⟨root.rooted, root.parts.take n ++ rest⟩).isSome = true ↔ root.parts.drop n <+: rest := by
  have hsplit (more : List Bytes) : root.parts.take n ++ rest = root.parts ++ more ↔ rest = root.parts.drop n ++ more := by
    nth_rewrite 2 [← List.take_append_drop n root.parts]
    rw [List.append_assoc, List.append_cancel_left_eq]
  simp only [Option.isSome_iff_exists, below?_eq_some_iff, true_and, hsplit]
  constructor
  · rintro ⟨more, hmore, -⟩
    exact ⟨more, hmore.symm⟩
  · rintro ⟨more, rfl⟩
    exact ⟨more, rfl, fun hhead => (hrest _ (List.mem_append_right _ (List.mem_of_mem_head? hhead))).2.2 rfl⟩

theorem below?_above {rooted : Bool} {plain : List Bytes} (hplain : ∀ part ∈ plain, Plain part) (up more : Nat)
    (rest : List Bytes) :
    below? ⟨rooted, List.replicate up parent ++ plain⟩ ⟨rooted, List.replicate (up + (more + 1)) parent ++ rest⟩ =
      none := by
  refine Option.eq_none_iff_forall_ne_some.2 fun further hbelow => ?_
  obtain ⟨-, hparts, hhead⟩ := below?_eq_some_iff.1 hbelow
  dsimp only at hparts
  rw [List.replicate_add, List.append_assoc, List.append_assoc, List.append_cancel_left_eq, List.replicate_succ,
    List.cons_append] at hparts
  cases plain with
  | nil => exact hhead (by rw [← List.nil_append further, ← hparts, List.head?_cons])
  | cons part plain =>
      obtain ⟨rfl, -⟩ := List.cons.inj hparts
      exact (hplain _ List.mem_cons_self).2.2 rfl

/-- A text leads to a place at or below the directory that it is joined to exactly if it stays there. -/
theorem below?_join {root : Bytes} (hroot : root ≠ []) (text : Bytes) :
    ((ofBytes root).below? (ofBytes (join root text))).isSome = true ↔ stays (ofBytes root) text = true := by
  obtain ⟨up, rest, htext, hrest⟩ := exists_relative text
  obtain ⟨out, plain, hparts, hplain, hout⟩ := (reduced_ofBytes root).exists_append
  rw [ofBytes_join hroot, htext, stays_iff htext hrest, List.foldl_append, foldl_push_plain hrest]
  generalize ofBytes root = p at hparts hout ⊢
  obtain ⟨rooted, parts⟩ := p
  dsimp only at hparts hout ⊢
  subst hparts
  have hlength : (List.replicate out parent ++ plain).length = out + plain.length := by
    rw [List.length_append, List.length_replicate]
  by_cases hup : up ≤ plain.length ∨ rooted = true ∧ out = 0
  · have hin : rooted = true ∨ up ≤ out + plain.length := by
      rcases hup with hup | ⟨hrooted, -⟩
      · exact .inr (by omega)
      · exact .inl hrooted
    rw [foldl_push_within hplain hup, List.reverse_append, List.reverse_reverse, List.reverse_reverse, hlength,
      and_iff_right hin]
    exact below?_take ⟨rooted, List.replicate out parent ++ plain⟩ hrest _
  · -- the text climbs out of all that the directory entered, and can only go further up
    rw [not_or] at hup
    obtain ⟨more, rfl⟩ : ∃ more, up = plain.length + (more + 1) := ⟨up - plain.length - 1, by omega⟩
    have hfree : rooted = false := by
      rw [← Bool.not_eq_true]
      exact fun hrooted => hup.2 ⟨hrooted, hout hrooted⟩
    subst hfree
    rw [foldl_push_beyond hplain, List.reverse_append, List.reverse_reverse, List.reverse_replicate,
      below?_above hplain, hlength]
    refine iff_of_false Bool.false_ne_true ?_
    rintro ⟨hin, hdrop⟩
    have hle : plain.length + (more + 1) ≤ out + plain.length := hin.resolve_left Bool.false_ne_true
    have hmem : parent ∈ (List.replicate out parent ++ plain).drop (out + plain.length - (plain.length + (more + 1))) := by
      rw [List.drop_append_of_le_length (by rw [List.length_replicate]; omega), List.drop_replicate]
      exact List.mem_append_left _ (List.mem_replicate.2 ⟨by omega, rfl⟩)
    exact (hrest _ (hdrop.subset hmem)).2.2 rfl

theorem plain_of_not_climbs {text : Bytes} (h : climbs text = false) : ∀ part ∈ (relative text).parts, Plain part := by
  obtain ⟨up, rest, htext, hrest⟩ := exists_relative text
  cases up with
  | zero => simpa [htext] using hrest
  | succ up => simp [climbs, htext, List.replicate_succ] at h

theorem below?_join_of_not_climbs {root : Bytes} (hroot : root ≠ []) {text : Bytes} (h : climbs text = false) :
    (ofBytes root).below? (ofBytes (join root text)) = some (relative text).parts := by
  have hplain := plain_of_not_climbs h
  rw [ofBytes_join hroot, foldl_push_plain hplain, List.reverse_append, List.reverse_reverse, List.reverse_reverse]
  exact below?_eq_some_iff.2 ⟨rfl, rfl, fun hhead => (hplain _ (List.mem_of_mem_head? hhead)).2.2 rfl⟩

end Path

end Polish
