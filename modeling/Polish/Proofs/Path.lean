import Polish.Importing
import Mathlib.Data.List.Basic

namespace Polish

namespace Bytes

theorem split_eq_splitOn (sep : UInt8) (text : Bytes) : split sep text = text.splitOn sep := by
  induction text with
  | nil => rw [List.splitOn_nil, split]
  | cons b text ih =>
      rw [List.splitOn_cons_eq_if_modifyHead, split, ih]
      by_cases hb : b = sep
      · simp [hb]
      · simp only [hb, beq_iff_eq, if_false]
        cases hsplit : text.splitOn sep with
        | nil => exact absurd hsplit (List.splitOn_ne_nil sep text)
        | cons piece pieces => rfl

theorem notMem_of_mem_split {sep : UInt8} {text piece : Bytes} (h : piece ∈ split sep text) : sep ∉ piece := by
  induction text generalizing piece with
  | nil => simp [List.mem_singleton.1 h]
  | cons b text ih =>
      rw [split] at h
      by_cases hb : b = sep
      · rw [if_pos hb] at h
        rcases List.mem_cons.1 h with rfl | h
        · exact List.not_mem_nil
        · exact ih h
      · rw [if_neg hb] at h
        cases hsplit : split sep text with
        | nil => exact absurd (split_eq_splitOn sep text ▸ hsplit) (List.splitOn_ne_nil sep text)
        | cons first pieces =>
            rw [hsplit] at h ih
            rcases List.mem_cons.1 h with rfl | h
            · rw [List.mem_cons, not_or]
              exact ⟨Ne.symm hb, ih List.mem_cons_self⟩
            · exact ih (List.mem_cons_of_mem _ h)

end Bytes

namespace Path

/-- The parts of a reduced path, last first. -/
inductive Settled (rooted : Bool) : List Bytes → Prop
  | nil : Settled rooted []
  | climb {reversed} (hr : rooted = false) (hlast : ∀ last ∈ reversed.head?, last = parent) (h : Settled rooted reversed) :
      Settled rooted (parent :: reversed)
  | part {part reversed} (hne : part ≠ []) (hhere : part ≠ here) (hparent : part ≠ parent) (hslash : slash ∉ part)
      (h : Settled rooted reversed) : Settled rooted (part :: reversed)

theorem Settled.push {rooted : Bool} {reversed : List Bytes} (h : Settled rooted reversed) {part : Bytes}
    (hslash : slash ∉ part) : Settled rooted (push rooted reversed part) := by
  unfold Path.push
  by_cases hskip : part = [] ∨ part = here
  · rwa [if_pos hskip]
  rw [if_neg hskip]
  rw [not_or] at hskip
  by_cases hparent : part = parent
  · rw [if_pos hparent]
    cases h with
    | nil =>
        cases rooted with
        | true => exact .nil
        | false => exact .climb rfl nofun .nil
    | climb hr hlast h =>
        dsimp only
        rw [if_pos rfl]
        exact .climb hr (by simp) (.climb hr hlast h)
    | part hne hhere hother hslash h =>
        dsimp only
        rwa [if_neg hother]
  · rw [if_neg hparent]
    exact .part hskip.1 hskip.2 hparent hslash h

theorem Settled.foldl_push {rooted : Bool} {reversed : List Bytes} (h : Settled rooted reversed) {parts : List Bytes}
    (hparts : ∀ part ∈ parts, slash ∉ part) : Settled rooted (parts.foldl (Path.push rooted) reversed) := by
  induction parts generalizing reversed with
  | nil => exact h
  | cons part parts ih =>
      obtain ⟨hpart, hparts⟩ := List.forall_mem_cons.1 hparts
      exact ih (h.push hpart) hparts

/-- Nothing is taken back where the parts are those of a reduced path. -/
theorem Settled.foldl_reverse {rooted : Bool} {reversed : List Bytes} (h : Settled rooted reversed) :
    reversed.reverse.foldl (Path.push rooted) [] = reversed := by
  induction h with
  | nil => rfl
  | @climb reversed hr hlast h ih =>
      rw [List.reverse_cons, List.foldl_append, ih, hr]
      cases reversed with
      | nil => rfl
      | cons last before => rw [hlast last rfl]; rfl
  | part hne hhere hparent hslash h ih =>
      rw [List.reverse_cons, List.foldl_append, ih]
      simp [Path.push, hne, hhere, hparent]

theorem Settled.forall_mem {rooted : Bool} {reversed : List Bytes} (h : Settled rooted reversed) :
    ∀ part ∈ reversed, part ≠ [] ∧ slash ∉ part := by
  induction h with
  | nil => exact nofun
  | climb hr hlast h ih => exact List.forall_mem_cons.2 ⟨by decide, ih⟩
  | part hne hhere hparent hslash h ih => exact List.forall_mem_cons.2 ⟨⟨hne, hslash⟩, ih⟩

def Reduced (p : Path) : Prop := Settled p.rooted p.parts.reverse

theorem reduced_ofBytes (text : Bytes) : (ofBytes text).Reduced := by
  unfold Reduced ofBytes
  rw [List.reverse_reverse]
  exact Settled.nil.foldl_push fun part => Bytes.notMem_of_mem_split

theorem Reduced.forall_mem {p : Path} (h : p.Reduced) : ∀ part ∈ p.parts, part ≠ [] ∧ slash ∉ part :=
  fun part hpart => Settled.forall_mem h part (List.mem_reverse.2 hpart)

theorem Reduced.foldl_push {p : Path} (h : p.Reduced) : p.parts.foldl (push p.rooted) [] = p.parts.reverse := by
  have hfold := Settled.foldl_reverse h
  rwa [List.reverse_reverse] at hfold

theorem head_intercalate {part : Bytes} (parts : List Bytes) (hne : part ≠ []) :
    (List.intercalate [slash] (part :: parts)).head? = part.head? := by
  cases parts with
  | nil => rw [List.intercalate_singleton]
  | cons next parts =>
      rw [List.intercalate_cons_cons, List.append_assoc, List.head?_append_of_ne_nil _ hne]

theorem split_intercalate {parts : List Bytes} (h : ∀ part ∈ parts, part ≠ [] ∧ slash ∉ part) (hne : parts ≠ []) :
    Bytes.split slash (List.intercalate [slash] parts) = parts := by
  rw [Bytes.split_eq_splitOn]
  exact List.splitOn_intercalate slash (fun part hpart => (h part hpart).2) hne

theorem split_slash (text : Bytes) : Bytes.split slash (slash :: text) = [] :: Bytes.split slash text := by
  rw [Bytes.split, if_pos rfl]

theorem ofBytes_toBytes {p : Path} (h : p.Reduced) : ofBytes p.toBytes = p := by
  obtain ⟨rooted, parts⟩ := p
  have hparts := h.forall_mem
  have hfold := h.foldl_push
  dsimp only at hparts hfold
  have hsplit (hne : parts ≠ []) := split_intercalate hparts hne
  cases rooted with
  | true =>
      have hbody : (Bytes.split slash (List.intercalate [slash] parts)).foldl (push true) [] = parts.reverse := by
        cases parts with
        | nil => rfl
        | cons part parts => rw [hsplit (List.cons_ne_nil _ _), hfold]
      have hskip : push true [] [] = [] := rfl
      simp only [toBytes, if_true, ofBytes, List.head?_cons, beq_self_eq_true, split_slash, List.foldl_cons, hskip, hbody,
        List.reverse_reverse]
  | false =>
      cases parts with
      | nil => rfl
      | cons part parts =>
          obtain ⟨hne, hslash⟩ := hparts part List.mem_cons_self
          have hhead : ((List.intercalate [slash] (part :: parts)).head? == some slash) = false := by
            rw [head_intercalate parts hne, beq_eq_false_iff_ne]
            intro hhead
            exact hslash (List.mem_of_mem_head? hhead)
          simp only [toBytes, Bool.false_eq_true, if_false, List.isEmpty_cons, ofBytes, hhead,
            hsplit (List.cons_ne_nil _ _), hfold, List.reverse_reverse]

theorem ofBytes_clean (text : Bytes) : ofBytes (clean text) = ofBytes text := ofBytes_toBytes (reduced_ofBytes text)

theorem clean_clean (text : Bytes) : clean (clean text) = clean text := by
  rw [clean, ofBytes_clean, clean]

theorem clean_ne_nil (text : Bytes) : clean text ≠ [] := by
  have hparts := (reduced_ofBytes text).forall_mem
  unfold clean toBytes
  dsimp only
  split
  · exact List.cons_ne_nil _ _
  · cases hp : (ofBytes text).parts with
    | nil => decide
    | cons part parts =>
        obtain ⟨hne, -⟩ := hparts part (by simp [hp])
        have hhead := head_intercalate parts hne
        intro hnil
        rw [List.isEmpty_cons, if_neg Bool.false_ne_true] at hnil
        rw [hnil, List.head?_nil, eq_comm, List.head?_eq_none_iff] at hhead
        exact hne hhead

theorem join_ne_nil {a : Bytes} (ha : a ≠ []) (b : Bytes) : join a b ≠ [] := by
  have ha' : a.isEmpty = false := by simpa using ha
  unfold join
  simp only [ha', Bool.false_and, Bool.false_eq_true, if_false]
  split <;> exact clean_ne_nil _

/-- A text that denotes a path in no other way: a clean one, or the empty one. -/
def Canonical (text : Bytes) : Prop := text = [] ∨ clean text = text

theorem canonical_join (a b : Bytes) : Canonical (join a b) := by
  unfold join
  split
  · exact .inl rfl
  · split
    · exact .inr (clean_clean b)
    · split
      · exact .inr (clean_clean a)
      · exact .inr (clean_clean _)

end Path

namespace Resolver

theorem canonical {resolver : Resolver} {source target path : Bytes} (h : resolver.resolve source target = .ok path) :
    Path.Canonical path := by
  unfold resolve at h
  split at h
  · exact Except.ok.inj h ▸ Path.canonical_join _ _
  · split at h
    · exact nomatch h
    · exact Except.ok.inj h ▸ Path.canonical_join _ _

theorem ne_nil_of_resolve {stdDir ext source target path : Bytes}
    (h : (Resolver.make stdDir ext).resolve source target = .ok path) : path ≠ [] := by
  unfold resolve at h
  split at h
  · obtain rfl := Except.ok.inj h
    refine Path.join_ne_nil ?_ _
    unfold make
    dsimp only
    split
    · decide
    · simpa using ‹¬ stdDir.isEmpty = true›
  · split at h
    · exact nomatch h
    · obtain rfl := Except.ok.inj h
      exact Path.join_ne_nil (Path.clean_ne_nil _) _

end Resolver

end Polish
