import Polish.Loading
import Polish.Proofs.Path

namespace Polish

namespace Path

def components (text : Bytes) : List Bytes := (Bytes.split slash text).filter fun part => part ≠ [] ∧ part ≠ here

def named (parts : List Bytes) : Bytes := if parts.isEmpty then here else List.intercalate [slash] parts

/-- The parts of `p` below `root`, if it lies at or below it: both are rooted or both are not, the parts
of the root come first, and what remains does not climb out again. -/
def below? (root p : Path) : Option (List Bytes) :=
  if root.rooted = p.rooted ∧ root.parts.isPrefixOf p.parts then
    let rest := p.parts.drop root.parts.length
    if rest.head? = some parent then none else some rest
  else none

theorem below?_eq_some_iff {root p : Path} {rest : List Bytes} :
    root.below? p = some rest ↔ root.rooted = p.rooted ∧ p.parts = root.parts ++ rest ∧ rest.head? ≠ some parent := by
  unfold below?
  constructor
  · intro h
    split at h
    · rename_i hroot
      obtain ⟨more, hmore⟩ := List.isPrefixOf_iff_prefix.1 hroot.2
      dsimp only at h
      rw [← hmore, List.drop_left] at h
      split at h
      · cases h
      · rename_i hhead
        obtain rfl := Option.some.inj h
        exact ⟨hroot.1, hmore.symm, hhead⟩
    · cases h
  · rintro ⟨hrooted, hparts, hhead⟩
    have hstart : root.parts.isPrefixOf p.parts = true := List.isPrefixOf_iff_prefix.2 ⟨rest, hparts.symm⟩
    rw [if_pos ⟨hrooted, hstart⟩]
    dsimp only
    rw [hparts, List.drop_left, if_neg hhead]

theorem Settled.here_notMem {rooted : Bool} {reversed : List Bytes} (h : Settled rooted reversed) : here ∉ reversed := by
  induction h with
  | nil => exact List.not_mem_nil
  | climb _ _ _ ih => exact List.not_mem_cons_of_ne_of_not_mem (by decide) ih
  | part _ hhere _ _ _ ih => exact List.not_mem_cons_of_ne_of_not_mem hhere.symm ih

theorem Reduced.here_notMem {p : Path} (h : p.Reduced) : here ∉ p.parts :=
  fun hmem => Settled.here_notMem h (List.mem_reverse.2 hmem)

theorem rooted_ofBytes (text : Bytes) : (ofBytes text).rooted = isAbsolute (clean text) := by
  rw [← ofBytes_clean]
  rfl

theorem split_toBytes_rooted {parts : List Bytes} (h : Reduced ⟨true, parts⟩) :
    Bytes.split slash (toBytes ⟨true, parts⟩) = [] :: if parts.isEmpty then [[]] else parts := by
  cases parts with
  | nil => rfl
  | cons part parts => exact (split_slash _).trans (by rw [split_intercalate h.forall_mem (List.cons_ne_nil _ _)]; rfl)

theorem split_toBytes_relative {parts : List Bytes} (h : Reduced ⟨false, parts⟩) :
    Bytes.split slash (toBytes ⟨false, parts⟩) = if parts.isEmpty then [here] else parts := by
  cases parts with
  | nil => rfl
  | cons part parts => exact split_intercalate h.forall_mem (List.cons_ne_nil _ _)

theorem components_clean (text : Bytes) : components (clean text) = (ofBytes text).parts := by
  have h := reduced_ofBytes text
  unfold components clean
  generalize ofBytes text = p at h
  have hparts : p.parts.filter (fun part => part ≠ [] ∧ part ≠ here) = p.parts := by
    refine List.filter_eq_self.2 fun part hpart => decide_eq_true ⟨(h.forall_mem part hpart).1, ?_⟩
    rintro rfl
    exact h.here_notMem hpart
  obtain ⟨rooted, parts⟩ := p
  cases rooted with
  | true =>
      rw [split_toBytes_rooted h]
      cases parts with
      | nil => rfl
      | cons part parts => exact hparts
  | false =>
      rw [split_toBytes_relative h]
      cases parts with
      | nil => rfl
      | cons part parts => exact hparts

/-- No part of a reduced path is empty, so that nothing is cut off its end. -/
theorem elements_eq {text part : Bytes} {parts : List Bytes} (h : Bytes.split slash text = part :: parts)
    (hlast : (part :: parts).getLast? ≠ some []) : elements text = part :: parts := by
  unfold elements
  dsimp only
  rw [h, if_neg hlast]

theorem getLast?_ne {parts : List Bytes} (h : ∀ part ∈ parts, part ≠ [] ∧ slash ∉ part) : parts.getLast? ≠ some [] :=
  fun hlast => (h [] (List.mem_of_getLast? hlast)).1 rfl

theorem elements_rooted {parts : List Bytes} (h : Reduced ⟨true, parts⟩) :
    elements (toBytes ⟨true, parts⟩) = [] :: parts := by
  cases parts with
  | nil => rfl
  | cons part parts =>
      refine elements_eq (split_toBytes_rooted h) ?_
      exact List.getLast?_cons_cons.trans_ne (getLast?_ne h.forall_mem)

theorem elements_relative {parts : List Bytes} (h : Reduced ⟨false, parts⟩) :
    elements (toBytes ⟨false, parts⟩) = if parts.isEmpty then [here] else parts := by
  cases parts with
  | nil => rfl
  | cons part parts => exact elements_eq (split_toBytes_relative h) (getLast?_ne h.forall_mem)

theorem diverge_append (parts rest : List Bytes) : diverge parts (parts ++ rest) = ([], rest) := by
  induction parts with
  | nil => cases rest <;> rfl
  | cons part parts ih => rw [List.cons_append, diverge, if_pos rfl, ih]

theorem prefix_of_diverge {as bs : List Bytes} (h : (diverge as bs).1 = []) : as <+: bs := by
  fun_induction diverge as bs with
  | case1 a as bs ih => exact List.cons_prefix_cons.2 ⟨rfl, ih h⟩
  | case2 => cases h
  | case3 as bs _ =>
      obtain rfl : as = [] := h
      exact List.nil_prefix

theorem takeWhile_intercalate {part : Bytes} (h : slash ∉ part) (parts : List Bytes) :
    (List.intercalate [slash] (part :: parts)).takeWhile (· != slash) = part := by
  have hpart : ∀ b ∈ part, (b != slash) = true := fun b hb => bne_iff_ne.2 fun he => h (he ▸ hb)
  cases parts with
  | nil =>
      rw [List.intercalate_singleton, ← List.append_nil part, List.takeWhile_append_of_pos hpart, List.takeWhile_nil]
  | cons next parts =>
      rw [List.intercalate_cons_cons, List.append_assoc, List.takeWhile_append_of_pos hpart]
      simp

/-- A text leads out of a root if its first part does, and not if this part only begins like a step up. -/
theorem leaves_intercalate {part : Bytes} (h : slash ∉ part) (parts : List Bytes) :
    leaves (List.intercalate [slash] (part :: parts)) = true ↔ part = parent := by
  have htake := takeWhile_intercalate h parts
  have hup : parent.takeWhile (· != slash) = parent := by decide
  simp only [leaves, Bool.or_eq_true, decide_eq_true_eq, List.isPrefixOf_iff_prefix]
  constructor
  · rintro (he | ⟨rest, he⟩)
    · rw [← htake, he, hup]
    · rw [← htake, ← he]
      rfl
  · rintro rfl
    cases parts with
    | nil => exact .inl (List.intercalate_singleton ..)
    | cons next parts =>
        refine .inr ⟨List.intercalate [slash] (next :: parts), ?_⟩
        rw [List.intercalate_cons_cons]

theorem clean_eq_iff {root text : Bytes} : clean text = clean root ↔ ofBytes text = ofBytes root :=
  ⟨fun h => by rw [← ofBytes_clean, h, ofBytes_clean], fun h => by rw [clean, clean, h]⟩

theorem clean_eq_here_iff {text : Bytes} : clean text = here ↔ ofBytes text = ⟨false, []⟩ :=
  @clean_eq_iff here text

theorem elements_clean (text : Bytes) : elements (clean text) =
    if (ofBytes text).rooted then [] :: (ofBytes text).parts
    else if (ofBytes text).parts.isEmpty then [here] else (ofBytes text).parts := by
  have h := reduced_ofBytes text
  rw [clean]
  generalize ofBytes text = p at h
  obtain ⟨rooted, parts⟩ := p
  cases rooted with
  | true => exact elements_rooted h
  | false => exact elements_relative h

theorem isAbsolute_baseText (root : Bytes) : isAbsolute (baseText root) = (ofBytes root).rooted := by
  unfold baseText
  split
  · rename_i hhere
    rw [clean_eq_here_iff.1 hhere]
    rfl
  · rw [rooted_ofBytes]

theorem elements_baseText (root : Bytes) : elements (baseText root) =
    if (ofBytes root).rooted then [] :: (ofBytes root).parts else (ofBytes root).parts := by
  unfold baseText
  split
  · rename_i hhere
    rw [clean_eq_here_iff.1 hhere]
    rfl
  · rename_i hhere
    rw [clean_eq_here_iff] at hhere
    rw [elements_clean]
    generalize ofBytes root = p at hhere
    obtain ⟨rooted, parts⟩ := p
    cases rooted with
    | true => rfl
    | false =>
        cases parts with
        | nil => exact absurd rfl hhere
        | cons part parts => rfl

section RelativeTo

variable {root text : Bytes}

theorem relativeTo?_self (h : ofBytes text = ofBytes root) : relativeTo? root text = some here := by
  rw [relativeTo?, if_pos (clean_eq_iff.2 h)]

theorem relativeTo?_apart (h : (ofBytes root).rooted ≠ (ofBytes text).rooted) : relativeTo? root text = none := by
  have hne : clean text ≠ clean root := fun he => h (congrArg rooted (clean_eq_iff.1 he)).symm
  rw [relativeTo?, if_neg hne, isAbsolute_baseText, ← rooted_ofBytes, if_pos h]

theorem relativeTo?_together (h : (ofBytes root).rooted = (ofBytes text).rooted) (hne : ofBytes text ≠ ofBytes root)
    {up down : List Bytes} (hup : diverge (elements (baseText root)) (elements (clean text)) = (up, down)) :
    relativeTo? root text = if up.head? = some parent ∧ down ≠ [] then none
      else some (List.intercalate [slash] (up.map (fun _ => parent) ++ down)) := by
  rw [relativeTo?, if_neg (mt clean_eq_iff.1 hne), isAbsolute_baseText, ← rooted_ofBytes, if_neg (not_not_intro h), hup]

end RelativeTo

end Path

namespace Loader

open Polish.Path

variable {root path : Bytes}

theorem mounted?_of_leaves {name : Bytes} (h : relativeTo? root path = some name) (hleaves : leaves name = true) :
    mounted? root path = none := by
  simp only [mounted?, h, hleaves, if_true]

theorem mounted?_of_append {rest : List Bytes} (hrooted : (ofBytes root).rooted = (ofBytes path).rooted)
    (hparts : (ofBytes path).parts = (ofBytes root).parts ++ rest) :
    mounted? root path = if rest.head? = some parent then none else some (named rest) := by
  cases rest with
  | nil =>
      have hself : ofBytes path = ofBytes root := by
        rw [List.append_nil] at hparts
        exact Path.ext hrooted.symm hparts
      simp only [mounted?, relativeTo?_self hself]
      rfl
  | cons part rest =>
      have hslash : slash ∉ part := ((reduced_ofBytes path).forall_mem part (by simp [hparts])).2
      have hne : ofBytes path ≠ ofBytes root := by
        intro he
        rw [he] at hparts
        simp at hparts
      have hdiverge : diverge (elements (baseText root)) (elements (clean path)) = ([], part :: rest) := by
        rw [elements_baseText, elements_clean, hrooted, hparts]
        split
        · exact diverge_append ([] :: (ofBytes root).parts) (part :: rest)
        · rw [if_neg (by simp)]
          exact diverge_append _ _
      have hname := relativeTo?_together hrooted hne hdiverge
      rw [if_neg (by simp)] at hname
      simp only [mounted?, hname]
      rw [List.map_nil, List.nil_append]
      by_cases hup : part = parent
      · rw [if_pos ((leaves_intercalate hslash rest).2 hup), if_pos (by rw [hup]; rfl)]
      · rw [if_neg (mt (leaves_intercalate hslash rest).1 hup), if_neg (by simpa using hup)]
        rfl

theorem mounted?_elsewhere (hrooted : (ofBytes root).rooted = (ofBytes path).rooted)
    (hparts : ¬ (ofBytes root).parts <+: (ofBytes path).parts) : mounted? root path = none := by
  have hne : ofBytes path ≠ ofBytes root := fun he => hparts (he ▸ List.prefix_rfl)
  cases hdiverge : diverge (elements (baseText root)) (elements (clean path)) with
  | mk up down =>
      have hup : up ≠ [] := by
        rintro rfl
        have hstart := prefix_of_diverge (congrArg Prod.fst hdiverge)
        rw [elements_baseText, elements_clean, hrooted] at hstart
        split at hstart
        · exact hparts (List.cons_prefix_cons.1 hstart).2
        · split at hstart
          · cases hroot : (ofBytes root).parts with
            | nil => exact hparts (hroot ▸ List.nil_prefix)
            | cons part parts =>
                rw [hroot] at hstart
                obtain ⟨rfl, -⟩ := List.cons_prefix_cons.1 hstart
                exact (reduced_ofBytes root).here_notMem (hroot ▸ List.mem_cons_self)
          · exact hparts hstart
      have hname := relativeTo?_together hrooted hne hdiverge
      split at hname
      · simp only [mounted?, hname]
      · refine mounted?_of_leaves hname ?_
        obtain ⟨first, up, rfl⟩ := List.exists_cons_of_ne_nil hup
        have hslash : slash ∉ parent := by decide
        exact (leaves_intercalate hslash _).2 rfl

/-- The text that leads to a path decides what its parts say. -/
theorem mounted?_eq_some_iff {name : Bytes} :
    mounted? root path = some name ↔ ∃ rest, (ofBytes root).below? (ofBytes path) = some rest ∧ name = named rest := by
  simp only [below?_eq_some_iff]
  constructor
  · intro h
    by_cases hrooted : (ofBytes root).rooted = (ofBytes path).rooted
    · by_cases hparts : (ofBytes root).parts <+: (ofBytes path).parts
      · obtain ⟨rest, hrest⟩ := hparts
        rw [mounted?_of_append hrooted hrest.symm] at h
        split at h
        · cases h
        · rename_i hhead
          exact ⟨rest, ⟨hrooted, hrest.symm, hhead⟩, (Option.some.inj h).symm⟩
      · rw [mounted?_elsewhere hrooted hparts] at h
        cases h
    · simp only [mounted?, relativeTo?_apart hrooted] at h
      cases h
  · rintro ⟨rest, ⟨hrooted, hparts, hhead⟩, rfl⟩
    rw [mounted?_of_append hrooted hparts, if_neg hhead]

end Loader

namespace Path

/-- A path lies at or below a root, and its further parts are given: both clean texts are absolute or both are not, the
parts of the root come first, and what follows does not step up. -/
structure Below (root path : Bytes) (rest : List Bytes) : Prop where
  absolute : isAbsolute (clean path) = isAbsolute (clean root)
  parts : components (clean path) = components (clean root) ++ rest
  inside : rest.head? ≠ some parent

theorem below_iff {root path : Bytes} {rest : List Bytes} :
    Below root path rest ↔ (ofBytes root).below? (ofBytes path) = some rest := by
  rw [below?_eq_some_iff, rooted_ofBytes, rooted_ofBytes, ← components_clean, ← components_clean]
  exact ⟨fun h => ⟨h.absolute.symm, h.parts, h.inside⟩, fun h => ⟨h.1.symm, h.2.1, h.2.2⟩⟩

end Path

/-- Of a file system at a root and other files, the file system is asked exactly for what lies at or below the root, by
its further parts, and the other files are asked for everything else, by the path as it is. -/
theorem Loader.readMounted_dispatch (root path : Bytes) :
    (∀ name, mounted? root path = some name ↔ ∃ rest, Path.Below root path rest ∧ name = Path.named rest) ∧
    (∀ mount others rest, Path.Below root path rest →
      readMounted root mount others path = mount (Path.named rest)) ∧
    ∀ mount, (¬ ∃ rest, Path.Below root path rest) →
      (∀ loader, readMounted root mount (some loader) path = loader.read path) ∧
      readMounted root mount none path = .error { path, trouble := .doesNotExist } := by
  have hname (name : Bytes) :
      mounted? root path = some name ↔ ∃ rest, Path.Below root path rest ∧ name = Path.named rest := by
    simp only [mounted?_eq_some_iff, Path.below_iff]
  refine ⟨hname, fun mount others rest hrest => ?_, fun mount hnone => ?_⟩
  · have hsome := (hname _).2 ⟨rest, hrest, rfl⟩
    simp only [readMounted, hsome]
  · have hout : mounted? root path = none := by
      refine Option.eq_none_iff_forall_ne_some.2 fun name hsome => hnone ?_
      obtain ⟨rest, hrest, -⟩ := (hname name).1 hsome
      exact ⟨rest, hrest⟩
    simp only [readMounted, hout, implies_true, and_self]

/-- A name that only begins like a step up lies below the root, and a directory whose name only begins like that of the
root does not. -/
theorem Loader.readMounted_dispatch_dots :
    (Path.Below (utf8 "./@std/") (utf8 "@std//./..x/y") [utf8 "..x", utf8 "y"] ∧
      ∀ mount others, readMounted (utf8 "./@std/") mount others (utf8 "@std//./..x/y") = mount (utf8 "..x/y")) ∧
    (¬ ∃ rest, Path.Below (utf8 "./@std/") (utf8 "@stdx/y") rest) ∧
      ∀ mount loader, readMounted (utf8 "./@std/") mount (some loader) (utf8 "@stdx/y") = loader.read (utf8 "@stdx/y") := by
  have hbelow : Path.Below (utf8 "./@std/") (utf8 "@std//./..x/y") [utf8 "..x", utf8 "y"] :=
    ⟨by decide +kernel, by decide +kernel, by decide +kernel⟩
  have houtside : ¬ ∃ rest, Path.Below (utf8 "./@std/") (utf8 "@stdx/y") rest := by
    rintro ⟨rest, hrest⟩
    have hnone : (Path.ofBytes (utf8 "./@std/")).below? (Path.ofBytes (utf8 "@stdx/y")) = none := by decide +kernel
    rw [Path.below_iff, hnone] at hrest
    cases hrest
  obtain ⟨-, hread, -⟩ := readMounted_dispatch (utf8 "./@std/") (utf8 "@std//./..x/y")
  obtain ⟨-, -, hother⟩ := readMounted_dispatch (utf8 "./@std/") (utf8 "@stdx/y")
  exact ⟨⟨hbelow, fun mount others => hread mount others _ hbelow⟩, houtside, fun mount => (hother mount houtside).1⟩

end Polish
