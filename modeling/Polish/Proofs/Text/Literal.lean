import Polish.Proofs.Script

namespace Polish.Text

section Pieces

theorem toNat_ofNat {n : Nat} (h : n.isValidChar) : (Char.ofNat n).toNat = n := by
  rw [Char.ofNat, dif_pos h]
  rfl

theorem payload?_eq_some {b : UInt8} {n : Nat} (h : payload? b = some n) : n < 64 ∧ b = UInt8.ofNat (n + 128) := by
  unfold payload? at h
  split at h
  · rename_i hb
    rw [Bool.and_eq_true, decide_eq_true_eq, decide_eq_true_eq, UInt8.le_iff_toNat_le, UInt8.lt_iff_toNat_lt] at hb
    obtain ⟨hlow, hhigh⟩ := hb
    have hlow : 128 ≤ b.toNat := hlow
    have hhigh : b.toNat < 192 := hhigh
    obtain rfl := Option.some.inj h
    refine ⟨by omega, ?_⟩
    rw [Nat.sub_add_cancel hlow, UInt8.ofNat_toNat]
  · cases h

theorem encode_ofNat {v : Nat} (h : v.isValidChar) : encode (Char.ofNat v) =
    if v ≤ 127 then [UInt8.ofNat v]
    else if v ≤ 2047 then [UInt8.ofNat (v / 64 % 32 + 192), UInt8.ofNat (v % 64 + 128)]
    else if v ≤ 65535 then
      [UInt8.ofNat (v / 4096 % 16 + 224), UInt8.ofNat (v / 64 % 64 + 128), UInt8.ofNat (v % 64 + 128)]
    else
      [UInt8.ofNat (v / 262144 % 8 + 240), UInt8.ofNat (v / 4096 % 64 + 128), UInt8.ofNat (v / 64 % 64 + 128),
        UInt8.ofNat (v % 64 + 128)] := by
  have hv : (Char.ofNat v).val.toNat = v := toNat_ofNat h
  rw [encode, String.utf8EncodeChar]
  simp only [hv]

theorem exists_cons_of_getElem? {rest : Bytes} {b : UInt8} (h : rest[0]? = some b) : ∃ tail, rest = b :: tail := by
  cases rest with
  | nil => cases h
  | cons a tail => exact ⟨tail, by rw [Option.some.inj h]⟩

/-- A sequence of bytes for a scalar value is the one that the value is written in. -/
theorem encode_of_scalarAt? {b : UInt8} {rest : Bytes} {c : Char} {more : Nat} (h : scalarAt? b rest = some (c, more)) :
    encode c = b :: rest.take more ∧ more ≤ rest.length := by
  have hfirst (n : Nat) (hn : n = b.toNat) : UInt8.ofNat n = b := by rw [hn, UInt8.ofNat_toNat]
  unfold scalarAt? at h
  dsimp only at h
  split at h
  · rename_i hlt
    obtain ⟨rfl, rfl⟩ := Prod.mk.inj (Option.some.inj h)
    rw [encode_ofNat (.inl (by omega)), if_pos (by omega), hfirst _ rfl]
    exact ⟨rfl, Nat.zero_le _⟩
  split at h
  · cases h
  split at h
  · simp only [Option.bind_eq_bind, Option.bind_eq_some_iff] at h
    obtain ⟨b1, h1, p1, hp1, h⟩ := h
    obtain ⟨tail, rfl⟩ := exists_cons_of_getElem? h1
    obtain ⟨hlt1, rfl⟩ := payload?_eq_some hp1
    obtain ⟨rfl, rfl⟩ := Prod.mk.inj (Option.some.inj h)
    rw [encode_ofNat (.inl (by omega)), if_neg (by omega), if_pos (by omega), hfirst _ (by omega),
      show ((b.toNat - 0xC0) * 64 + p1) % 64 = p1 by omega]
    exact ⟨rfl, Nat.le_add_left 1 _⟩
  split at h
  · simp only [Option.bind_eq_bind, Option.bind_eq_some_iff] at h
    obtain ⟨b1, h1, p1, hp1, b2, h2, p2, hp2, h⟩ := h
    obtain ⟨tail, rfl⟩ := exists_cons_of_getElem? h1
    obtain ⟨tail, rfl⟩ := exists_cons_of_getElem? h2
    obtain ⟨hlt1, rfl⟩ := payload?_eq_some hp1
    obtain ⟨hlt2, rfl⟩ := payload?_eq_some hp2
    split at h
    · cases h
    rename_i hvalid
    generalize hv : ((b.toNat - 0xE0) * 64 + p1) * 64 + p2 = v at h hvalid
    obtain ⟨rfl, rfl⟩ := Prod.mk.inj (Option.some.inj h)
    rw [encode_ofNat (by unfold Nat.isValidChar; omega), if_neg (by omega), if_neg (by omega), if_pos (by omega),
      hfirst _ (by omega), show v / 64 % 64 = p1 by omega, show v % 64 = p2 by omega]
    exact ⟨rfl, Nat.le_add_left 2 _⟩
  split at h
  · simp only [Option.bind_eq_bind, Option.bind_eq_some_iff] at h
    obtain ⟨b1, h1, p1, hp1, b2, h2, p2, hp2, b3, h3, p3, hp3, h⟩ := h
    obtain ⟨tail, rfl⟩ := exists_cons_of_getElem? h1
    obtain ⟨tail, rfl⟩ := exists_cons_of_getElem? h2
    obtain ⟨tail, rfl⟩ := exists_cons_of_getElem? h3
    obtain ⟨hlt1, rfl⟩ := payload?_eq_some hp1
    obtain ⟨hlt2, rfl⟩ := payload?_eq_some hp2
    obtain ⟨hlt3, rfl⟩ := payload?_eq_some hp3
    split at h
    · cases h
    rename_i hvalid
    generalize hv : (((b.toNat - 0xF0) * 64 + p1) * 64 + p2) * 64 + p3 = v at h hvalid
    obtain ⟨rfl, rfl⟩ := Prod.mk.inj (Option.some.inj h)
    rw [encode_ofNat (by unfold Nat.isValidChar; omega), if_neg (by omega), if_neg (by omega), if_neg (by omega),
      hfirst _ (by omega), show v / 4096 % 64 = p1 by omega, show v / 64 % 64 = p2 by omega,
      show v % 64 = p3 by omega]
    exact ⟨rfl, Nat.le_add_left 3 _⟩
  · cases h

theorem flatMap_bytes_piecesAfter (skip : Nat) (text : Bytes) (h : skip ≤ text.length) :
    (piecesAfter skip text).flatMap Piece.bytes = text.drop skip := by
  induction text generalizing skip with
  | nil =>
      obtain rfl := Nat.le_zero.1 h
      rfl
  | cons b rest ih =>
      cases skip with
      | succ skip => exact ih skip (Nat.le_of_succ_le_succ h)
      | zero =>
          simp only [piecesAfter]
          split
          · rename_i c more hscalar
            obtain ⟨hencode, hlen⟩ := encode_of_scalarAt? hscalar
            rw [List.flatMap_cons, ih more hlen, Piece.bytes, hencode, List.cons_append, List.take_append_drop]
            rfl
          · rw [List.flatMap_cons, ih 0 (Nat.zero_le _)]
            rfl

theorem flatMap_bytes_pieces (text : Bytes) : (pieces text).flatMap Piece.bytes = text :=
  flatMap_bytes_piecesAfter 0 text (Nat.zero_le _)

end Pieces

end Polish.Text

namespace Polish.Script

def hexValue? (b : UInt8) : Option Nat :=
  if Bytes.isDigit b then some (b - ascii '0').toNat
  else if ascii 'a' ≤ b && b ≤ ascii 'f' then some ((b - ascii 'a').toNat + 10)
  else none

def hexNumber? (digits : Bytes) : Option Nat := digits.foldlM (fun n b => (hexValue? b).map (n * 16 + ·)) 0

def escapes : List (UInt8 × UInt8) :=
  [(ascii '"', ascii '"'), (ascii '\\', ascii '\\'), (ascii 'b', 0x08), (ascii 'f', 0x0C), (ascii 'n', 0x0A),
    (ascii 'r', 0x0D), (ascii 't', 0x09)]

def characters : Bytes → Option (Bytes × Bytes)
  | [] => none
  | b :: rest =>
    if b = ascii '"' then some ([], rest)
    else if b ≠ ascii '\\' then (characters rest).map (Prod.map (b :: ·) id)
    else match rest with
      | [] => none
      | e :: rest =>
        if e ≠ ascii 'u' then do
          let b ← escapes.lookup e
          (characters rest).map (Prod.map (b :: ·) id)
        else match rest with
          | h₁ :: h₂ :: h₃ :: h₄ :: rest => do
            let n ← hexNumber? [h₁, h₂, h₃, h₄]
            (characters rest).map (Prod.map (Text.encode (Char.ofNat n) ++ ·) id)
          | _ => none

theorem hexValue?_hexDigit : ∀ n < 16, hexValue? (Bytes.hexDigit n) = some n := by decide

theorem hexNumber?_hex (width n : Nat) : hexNumber? (Bytes.hex width n) = some (n % 16 ^ width) := by
  induction width generalizing n with
  | zero => simp [Bytes.hex, hexNumber?, Nat.mod_one]
  | succ width ih =>
      have hdigits : n / 16 % 16 ^ width * 16 + n % 16 = n % 16 ^ (width + 1) := by
        rw [Nat.pow_succ, Nat.mul_comm (16 ^ width), Nat.mod_mul]
        omega
      unfold hexNumber? at ih ⊢
      rw [Bytes.hex, List.foldlM_append, ih, Option.bind_eq_bind, Option.bind_some, List.foldlM_cons,
        hexValue?_hexDigit _ (Nat.mod_lt _ (by decide))]
      exact congrArg some hdigits

section Characters

variable {rest text after : Bytes}

theorem characters_quote (rest : Bytes) : characters (ascii '"' :: rest) = some ([], rest) := by
  rw [characters.eq_def]
  exact if_pos rfl

theorem characters_plain (hr : characters rest = some (text, after)) {bs : Bytes}
    (h : ∀ b ∈ bs, b ≠ ascii '"' ∧ b ≠ ascii '\\') : characters (bs ++ rest) = some (bs ++ text, after) := by
  induction bs with
  | nil => exact hr
  | cons b bs ih =>
      obtain ⟨⟨hquote, hslash⟩, h⟩ := List.forall_mem_cons.1 h
      rw [List.cons_append, characters.eq_def]
      simp only [if_neg hquote, if_pos hslash, ih h]
      rfl

theorem characters_escape (hr : characters rest = some (text, after)) {c : Char} {e : UInt8} (hc : c.toNat ≤ 127)
    (h : escapes.lookup e = some (UInt8.ofNat c.toNat)) :
    characters (ascii '\\' :: e :: rest) = some (Text.encode c ++ text, after) := by
  have hencode : Text.encode c = [UInt8.ofNat c.toNat] := if_pos hc
  have hquote : ascii '\\' ≠ ascii '"' := by decide
  have he : e ≠ ascii 'u' := by
    rintro rfl
    cases h
  rw [characters.eq_def, hencode]
  simp only [if_neg hquote, ne_eq, not_true_eq_false, if_false, he, not_false_eq_true, if_true, h, hr]
  rfl

theorem characters_unicode (hr : characters rest = some (text, after)) {c : Char} (hc : c.toNat < 0x10000) :
    characters (ascii '\\' :: ascii 'u' :: Bytes.hex 4 c.toNat ++ rest) = some (Text.encode c ++ text, after) := by
  obtain ⟨h₁, h₂, h₃, h₄, hhex⟩ : ∃ h₁ h₂ h₃ h₄, Bytes.hex 4 c.toNat = [h₁, h₂, h₃, h₄] := ⟨_, _, _, _, rfl⟩
  have hquote : ascii '\\' ≠ ascii '"' := by decide
  have hnumber := hexNumber?_hex 4 c.toNat
  rw [hhex, Nat.mod_eq_of_lt (show c.toNat < 16 ^ 4 from hc)] at hnumber
  rw [hhex, characters.eq_def]
  simp only [List.cons_append, List.nil_append, if_neg hquote, ne_eq, not_true_eq_false, if_false, hnumber, hr,
    Option.bind_eq_bind, Option.bind_some, Char.ofNat_toNat]
  rfl

theorem characters_literalChar (hr : characters rest = some (text, after)) (c : Char) :
    characters (Text.literalChar c ++ rest) = some (Text.encode c ++ text, after) := by
  unfold Text.literalChar
  split
  · rename_i hc
    rcases hc with rfl | rfl
    · exact characters_escape hr (by decide) (by decide)
    · exact characters_escape hr (by decide) (by decide)
  rename_i hc
  split
  iterate 5
    · rename_i hn
      exact characters_escape hr (by rw [hn]; decide) (by rw [hn]; decide)
  split
  · rename_i hescape
    have hlt : c.toNat < 0x10000 := by
      rcases hescape with hlt | rfl | rfl | rfl | hn | hn
      · omega
      · decide
      · decide
      · decide
      · omega
      · omega
    exact characters_unicode hr hlt
  · refine characters_plain hr fun b hb => ⟨?_, ?_⟩
    · rintro rfl
      exact hc (.inl (Char.toNat_inj.1 (toNat_of_mem_encode hb (by decide))))
    · rintro rfl
      exact hc (.inr (Char.toNat_inj.1 (toNat_of_mem_encode hb (by decide))))

theorem characters_pieces {pieces : List Text.Piece} (h : ∀ p ∈ pieces, ∃ c, p = .scalar c) (rest : Bytes) :
    characters (pieces.flatMap Text.literalPiece ++ ascii '"' :: rest) =
      some (pieces.flatMap Text.Piece.bytes, rest) := by
  induction pieces with
  | nil => exact characters_quote rest
  | cons p pieces ih =>
      obtain ⟨⟨c, rfl⟩, hpieces⟩ := List.forall_mem_cons.1 h
      rw [List.flatMap_cons, List.append_assoc]
      exact characters_literalChar (ih hpieces) c

/-- The literal of a text without stray bytes is read as the text. -/
theorem characters_literal (h : Text.wellFormed text = true) (rest : Bytes) :
    ∃ inner, Text.literal text ++ rest = ascii '"' :: inner ∧ characters inner = some (text, rest) := by
  have hscalar : ∀ p ∈ Text.pieces text, ∃ c, p = .scalar c := by
    intro p hp
    have hp := List.all_eq_true.1 h p hp
    cases p with
    | scalar c => exact ⟨c, rfl⟩
    | stray b => cases hp
  have hread := characters_pieces hscalar rest
  rw [Text.flatMap_bytes_pieces] at hread
  refine ⟨_, ?_, hread⟩
  exact List.append_assoc (ascii '"' :: (Text.pieces text).flatMap Text.literalPiece) [ascii '"'] rest

end Characters

end Polish.Script
