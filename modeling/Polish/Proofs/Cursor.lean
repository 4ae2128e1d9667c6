import Polish.Source

namespace Polish

namespace Cursor

def Reaches (c d : Cursor) : Prop := ∃ n, n ≤ c.rest.length ∧ d = c.advance n

theorem advance_advance (c : Cursor) (m n : Nat) : (c.advance m).advance n = c.advance (m + n) := by
  simp [advance, Nat.add_assoc]

namespace Reaches

theorem refl (c : Cursor) : c.Reaches c := ⟨0, Nat.zero_le _, rfl⟩

theorem trans {c d e : Cursor} (h : c.Reaches d) (h' : d.Reaches e) : c.Reaches e := by
  obtain ⟨m, hm, rfl⟩ := h
  obtain ⟨n, hn, rfl⟩ := h'
  refine ⟨m + n, ?_, advance_advance c m n⟩
  simp only [advance, List.length_drop] at hn
  omega

theorem off_add_length {c d : Cursor} (h : c.Reaches d) :
    d.off + d.rest.length = c.off + c.rest.length := by
  obtain ⟨n, hn, rfl⟩ := h
  simp only [advance, List.length_drop]
  omega

theorem off_le {c d : Cursor} (h : c.Reaches d) : c.off ≤ d.off := by
  obtain ⟨n, hn, rfl⟩ := h
  exact Nat.le_add_right _ _

theorem length_le {c d : Cursor} (h : c.Reaches d) : d.rest.length ≤ c.rest.length := by
  have := h.off_add_length
  have := h.off_le
  omega

theorem take_append {c d : Cursor} (h : c.Reaches d) : c.rest.take (d.off - c.off) ++ d.rest = c.rest := by
  obtain ⟨n, hn, rfl⟩ := h
  simp [advance]

end Reaches

theorem reaches_advance (c : Cursor) {n : Nat} (h : n ≤ c.rest.length) : c.Reaches (c.advance n) :=
  ⟨n, h, rfl⟩

theorem reaches_skipBlanks (c : Cursor) : c.Reaches c.skipBlanks :=
  c.reaches_advance (List.takeWhile_prefix _).length_le

theorem skipBlanks_eq_self {c : Cursor} (h : ∀ b, c.rest.head? = some b → isBlank b = false) :
    c.skipBlanks = c := by
  have ht : c.rest.takeWhile isBlank = [] := by
    cases hr : c.rest with
    | nil => rfl
    | cons b bs => simp [h b (by simp [hr])]
  rw [skipBlanks, ht]
  rfl

theorem isBlank_head_skipBlanks (c : Cursor) (b : UInt8) (h : c.skipBlanks.rest.head? = some b) :
    isBlank b = false := by
  have hb := List.head?_dropWhile_not isBlank c.rest
  rw [rest_skipBlanks] at h
  simpa [h] using hb

theorem skipBlanks_idem (c : Cursor) : c.skipBlanks.skipBlanks = c.skipBlanks :=
  skipBlanks_eq_self c.isBlank_head_skipBlanks

theorem token_skipBlanks (c : Cursor) : c.skipBlanks.token = c.token := by
  simp only [token, skipBlanks_idem]

theorem reaches_token (c : Cursor) : c.skipBlanks.Reaches c.token.2 :=
  c.skipBlanks.reaches_advance (List.takeWhile_prefix _).length_le

theorem skipBlanks_rest_of_token {c d : Cursor} {word : Bytes} (h : c.token = (word, d)) :
    c.skipBlanks.rest = word ++ d.rest := by
  have := c.token_append_rest
  rw [h] at this
  rw [rest_skipBlanks, this]

theorem head_of_token {c d : Cursor} {word : Bytes} (h : c.token = (word, d)) {b : UInt8}
    (hb : word.head? = some b) : c.skipBlanks.rest.head? = some b := by
  rw [skipBlanks_rest_of_token h, List.head?_append, hb]
  rfl

theorem inToken_of_mem {c d : Cursor} {word : Bytes} (h : c.token = (word, d)) {b : UInt8} (hb : b ∈ word) :
    inToken b := by
  have hw : word = c.skipBlanks.rest.takeWhile inToken := (congrArg Prod.fst h).symm
  exact List.all_eq_true.1 List.all_takeWhile b (hw ▸ hb)

theorem exists_cons_of_token {c d : Cursor} {word : Bytes} (h : c.token = (word, d)) (hw : word ≠ []) :
    ∃ b bs, c.skipBlanks.rest = b :: bs ∧ word.head? = some b ∧ inToken b := by
  cases word with
  | nil => exact absurd rfl hw
  | cons b bs => exact ⟨b, bs ++ d.rest, skipBlanks_rest_of_token h, rfl, inToken_of_mem h (by simp)⟩

theorem atEnd_of_token {c d : Cursor} {word : Bytes} (h : c.token = (word, d)) (hw : word ≠ []) :
    c.skipBlanks.atEnd = false := by
  obtain ⟨b, bs, hrest, -, -⟩ := exists_cons_of_token h hw
  simp [atEnd, hrest]

def Takes (c : Cursor) (b : UInt8) (d : Cursor) : Prop :=
  c.skipBlanks.rest.head? = some b ∧ d = c.skipBlanks.advance 1

def TakesArrow (c d : Cursor) : Prop := c.skipBlanks.startsWith arrow ∧ d = c.skipBlanks.advance arrow.length

def Quoted (c : Cursor) (value : Bytes) (d : Cursor) : Prop :=
  ∃ q rest, isQuote q ∧ q ∉ value ∧ c.rest = q :: (value ++ q :: rest) ∧ d = c.advance (value.length + 2)

theorem length_token_lt {c d : Cursor} {word : Bytes} (h : c.token = (word, d)) (hw : word ≠ []) :
    c.Reaches d ∧ d.rest.length < c.rest.length := by
  have hd : d = c.token.2 := by rw [h]
  have hr := c.reaches_token
  have hs := c.reaches_skipBlanks
  rw [← hd] at hr
  have hoff : d.off = c.skipBlanks.off + word.length := by
    have hw' : word = c.token.1 := by rw [h]
    rw [hd, hw']
    rfl
  have hpos : 0 < word.length := List.length_pos_iff.2 hw
  have h1 := hr.off_add_length
  have h2 := hs.length_le
  exact ⟨hs.trans hr, by omega⟩

theorem Takes.reaches {c d : Cursor} {b : UInt8} (h : c.Takes b d) :
    c.Reaches d ∧ d.rest.length < c.rest.length := by
  obtain ⟨hb, rfl⟩ := h
  have hs := c.reaches_skipBlanks
  have hpos : 1 ≤ c.skipBlanks.rest.length := by
    cases hr : c.skipBlanks.rest with
    | nil => simp [hr] at hb
    | cons => simp
  refine ⟨hs.trans (c.skipBlanks.reaches_advance hpos), ?_⟩
  have := hs.length_le
  simp only [advance, List.length_drop]
  omega

theorem TakesArrow.reaches {c d : Cursor} (h : c.TakesArrow d) :
    c.Reaches d ∧ d.rest.length < c.rest.length := by
  obtain ⟨ha, rfl⟩ := h
  have hs := c.reaches_skipBlanks
  have hle : arrow.length ≤ c.skipBlanks.rest.length := (List.isPrefixOf_iff_prefix.1 ha).length_le
  have hpos : 0 < arrow.length := by decide
  refine ⟨hs.trans (c.skipBlanks.reaches_advance hle), ?_⟩
  have := hs.length_le
  simp only [advance, List.length_drop]
  omega

theorem Quoted.reaches {c d : Cursor} {value : Bytes} (h : c.Quoted value d) :
    c.Reaches d ∧ d.rest.length < c.rest.length := by
  obtain ⟨q, rest, -, -, hr, rfl⟩ := h
  have hlen : c.rest.length = value.length + 2 + rest.length := by
    rw [hr]
    simp only [List.length_cons, List.length_append]
    omega
  refine ⟨c.reaches_advance (by omega), ?_⟩
  simp only [advance, List.length_drop]
  omega

def Faces (c : Cursor) (text : Bytes) : Prop := c.rest.dropWhile isBlank = text.dropWhile isBlank

theorem faces_self (c : Cursor) : c.Faces c.rest := rfl

theorem faces_blank {c : Cursor} {b : UInt8} {text : Bytes} (hb : isBlank b = true) :
    c.Faces (b :: text) ↔ c.Faces text := by
  rw [Faces, Faces, List.dropWhile_cons_of_pos hb]

theorem Faces.skipBlanks {c : Cursor} {text : Bytes} (h : c.Faces text) : c.skipBlanks.Faces text := by
  rw [Faces, ← rest_skipBlanks, skipBlanks_idem, rest_skipBlanks]
  exact h

end Cursor

def Stops (rest : Bytes) : Prop := ∀ b, rest.head? = some b → inToken b = false

theorem stops_cons {b : UInt8} (h : inToken b = false) (rest : Bytes) : Stops (b :: rest) :=
  fun _ hb => Option.some.inj hb ▸ h

theorem isBlank_of_isQuote {q : UInt8} (hq : isQuote q = true) : isBlank q = false := by
  rw [Bool.eq_false_iff]
  intro hb
  simp only [isBlank, Bool.or_eq_true, decide_eq_true_eq] at hb
  rcases hb with ((rfl | rfl) | rfl) | rfl <;> exact absurd hq (by decide)

structure IsWord (word : Bytes) : Prop where
  ne_nil : word ≠ []
  bytes : ∀ b ∈ word, inToken b = true

theorem isWord_of_all {word : Bytes} (hne : word ≠ []) (h : word.all inToken = true) : IsWord word :=
  ⟨hne, List.all_eq_true.1 h⟩

namespace Cursor

theorem isWord_of_token {c d : Cursor} {word : Bytes} (h : c.token = (word, d)) (hw : word ≠ []) : IsWord word :=
  ⟨hw, fun _ hb => inToken_of_mem h hb⟩

namespace Faces

variable {c : Cursor} {rest : Bytes}

theorem skipBlanks_rest {b : UInt8} (h : c.Faces (b :: rest)) (hb : isBlank b = false) :
    c.skipBlanks.rest = b :: rest := by
  rw [rest_skipBlanks, h]
  exact List.dropWhile_cons_of_neg (by simp [hb])

theorem token {word : Bytes} (h : c.Faces (word ++ rest)) (hw : IsWord word) (hs : Stops rest) :
    ∃ d, c.token = (word, d) ∧ d.rest = rest := by
  obtain ⟨b, bs, rfl⟩ := List.exists_cons_of_ne_nil hw.ne_nil
  have hb : isBlank b = false := by
    have := hw.bytes b List.mem_cons_self
    simp only [inToken, Bool.and_eq_true, Bool.not_eq_true'] at this
    exact this.1
  have htake : rest.takeWhile inToken = [] := by
    cases rest with
    | nil => rfl
    | cons a as => simp [hs a rfl]
  have hword : (b :: bs ++ rest).takeWhile inToken = b :: bs := by
    rw [List.takeWhile_append_of_pos hw.bytes, htake, List.append_nil]
  have he : c.skipBlanks.rest = b :: bs ++ rest := skipBlanks_rest h hb
  exact ⟨_, by rw [Cursor.token, he, hword], by rw [advance, he, List.drop_left]⟩

theorem takes {b : UInt8} (h : c.Faces (b :: rest)) (hb : isBlank b = false) :
    ∃ d, c.Takes b d ∧ d.rest = rest := by
  have he := h.skipBlanks_rest hb
  exact ⟨_, ⟨by rw [he]; rfl, rfl⟩, by rw [advance, he]; rfl⟩

theorem takesArrow (h : c.Faces (arrow ++ rest)) : ∃ d, c.TakesArrow d ∧ d.rest = rest := by
  have he : c.skipBlanks.rest = arrow ++ rest := skipBlanks_rest (b := ascii '=') h (by decide)
  have hstart : c.skipBlanks.startsWith arrow := by
    rw [startsWith, he]
    exact List.isPrefixOf_iff_prefix.2 (List.prefix_append _ _)
  exact ⟨_, ⟨hstart, rfl⟩, by rw [advance, he, List.drop_left]⟩

theorem quoted {q : UInt8} {value : Bytes} (h : c.Faces (q :: (value ++ q :: rest))) (hq : isQuote q = true)
    (hv : q ∉ value) : ∃ d, c.skipBlanks.Quoted value d ∧ d.rest = rest := by
  have he := h.skipBlanks_rest (isBlank_of_isQuote hq)
  refine ⟨_, ⟨q, rest, hq, hv, he, rfl⟩, ?_⟩
  rw [advance, he]
  simp

end Faces

end Cursor

end Polish
