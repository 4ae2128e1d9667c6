import Polish.Identifiers
import Mathlib.Data.List.Nodup

namespace Polish.Identifiers

variable {σ : Type}

def names (ids : Identifiers σ) : List Bytes := ids.entries.map (·.1)

def texts (ids : Identifiers σ) : List Bytes := ids.entries.map (·.2)

structure Distinct (ids : Identifiers σ) : Prop where
  names : ids.names.Nodup
  texts : ids.texts.Nodup

/-- A map of names to identifiers that has all the identifiers made so far. -/
def Assigns (ids : Identifiers σ) (id : Bytes → Bytes) : Prop := ∀ entry ∈ ids.entries, id entry.1 = entry.2

structure IsTail (letters : Bytes) : Prop where
  ne_nil : letters ≠ []
  lower : ∀ b ∈ letters, Bytes.isLower b = true

def Shaped (ids : Identifiers σ) : Prop :=
  ∀ entry ∈ ids.entries, ∃ letters, IsTail letters ∧ entry.2 = stem entry.1 ++ letters

structure Grows (ids ids' : Identifiers σ) : Prop where
  entries : ids.entries <:+ ids'.entries
  distinct : ids.Distinct → ids'.Distinct
  shaped : ids.Shaped → ids'.Shaped

theorem Grows.rfl {ids : Identifiers σ} : ids.Grows ids := ⟨List.suffix_rfl, fun h => h, fun h => h⟩

theorem Grows.trans {a b c : Identifiers σ} (hab : a.Grows b) (hbc : b.Grows c) : a.Grows c :=
  ⟨hab.entries.trans hbc.entries, fun h => hbc.distinct (hab.distinct h), fun h => hbc.shaped (hab.shaped h)⟩

theorem Grows.names {ids ids' : Identifiers σ} (h : ids.Grows ids') {name : Bytes} (hn : name ∈ ids.names) :
    name ∈ ids'.names := List.map_subset _ h.entries.subset hn

theorem Assigns.mono {ids ids' : Identifiers σ} {id : Bytes → Bytes} (h : ids'.Assigns id) (hg : ids.Grows ids') :
    ids.Assigns id := fun entry hentry => h entry (hg.entries.subset hentry)

theorem Assigns.injOn {ids : Identifiers σ} {id : Bytes → Bytes} (h : ids.Assigns id) (hd : ids.Distinct)
    {a b : Bytes} (ha : a ∈ ids.names) (hb : b ∈ ids.names) (he : id a = id b) : a = b := by
  obtain ⟨entry, hentry, rfl⟩ := List.mem_map.1 ha
  obtain ⟨entry', hentry', rfl⟩ := List.mem_map.1 hb
  rw [h entry hentry, h entry' hentry'] at he
  rw [List.inj_on_of_nodup_map hd.texts hentry hentry' he]

theorem Distinct.lookup_iff {ids : Identifiers σ} (h : ids.Distinct) {name id : Bytes} :
    ids.entries.lookup name = some id ↔ (name, id) ∈ ids.entries := by
  constructor
  · intro hl
    obtain ⟨l₁, l₂, he, -⟩ := List.lookup_eq_some_iff.1 hl
    simp [he]
  · intro hmem
    obtain ⟨other, hother⟩ : ∃ other, ids.entries.lookup name = some other := by
      rw [← Option.isSome_iff_exists, List.lookup_isSome_iff]
      exact ⟨_, hmem, beq_self_eq_true _⟩
    obtain ⟨l₁, l₂, he, -⟩ := List.lookup_eq_some_iff.1 hother
    have hsame := List.inj_on_of_nodup_map h.names (show (name, other) ∈ ids.entries by simp [he]) hmem rfl
    rw [hother, (Prod.mk.inj hsame).2]

def assigned (ids : Identifiers σ) (name : Bytes) : Bytes := (ids.entries.lookup name).getD []

theorem assigns_assigned {ids : Identifiers σ} (hd : ids.Distinct) : ids.Assigns ids.assigned := by
  intro entry hentry
  rw [assigned, hd.lookup_iff.2 hentry]
  rfl

variable [LetterSource σ]

/-- Letters are added to a text until it is not among the used ones. The number is that of the letters drawn. -/
inductive Retries (used : List Bytes) : Bytes → σ → Nat → Bytes → σ → Prop
  | stop {text s l s'} (hd : LetterSource.draw s = (l, s')) (hnew : text ++ [letterByte l] ∉ used) :
      Retries used text s 1 (text ++ [letterByte l]) s'
  | again {text s l s₁ n id s'} (hd : LetterSource.draw s = (l, s₁)) (hused : text ++ [letterByte l] ∈ used)
      (h : Retries used (text ++ [letterByte l]) s₁ n id s') : Retries used text s (n + 1) id s'

/-- The used texts that are longer than a given one are fewer after each letter that leads to a used text. -/
theorem length_longer_lt {used : List Bytes} {text : Bytes} {b : UInt8} (h : text ++ [b] ∈ used) :
    (used.filter ((text ++ [b]).length < ·.length)).length < (used.filter (text.length < ·.length)).length := by
  have hsub : used.filter ((text ++ [b]).length < ·.length) =
      (used.filter (text.length < ·.length)).filter ((text ++ [b]).length < ·.length) := by
    rw [List.filter_filter]
    refine List.filter_congr fun u _ => ?_
    rw [List.length_append, List.length_singleton, ← Bool.decide_and, decide_eq_decide]
    omega
  rw [hsub, List.length_filter_lt_length_iff_exists]
  exact ⟨text ++ [b], by simpa using h, by simp⟩

/-- With a letter more than there are longer used texts the loop comes to its end. -/
theorem extend_retries (used : List Bytes) {limit : Nat} {text : Bytes} {s : σ}
    (h : (used.filter (text.length < ·.length)).length < limit) :
    ∃ n, n ≤ (used.filter (text.length < ·.length)).length + 1 ∧
      Retries used text s n (extend used limit text s).1 (extend used limit text s).2 := by
  induction limit generalizing text s with
  | zero => exact absurd h (Nat.not_lt_zero _)
  | succ limit ih =>
      obtain ⟨l, s₁, hd⟩ : ∃ l s₁, LetterSource.draw s = (l, s₁) := ⟨_, _, rfl⟩
      simp only [extend, hd, List.contains_iff_mem]
      by_cases hused : text ++ [letterByte l] ∈ used
      · rw [if_pos hused]
        have hlt := length_longer_lt hused
        obtain ⟨n, hn, hretries⟩ := ih (s := s₁) (Nat.lt_of_lt_of_le hlt (Nat.le_of_lt_succ h))
        exact ⟨n + 1, by omega, .again hd hused hretries⟩
      · rw [if_neg hused]
        exact ⟨1, by omega, .stop hd hused⟩

theorem Retries.notMem {used : List Bytes} {text id : Bytes} {s s' : σ} {n : Nat} (h : Retries used text s n id s') :
    id ∉ used := by
  induction h with
  | stop _ hnew => exact hnew
  | again _ _ _ ih => exact ih

theorem isLower_letterByte (l : Letter) : Bytes.isLower (letterByte l) = true := by
  revert l
  decide

theorem Retries.isTail {used : List Bytes} {text id : Bytes} {s s' : σ} {n : Nat} (h : Retries used text s n id s') :
    ∃ letters, IsTail letters ∧ letters.length = n ∧ id = text ++ letters := by
  induction h with
  | @stop text s l s' hd hnew =>
      exact ⟨[letterByte l], ⟨List.cons_ne_nil _ _, by simp [isLower_letterByte]⟩, rfl, rfl⟩
  | @again text s l s₁ n id s' hd hused h ih =>
      obtain ⟨letters, htail, hlen, rfl⟩ := ih
      refine ⟨letterByte l :: letters, ⟨List.cons_ne_nil _ _, ?_⟩, by rw [List.length_cons, hlen], by simp⟩
      exact List.forall_mem_cons.2 ⟨isLower_letterByte l, htail.lower⟩

omit [LetterSource σ] in
theorem length_longer_le (ids : Identifiers σ) (text : Bytes) :
    (ids.texts.filter (text.length < ·.length)).length ≤ ids.size := by
  have hle := List.length_filter_le (text.length < ·.length) ids.texts
  rwa [texts, List.length_map] at hle

/-- A name without an identifier gets the first text that is new. -/
theorem identify_retries {ids : Identifiers σ} {name : Bytes} (h : name ∉ ids.names) :
    ∃ n, n ≤ ids.size + 1 ∧
      Retries ids.texts (stem name) ids.source n (ids.identify name).1 (ids.identify name).2.source ∧
      (ids.identify name).2.entries = (name, (ids.identify name).1) :: ids.entries := by
  have hnone : ids.entries.lookup name = none := by
    rw [List.lookup_eq_none_iff]
    intro entry hentry
    rw [bne_iff_ne]
    rintro rfl
    exact h (List.mem_map_of_mem hentry)
  have hle := ids.length_longer_le (stem name)
  obtain ⟨n, hn, hretries⟩ := extend_retries (s := ids.source) ids.texts (Nat.lt_succ_of_le hle)
  rw [identify, hnone]
  exact ⟨n, by omega, hretries, rfl⟩

theorem identify_grows (ids : Identifiers σ) (name : Bytes) :
    ids.Grows (ids.identify name).2 ∧ (name, (ids.identify name).1) ∈ (ids.identify name).2.entries := by
  by_cases hold : name ∈ ids.names
  · obtain ⟨id, hid⟩ : ∃ id, ids.entries.lookup name = some id := by
      obtain ⟨entry, hentry, rfl⟩ := List.mem_map.1 hold
      rw [← Option.isSome_iff_exists, List.lookup_isSome_iff]
      exact ⟨entry, hentry, beq_self_eq_true _⟩
    obtain ⟨l₁, l₂, he, -⟩ := List.lookup_eq_some_iff.1 hid
    rw [identify, hid]
    exact ⟨.rfl, by simp [he]⟩
  · obtain ⟨n, -, hretries, hentries⟩ := identify_retries hold
    obtain ⟨letters, htail, -, hid⟩ := hretries.isTail
    refine ⟨⟨?_, fun h => ⟨?_, ?_⟩, fun h => ?_⟩, ?_⟩
    · rw [hentries]
      exact List.suffix_cons _ _
    · rw [names, hentries]
      exact List.nodup_cons.2 ⟨hold, h.names⟩
    · rw [texts, hentries]
      exact List.nodup_cons.2 ⟨hretries.notMem, h.texts⟩
    · rw [Shaped, hentries]
      exact List.forall_mem_cons.2 ⟨⟨letters, htail, hid⟩, h⟩
    · rw [hentries]
      exact List.mem_cons_self

end Polish.Identifiers
