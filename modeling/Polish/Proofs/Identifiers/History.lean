import Polish.Proofs.Identifiers
import Mathlib.Data.List.Dedup

namespace Polish.Identifiers

variable {σ : Type} [LetterSource σ]

omit [LetterSource σ] in
theorem Distinct.nameOf?_iff {ids : Identifiers σ} (h : ids.Distinct) {name id : Bytes} :
    ids.nameOf? id = some name ↔ (name, id) ∈ ids.entries := by
  rw [nameOf?, Option.map_eq_some_iff]
  constructor
  · rintro ⟨entry, hfind, rfl⟩
    have hid : entry.2 = id := by simpa using List.find?_some hfind
    exact hid ▸ List.mem_of_find?_eq_some hfind
  · intro hmem
    obtain ⟨entry, hfind⟩ : ∃ entry, ids.entries.find? (·.2 == id) = some entry := by
      rw [← Option.isSome_iff_exists, List.find?_isSome]
      exact ⟨_, hmem, beq_self_eq_true _⟩
    have hid : entry.2 = id := by simpa using List.find?_some hfind
    have hsame := List.inj_on_of_nodup_map h.texts (List.mem_of_find?_eq_some hfind) hmem hid
    exact ⟨entry, hfind, congrArg Prod.fst hsame⟩

theorem identify_known {ids : Identifiers σ} (h : ids.Distinct) {name id : Bytes} (hmem : (name, id) ∈ ids.entries) :
    ids.identify name = (id, ids) := by
  rw [identify, h.lookup_iff.2 hmem]

def identifyAll : List Bytes → Identifiers σ → List Bytes × Identifiers σ
  | [], ids => ([], ids)
  | name :: names, ids =>
    let (id, ids) := ids.identify name
    let (answers, ids) := identifyAll names ids
    (id :: answers, ids)

structure Asked (ids : Identifiers σ) (names : List Bytes) : Prop where
  distinct : ids.Distinct
  names_iff : ∀ name, name ∈ ids.names ↔ name ∈ names
  shaped : ids.Shaped

omit [LetterSource σ] in
theorem asked_nil (source : σ) : Asked { source } [] :=
  ⟨⟨List.nodup_nil, List.nodup_nil⟩, fun _ => Iff.rfl, nofun⟩

theorem Asked.identify {ids : Identifiers σ} {names : List Bytes} (h : Asked ids names) (name : Bytes) :
    Asked (ids.identify name).2 (names ++ [name]) := by
  have hgrows := (identify_grows ids name).1
  refine ⟨hgrows.distinct h.distinct, fun other => ?_, hgrows.shaped h.shaped⟩
  rw [List.mem_append, List.mem_singleton, ← h.names_iff]
  by_cases hmem : name ∈ ids.names
  · obtain ⟨entry, hentry, rfl⟩ := List.mem_map.1 hmem
    rw [identify_known h.distinct hentry]
    exact ⟨.inl, fun hor => hor.elim id fun he => he ▸ hmem⟩
  · obtain ⟨n, -, -, hentries⟩ := identify_retries hmem
    rw [Identifiers.names, hentries, List.map_cons, List.mem_cons, or_comm]
    rfl

theorem identifyAll_grows (names : List Bytes) (ids : Identifiers σ) : ids.Grows (identifyAll names ids).2 := by
  induction names generalizing ids with
  | nil => exact .rfl
  | cons name names ih => exact (identify_grows ids name).1.trans (ih _)

theorem Asked.identifyAll {ids : Identifiers σ} {before : List Bytes} (h : Asked ids before) (names : List Bytes) :
    Asked (identifyAll names ids).2 (before ++ names) := by
  induction names generalizing ids before with
  | nil => rwa [List.append_nil]
  | cons name names ih =>
      rw [List.append_cons]
      exact ih (h.identify name)

theorem mem_entries_identifyAll (names : List Bytes) (ids : Identifiers σ) :
    (identifyAll names ids).1.length = names.length ∧
      ∀ p ∈ names.zip (identifyAll names ids).1, p ∈ (identifyAll names ids).2.entries := by
  induction names generalizing ids with
  | nil => exact ⟨rfl, nofun⟩
  | cons name names ih =>
      obtain ⟨hlen, hmem⟩ := ih (ids.identify name).2
      refine ⟨congrArg (· + 1) hlen, List.forall_mem_cons.2 ⟨?_, hmem⟩⟩
      exact (identifyAll_grows names _).entries.subset (identify_grows ids name).2

omit [LetterSource σ] in
theorem Asked.size_eq {ids : Identifiers σ} {names : List Bytes} (h : Asked ids names) :
    ids.size = names.dedup.length := by
  have hperm : ids.names.Perm names.dedup :=
    (List.perm_ext_iff_of_nodup h.distinct.names names.nodup_dedup).2 fun name => by
      rw [h.names_iff, List.mem_dedup]
  rw [← hperm.length_eq, Identifiers.names, List.length_map, size]

def guard (kept : Bytes) : Bytes := if kept.head?.any Bytes.isDigit then [dollar] else []

theorem stem_eq (name : Bytes) :
    stem name = guard (name.filter isKept) ++ name.filter isKept ++ [dollar] := by
  unfold stem guard
  cases name.filter isKept with
  | nil => rfl
  | cons b bs => cases hb : Bytes.isDigit b <;> simp [hb]

theorem isDigit_head_stem (name letters : Bytes) (b : UInt8) (h : (stem name ++ letters).head? = some b) :
    Bytes.isDigit b = false := by
  have hdollar : Bytes.isDigit dollar = false := by decide
  unfold stem at h
  cases hk : name.filter isKept with
  | nil =>
      rw [hk] at h
      rwa [← Option.some.inj h]
  | cons a as =>
      rw [hk] at h
      dsimp only at h
      split at h
      · rwa [← Option.some.inj h]
      · rename_i ha
        rw [← Option.some.inj h]
        simpa using ha

/-- Whatever names are asked for and whatever letters are drawn, a name keeps its identifier and different names have
different ones; names and identifiers are found from each other, and there are as many as names asked for. An
identifier is what is kept of its name, a dollar sign and letters. A name asked for again draws nothing, and for a new
one the loop ends after at most one letter more than there are identifiers. -/
theorem identifyAll_lifelong (source : σ) (names : List Bytes) :
    let answers := (identifyAll names { source }).1
    let ids := (identifyAll names { source }).2
    answers.length = names.length ∧
    (∀ p ∈ names.zip answers, ∀ q ∈ names.zip answers, p.2 = q.2 ↔ p.1 = q.1) ∧
    (∀ p ∈ names.zip answers, ids.identify p.1 = (p.2, ids) ∧ ids.nameOf? p.2 = some p.1) ∧
    (∀ name id, ids.entries.lookup name = some id ↔ ids.nameOf? id = some name) ∧
    ids.size = names.dedup.length ∧
    (∀ p ∈ names.zip answers, (∀ b, p.2.head? = some b → Bytes.isDigit b = false) ∧ ∃ letters, letters ≠ [] ∧
      (∀ b ∈ letters, Bytes.isLower b = true) ∧
      p.2 = guard (p.1.filter isKept) ++ p.1.filter isKept ++ [dollar] ++ letters) ∧
    (∀ name ∉ names, ∃ n ≤ ids.size + 1,
      Retries ids.texts (stem name) ids.source n (ids.identify name).1 (ids.identify name).2.source) := by
  intro answers ids
  have hasked : Asked ids names := (asked_nil source).identifyAll names
  obtain ⟨hlen, hmem⟩ := mem_entries_identifyAll names ({ source } : Identifiers σ)
  refine ⟨hlen, fun p hp q hq => ⟨fun he => ?_, fun he => ?_⟩, fun p hp => ⟨?_, ?_⟩, fun name id => ?_, hasked.size_eq,
    fun p hp => ?_, fun name hname => ?_⟩
  · exact congrArg Prod.fst (List.inj_on_of_nodup_map hasked.distinct.texts (hmem p hp) (hmem q hq) he)
  · exact congrArg Prod.snd (List.inj_on_of_nodup_map hasked.distinct.names (hmem p hp) (hmem q hq) he)
  · exact identify_known hasked.distinct (hmem p hp)
  · exact hasked.distinct.nameOf?_iff.2 (hmem p hp)
  · rw [hasked.distinct.lookup_iff, hasked.distinct.nameOf?_iff]
  · obtain ⟨letters, htail, hid⟩ := hasked.shaped p (hmem p hp)
    refine ⟨fun b hb => isDigit_head_stem p.1 letters b (hid ▸ hb), letters, htail.ne_nil, htail.lower, ?_⟩
    rw [hid, stem_eq]
  · obtain ⟨n, hn, hretries, -⟩ := identify_retries fun hold => hname ((hasked.names_iff name).1 hold)
    exact ⟨n, hn, hretries⟩

/-- Two names of one stem, while only one letter is drawn. -/
example : (identifyAll [utf8 "ab", utf8 "a/b", utf8 "ab"] ({ source := { word := #[0] } } : Identifiers Cycle)).1 =
    [utf8 "ab$a", utf8 "ab$aa", utf8 "ab$a"] := by
  decide +kernel

end Polish.Identifiers
