import Polish.Proofs.Double.Nearest
import Polish.Proofs.Double.Text

namespace Polish.Double

structure IsLongest (token text : Bytes) (n : Numeral) : Prop where
  starts : text <+: token
  numeral : IsNumeral text n
  longest : ∀ text' n', text' <+: token → IsNumeral text' n' → text'.length ≤ text.length

section Longest

variable {s text token whole fraction : Bytes} {negative : Bool} {exponent : Int} {n : Numeral}

theorem length_of_decimalText? (h : decimalText? token = some text) :
    text.length + (afterDigits token).length = token.length + exponentLength (afterDigits token) := by
  have hsign := length_sign_le token
  have hbody := congrArg List.length (digitRun_append_rest (sign token).2)
  have hpoint : _ + (afterDigits token).length ≤ _ := length_fractionPart_le (digitRun (sign token).2).2
  have hexponent := exponentLength_le (afterDigits token)
  rw [List.length_append] at hbody
  obtain ⟨-, rfl⟩ := decimalText?_eq_some_iff.1 h
  rw [List.length_take]
  omega

theorem decimalText?_infinity (hs : IsSign s negative) (rest : Bytes) :
    decimalText? (s ++ (utf8 "Infinity" ++ rest)) = none := by
  rw [decimalText?_eq, hs.sign_append (.inl (List.prefix_append _ rest))]
  rfl

/-- No numeral at the start of a token is longer than what the reader takes. -/
theorem length_le_of_decimalText? (hn : IsNumeral text n) (hstarts : text <+: token) {taken : Bytes}
    (h : decimalText? token = some taken) : text.length ≤ taken.length := by
  obtain ⟨rest, rfl⟩ := hstarts
  have hlength := length_of_decimalText? h
  cases hn with
  | infinity hs =>
      rw [List.append_assoc, decimalText?_infinity hs] at h
      cases h
  | @decimal s m e negative whole fraction exponent hs hm he =>
      have hsplit : s ++ (m ++ e) ++ rest = s ++ (m ++ (e ++ rest)) := by simp only [List.append_assoc]
      rw [hsplit, afterDigits, hs.sign_append (.inr (hm.startsDecimal _))] at hlength
      have hexponent := he.length_le rest
      cases he with
      | none =>
          have hrest := hm.length_rest_le rest
          simp only [List.nil_append, List.append_nil, List.length_append] at hlength ⊢
          omega
      | @some mark sign digits negative' hmark hsign hd hne =>
          -- the mark of the exponent ends the mantissa
          have hends : Ends (mark :: (sign ++ digits) ++ rest) :=
            fun b hb => (IsExponent.some hmark hsign hd hne).ends b hb
          rw [(hm.parts hends).2] at hlength
          simp only [List.length_append] at hlength ⊢
          omega

theorem isLongest_of_decimalText? (h : decimalText? token = some text) (hn : IsNumeral text n) :
    IsLongest token text n :=
  ⟨(isNumeral_of_decimalText? h).1, hn, fun _ _ hstarts hn' => length_le_of_decimalText? hn' hstarts h⟩

theorem IsNumeral.isLongest_self (hn : IsNumeral text n) : IsLongest text text n :=
  ⟨List.prefix_rfl, hn, fun _ _ hstarts _ => hstarts.length_le⟩

theorem IsNumeral.startsNumber (hn : IsNumeral text n) (hstarts : text <+: token) : StartsNumber token := by
  have hsign {s : Bytes} {negative : Bool} (hs : IsSign s negative) : s = [] ∨ s = utf8 "-" ∨ s = utf8 "+" := by
    cases hs with
    | none => exact .inl rfl
    | plus => exact .inr (.inr rfl)
    | minus => exact .inr (.inl rfl)
  obtain ⟨rest, rfl⟩ := hstarts
  cases hn with
  | infinity hs => exact ⟨_, _, List.append_assoc _ _ _, hsign hs, .inl (List.prefix_append _ _)⟩
  | @decimal s m e _ _ _ _ hs hm he =>
      refine ⟨s, m ++ (e ++ rest), ?_, hsign hs, .inr (hm.startsDecimal _)⟩
      simp only [List.append_assoc]

theorem exists_isNumeral_iff : (∃ text n, text <+: token ∧ IsNumeral text n) ↔ StartsNumber token := by
  constructor
  · rintro ⟨text, n, hstarts, hn⟩
    exact hn.startsNumber hstarts
  · rintro ⟨s, body, rfl, hs, hbody⟩
    obtain ⟨negative, hs⟩ : ∃ negative, IsSign s negative := by
      rcases hs with rfl | rfl | rfl
      · exact ⟨_, .none⟩
      · exact ⟨_, .minus⟩
      · exact ⟨_, .plus⟩
    rcases hbody with ⟨rest, rfl⟩ | ⟨d, rest, hd, rfl | rfl⟩
    · exact ⟨_, _, ⟨rest, List.append_assoc _ _ _⟩, .infinity hs⟩
    · have hm : IsMantissa [d] [d] [] := .whole (List.forall_mem_singleton.2 hd) (List.cons_ne_nil _ _)
      exact ⟨_, _, ⟨rest, List.append_assoc _ _ _⟩, .decimal hs hm .none⟩
    · have hm : IsMantissa (ascii '.' :: [d]) [] [d] :=
        .point (fun b hb => absurd hb List.not_mem_nil) (List.forall_mem_singleton.2 hd) (.inr (List.cons_ne_nil _ _))
      exact ⟨_, _, ⟨rest, List.append_assoc _ _ _⟩, .decimal hs hm .none⟩

theorem exists_isLongest (h : ∃ text n, text <+: token ∧ IsNumeral text n) : ∃ text n, IsLongest token text n := by
  obtain ⟨text, ⟨n, hstarts, hn⟩, hmin⟩ := (measure fun text : Bytes => token.length - text.length).wf.has_min
    {text | ∃ n, text <+: token ∧ IsNumeral text n} h
  refine ⟨text, n, hstarts, hn, fun text' n' hstarts' hn' => ?_⟩
  have hle : ¬ token.length - text'.length < token.length - text.length := hmin text' ⟨n', hstarts', hn'⟩
  have hlength := hstarts'.length_le
  omega

/-- The longest numeral is the one that is converted. -/
theorem IsLongest.ofToken?_decimal (h : IsLongest token text (.decimal negative whole fraction exponent)) :
    ofToken? token = some (ofParts negative whole fraction (clipExponent exponent)) := by
  have hconvert := ofDecimalText?_of_isNumeral h.numeral
  have hbody : StartsDecimal (sign token).2 := by
    obtain ⟨rest, hrest⟩ := h.starts
    cases h.numeral with
    | decimal hs hm he =>
        rw [← hrest, List.append_assoc, List.append_assoc, hs.sign_append (.inr (hm.startsDecimal _))]
        exact hm.startsDecimal _
  obtain ⟨taken, htaken⟩ : ∃ taken, decimalText? token = some taken :=
    ⟨_, decimalText?_eq_some_iff.2 ⟨hbody.found, rfl⟩⟩
  -- the longest numeral and what is taken are equally long
  obtain ⟨hstarts, _, hn, -⟩ := isNumeral_of_decimalText? htaken
  have hlonger := length_le_of_decimalText? h.numeral h.starts htaken
  have hsame : text = taken :=
    (List.prefix_of_prefix_length_le h.starts hstarts hlonger).eq_of_length_le (h.longest _ _ hstarts hn)
  simp only [ofToken?, hbody.not_infinity, Bool.false_eq_true, if_false, htaken]
  rw [← hsame, hconvert]

theorem IsLongest.ofToken?_infinity (h : IsLongest token text (.infinity negative)) :
    ofToken? token = some (.infinite negative) := by
  obtain ⟨rest, rfl⟩ := h.starts
  cases h.numeral with
  | infinity hs =>
      rw [ofToken?_eq, List.append_assoc, hs.sign_append (.inl (List.prefix_append _ rest)),
        if_pos (List.isPrefixOf_iff_prefix.2 (List.prefix_append _ rest))]

end Longest

namespace Numeral

def Denotes (d : Double) : Numeral → Prop
  | infinity negative => d = .infinite negative
  | decimal negative whole fraction exponent => ∃ rank,
      IsNearest (digitsValue (whole ++ fraction) * 10 ^ (exponent - fraction.length)) rank ∧ d = ofRank negative rank

/-- A numeral as it is read, with no more of its exponent and of its places than are taken. -/
def taken : Numeral → Numeral
  | infinity negative => infinity negative
  | decimal negative whole fraction exponent => decimal negative whole fraction (clipExponent exponent -
      lostPlaces (whole.dropWhile (· = ascii '0')) fraction (clipExponent exponent))

/-- Every digit before the point has a place, or the first digits settle the number. If the exponent is very large the
digits are not as many, so that the number is too large or too small for any double. -/
def Fits : Numeral → Prop
  | infinity _ => True
  | decimal _ whole fraction exponent =>
      if exponent.natAbs < 10 * exponentLimit then
        (whole.dropWhile (· = ascii '0')).length ≤ placeLimit ∨
          isSettled (whole.dropWhile (· = ascii '0') ++ fraction)
            ((whole.dropWhile (· = ascii '0')).length + exponent) = true
      else whole.length + fraction.length ≤ 9600

end Numeral

section Value

variable {whole fraction : Bytes} {exponent : Int}

theorem ofParts_eq (negative : Bool) (whole fraction : Bytes) (exponent : Int) :
    ofParts negative whole fraction exponent = ofDecimal negative (digitsValue (whole ++ fraction))
      (exponent - lostPlaces (whole.dropWhile (· = ascii '0')) fraction exponent - fraction.length) := by
  simp only [ofParts, digitsValue_dropWhile, sub_right_comm]

theorem digitsValue_lt {digits : Bytes} (hd : AllDigits digits) : digitsValue digits < 10 ^ digits.length := by
  induction digits with
  | nil => exact Nat.zero_lt_one
  | cons d ds ih =>
      have hv := digitValue_le (hd d List.mem_cons_self)
      have hlt := ih fun b hb => hd b (List.mem_cons_of_mem d hb)
      have hone : digitsValue [d] = digitValue d := by simp [digitsValue]
      rw [← List.singleton_append, digitsValue_append, hone, List.length_append, List.length_singleton, Nat.pow_add]
      have := Nat.mul_le_mul_right (10 ^ ds.length) hv
      omega

theorem length_toDigits_le {digits : Bytes} (hd : AllDigits digits) (hpos : digitsValue digits ≠ 0) :
    (Nat.toDigits 10 (digitsValue digits)).length ≤ digits.length := by
  refine (Nat.length_toDigits_le_iff (by decide) ?_).2 (digitsValue_lt hd)
  refine List.length_pos_iff.2 ?_
  rintro rfl
  exact hpos rfl

theorem clipExponent_of_lt (h : exponent.natAbs < 10 * exponentLimit) : clipExponent exponent = exponent := by
  rw [clipExponent, clip_of_lt h]
  unfold signed
  split
  · rename_i hneg
    have := of_decide_eq_true hneg
    omega
  · rename_i hneg
    have := of_decide_eq_false (Bool.eq_false_iff.2 hneg)
    omega

theorem lostPlaces_le (whole fraction : Bytes) (exponent : Int) :
    lostPlaces (whole.dropWhile (· = ascii '0')) fraction exponent ≤ whole.length := by
  have hle := (List.dropWhile_sublist (l := whole) (· = ascii '0')).length_le
  unfold lostPlaces
  split
  · exact Nat.zero_le _
  · omega

/-- A very large exponent decides a number of not so many digits, however much of it is taken. -/
theorem ofDecimal_clipExponent (negative : Bool) (hd : AllDigits (whole ++ fraction)) {lost : Nat}
    (hlost : lost ≤ whole.length) (hlarge : 10 * exponentLimit ≤ exponent.natAbs)
    (hlength : whole.length + fraction.length ≤ 9600) :
    ofDecimal negative (digitsValue (whole ++ fraction)) (clipExponent exponent - lost - fraction.length) =
      ofDecimal negative (digitsValue (whole ++ fraction)) (exponent - fraction.length) := by
  by_cases hzero : digitsValue (whole ++ fraction) = 0
  · rw [ofDecimal_of_small negative (.inl hzero), ofDecimal_of_small negative (.inl hzero)]
  have hsize := length_toDigits_le hd hzero
  have hpos := Nat.length_toDigits_pos (b := 10) (n := digitsValue (whole ++ fraction))
  have hclip := limit_le_clip (Nat.le_trans (by omega) hlarge)
  rw [List.length_append] at hsize
  simp only [exponentLimit] at hlarge hclip
  by_cases hneg : exponent < 0
  · have hsigned : clipExponent exponent = -(clip exponent.natAbs) := by
      simp only [clipExponent, signed, hneg, decide_true, if_true]
    rw [ofDecimal_of_small negative (.inr (by omega)), ofDecimal_of_small negative (.inr (by omega))]
  · have hsigned : clipExponent exponent = clip exponent.natAbs := by
      simp only [clipExponent, signed, hneg, decide_false, Bool.false_eq_true, if_false]
    rw [ofDecimal_of_large negative hzero (by omega), ofDecimal_of_large negative hzero (by omega)]

theorem allDigits_of_isNumeral {text : Bytes} {negative : Bool}
    (h : IsNumeral text (.decimal negative whole fraction exponent)) : AllDigits (whole ++ fraction) := by
  cases h with
  | decimal _ hm _ =>
      cases hm with
      | whole hw _ => rwa [List.append_nil]
      | point hw hf _ => exact hw.append hf

theorem ofParts_of_fits {text : Bytes} {negative : Bool} (h : IsNumeral text (.decimal negative whole fraction exponent))
    (hfits : (Numeral.decimal negative whole fraction exponent).Fits) :
    ofParts negative whole fraction (clipExponent exponent) =
      ofDecimal negative (digitsValue (whole ++ fraction)) (exponent - fraction.length) := by
  rw [ofParts_eq]
  rw [Numeral.Fits] at hfits
  by_cases hsmall : exponent.natAbs < 10 * exponentLimit
  · rw [if_pos hsmall] at hfits
    have hlost : lostPlaces (whole.dropWhile (· = ascii '0')) fraction exponent = 0 := by
      unfold lostPlaces
      rcases hfits with hplaces | hsettled
      · rw [Nat.sub_eq_zero_of_le hplaces, ite_self]
      · rw [if_pos hsettled]
    rw [clipExponent_of_lt hsmall, hlost, Nat.cast_zero, sub_zero]
  · rw [if_neg hsmall] at hfits
    exact ofDecimal_clipExponent negative (allDigits_of_isNumeral h) (lostPlaces_le _ _ _) (Nat.le_of_not_lt hsmall) hfits

end Value

/-- Exactly the tokens that start with a numeral are read as numbers, and the text that is taken for a decimal number is
always converted. The longest numeral counts: its double is the nearest to the number that is read of it, which is the
number that it says if it fits. -/
theorem ofToken?_longest (token : Bytes) :
    ((ofToken? token).isSome = true ↔ ∃ text n, text <+: token ∧ IsNumeral text n) ∧
    ((ofToken? token).isSome = true → ∃ text n, IsLongest token text n) ∧
    (∀ text, decimalText? token = some text → (ofDecimalText? text).isSome = true) ∧
    ∀ text n, IsLongest token text n → ∃ d, ofToken? token = some d ∧ n.taken.Denotes d ∧ (n.Fits → n.Denotes d) := by
  have hstarts : (ofToken? token).isSome = true ↔ ∃ text n, text <+: token ∧ IsNumeral text n :=
    ofToken?_isSome.trans exists_isNumeral_iff.symm
  refine ⟨hstarts, fun h => exists_isLongest (hstarts.1 h), fun text h => ?_, fun text n h => ?_⟩
  · obtain ⟨-, _, hn, -⟩ := isNumeral_of_decimalText? h
    rw [ofDecimalText?_of_isNumeral hn]
    rfl
  · cases n with
    | infinity negative => exact ⟨_, h.ofToken?_infinity, rfl, fun _ => rfl⟩
    | decimal negative whole fraction exponent =>
        refine ⟨_, h.ofToken?_decimal, ?_, fun hfits => ?_⟩
        · rw [ofParts_eq]
          exact ofDecimal_nearest negative _ _
        · rw [ofParts_of_fits h.numeral hfits]
          exact ofDecimal_nearest negative _ _

/-- A mark without digits is no exponent, and a point needs no digits before it. -/
theorem ofToken?_longest_cut :
    let n : Numeral := .decimal true [] (utf8 "5") 1
    IsLongest (utf8 "-.5e1e+") (utf8 "-.5e1") n ∧ n.Fits ∧ ∃ d, ofToken? (utf8 "-.5e1e+") = some d ∧ n.Denotes d := by
  intro n
  have hdigits (b : UInt8) (hb : Bytes.isDigit b = true) : AllDigits [b] := List.forall_mem_singleton.2 hb
  have hm : IsMantissa (utf8 ".5") [] (utf8 "5") :=
    .point (List.forall_mem_nil _) (hdigits (ascii '5') (by decide)) (.inr (by decide))
  have he : IsExponent (utf8 "e1") 1 := .some (.inl rfl) .none (hdigits (ascii '1') (by decide)) (by decide)
  have hlongest : IsLongest (utf8 "-.5e1e+") (utf8 "-.5e1") n :=
    isLongest_of_decimalText? (by decide +kernel) (.decimal .minus hm he)
  have hfits : n.Fits := .inl (by decide)
  obtain ⟨d, hd, -, hdenotes⟩ := (ofToken?_longest (utf8 "-.5e1e+")).2.2.2 _ _ hlongest
  exact ⟨hlongest, hfits, d, hd, hdenotes hfits⟩

/-- Of 817 digits before the point the last 17 have no place: a number of more than `9 · 10 ^ 15` is read as one below
one. -/
theorem ofToken?_loses_places :
    let whole := utf8 "9007199254740993" ++ List.replicate 800 (ascii '0') ++ utf8 "1"
    let n : Numeral := .decimal false whole [] (-801)
    IsLongest (whole ++ utf8 "e-801") (whole ++ utf8 "e-801") n ∧
      ∃ d, ofToken? (whole ++ utf8 "e-801") = some d ∧ ¬ n.Denotes d := by
  intro whole n
  have hwhole : AllDigits whole := by
    refine AllDigits.append (AllDigits.append ?_ (allDigits_zeros 800)) ?_
    · exact fun b hb => List.all_eq_true.1 (show (utf8 "9007199254740993").all Bytes.isDigit = true by decide) b hb
    · exact List.forall_mem_singleton.2 (by decide)
  have he : IsExponent (utf8 "e-801") (-801) :=
    .some (.inl rfl) .minus (fun b hb => List.all_eq_true.1 (show (utf8 "801").all Bytes.isDigit = true by decide) b hb)
      (by decide)
  have hn : IsNumeral (whole ++ utf8 "e-801") n := .decimal .none (.whole hwhole (by decide +kernel)) he
  refine ⟨hn.isLongest_self, ofRank false 4591154791736333463, by decide +kernel, ?_⟩
  rintro ⟨rank, hnear, hrank⟩
  have hsame : 4591154791736333463 = rank := ofRank_injective (by decide) hrank
  have hlarge : (10 : ℚ) ^ 801 ≤ digitsValue (whole ++ []) := by
    have : 10 ^ 801 ≤ digitsValue (whole ++ []) := by decide +kernel
    exact_mod_cast this
  have hone : value (1023 * binade) ≤ digitsValue (whole ++ []) * 10 ^ (-801 - (List.length ([] : Bytes) : Int)) := by
    rw [value_unit, List.length_nil, Nat.cast_zero, sub_zero, zpow_neg, ← div_eq_mul_inv]
    exact (one_le_div₀ (zpow_pos (by norm_num) 801)).2 hlarge
  have hle := hnear.le_of_value_le hone
  rw [← hsame] at hle
  exact absurd hle (by decide)

end Polish.Double
