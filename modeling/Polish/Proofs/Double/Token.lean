import Polish.Double.Token
import Mathlib.Logic.Basic

namespace Polish.Double

def AllDigits (digits : Bytes) : Prop := ∀ b ∈ digits, Bytes.isDigit b = true

theorem digitRun_append {digits rest : Bytes} (hd : AllDigits digits)
    (hr : ∀ b, rest.head? = some b → Bytes.isDigit b = false) : digitRun (digits ++ rest) = (digits, rest) := by
  have htake : rest.takeWhile Bytes.isDigit = [] ∧ rest.dropWhile Bytes.isDigit = rest := by
    cases rest with
    | nil => exact ⟨rfl, rfl⟩
    | cons b bs => simp [hr b rfl]
  rw [digitRun, List.takeWhile_append_of_pos hd, List.dropWhile_append_of_pos hd, htake.1, htake.2, List.append_nil]

theorem digitRun_append_rest (text : Bytes) : (digitRun text).1 ++ (digitRun text).2 = text :=
  List.takeWhile_append_dropWhile

theorem allDigits_digitRun (text : Bytes) : AllDigits (digitRun text).1 :=
  fun b hb => List.all_eq_true.1 List.all_takeWhile b hb

theorem digitRun_append_left {digits : Bytes} (hd : AllDigits digits) (rest : Bytes) :
    digitRun (digits ++ rest) = (digits ++ (digitRun rest).1, (digitRun rest).2) := by
  rw [digitRun, List.takeWhile_append_of_pos hd, List.dropWhile_append_of_pos hd]
  rfl

theorem length_sign_le (text : Bytes) : (sign text).2.length ≤ text.length := by
  cases text with
  | nil => exact Nat.le_refl _
  | cons b rest =>
      simp only [sign]
      split
      · exact Nat.le_succ _
      · split
        · exact Nat.le_succ _
        · exact Nat.le_refl _

theorem length_digitRun_le (text : Bytes) : (digitRun text).1.length ≤ text.length :=
  (List.takeWhile_prefix _).length_le

theorem exponentLength_le (text : Bytes) : exponentLength text ≤ text.length := by
  unfold exponentLength
  split
  · rename_i b rest
    have hsign := length_sign_le rest
    have hdigits := length_digitRun_le (sign rest).2
    dsimp only
    split
    · split
      · exact Nat.zero_le _
      · rw [List.length_cons]
        omega
    · exact Nat.zero_le _
  · exact Nat.le_refl _

theorem length_fractionPart_le (text : Bytes) :
    (fractionPart text).1.length + (fractionPart text).2.length ≤ text.length := by
  cases text with
  | nil => exact Nat.le_refl _
  | cons b rest =>
      have hlength := congrArg List.length (digitRun_append_rest rest)
      rw [List.length_append] at hlength
      unfold fractionPart
      dsimp only
      split
      · rw [hlength]
        exact Nat.le_succ _
      · simp

def Ends (tail : Bytes) : Prop := ∀ b, tail.head? = some b → Bytes.isDigit b = false ∧ b ≠ ascii '.'

def StartsUnsigned (body : Bytes) : Prop :=
  utf8 "Infinity" <+: body ∨ ∃ d rest, Bytes.isDigit d = true ∧ (body = d :: rest ∨ body = ascii '.' :: d :: rest)

def StartsNumber (word : Bytes) : Prop :=
  ∃ sign body, word = sign ++ body ∧ (sign = [] ∨ sign = utf8 "-" ∨ sign = utf8 "+") ∧ StartsUnsigned body

theorem StartsUnsigned.sign_eq {body : Bytes} (h : StartsUnsigned body) : sign body = (false, body) := by
  rcases h with ⟨rest, rfl⟩ | ⟨d, rest, hd, rfl | rfl⟩
  · rfl
  · have hminus : d ≠ ascii '-' := by rintro rfl; exact absurd hd (by decide)
    have hplus : d ≠ ascii '+' := by rintro rfl; exact absurd hd (by decide)
    simp only [sign, hminus, hplus, if_false]
  · rfl

theorem startsNumber_iff {word : Bytes} : StartsNumber word ↔ StartsUnsigned (sign word).2 := by
  constructor
  · rintro ⟨_, body, rfl, rfl | rfl | rfl, h⟩
    · rw [List.nil_append, h.sign_eq]
      exact h
    · exact h
    · exact h
  · intro h
    cases word with
    | nil => exact ⟨[], [], rfl, .inl rfl, h⟩
    | cons b rest =>
        by_cases hminus : b = ascii '-'
        · subst hminus
          exact ⟨utf8 "-", rest, rfl, .inr (.inl rfl), h⟩
        by_cases hplus : b = ascii '+'
        · subst hplus
          exact ⟨utf8 "+", rest, rfl, .inr (.inr rfl), h⟩
        simp only [sign, hminus, hplus, if_false] at h
        exact ⟨[], b :: rest, rfl, .inl rfl, h⟩

inductive IsSign : Bytes → Bool → Prop
  | none : IsSign [] false
  | plus : IsSign (utf8 "+") false
  | minus : IsSign (utf8 "-") true

/-- Digits that may have a point before, between or after them, with the digits before and after the point. -/
inductive IsMantissa : Bytes → Bytes → Bytes → Prop
  | whole {whole} (hw : AllDigits whole) (hne : whole ≠ []) : IsMantissa whole whole []
  | point {whole fraction} (hw : AllDigits whole) (hf : AllDigits fraction) (hne : whole ≠ [] ∨ fraction ≠ []) :
      IsMantissa (whole ++ ascii '.' :: fraction) whole fraction

def signed (negative : Bool) (n : Nat) : Int := if negative then -n else n

inductive IsExponent : Bytes → Int → Prop
  | none : IsExponent [] 0
  | some {mark s digits negative} (hm : mark = ascii 'e' ∨ mark = ascii 'E') (hs : IsSign s negative)
      (hd : AllDigits digits) (hne : digits ≠ []) :
      IsExponent (mark :: (s ++ digits)) (signed negative (digitsValue digits))

inductive Numeral where
  | infinity (negative : Bool)
  | decimal (negative : Bool) (whole fraction : Bytes) (exponent : Int)

inductive IsNumeral : Bytes → Numeral → Prop
  | infinity {s negative} (hs : IsSign s negative) : IsNumeral (s ++ utf8 "Infinity") (.infinity negative)
  | decimal {s m e negative whole fraction exponent} (hs : IsSign s negative) (hm : IsMantissa m whole fraction)
      (he : IsExponent e exponent) : IsNumeral (s ++ (m ++ e)) (.decimal negative whole fraction exponent)

section Exponents

def clip (n : Nat) : Nat := if n < 10 * exponentLimit then n else clip (n / 10)
termination_by n
decreasing_by
  have : 0 < 10 * exponentLimit := by decide
  omega

def clipExponent (exponent : Int) : Int := signed (exponent < 0) (clip exponent.natAbs)

theorem clip_of_lt {n : Nat} (h : n < 10 * exponentLimit) : clip n = n := by rw [clip, if_pos h]

theorem clip_of_le {n : Nat} (h : 10 * exponentLimit ≤ n) : clip n = clip (n / 10) := by
  rw [clip, if_neg (Nat.not_lt_of_le h)]

theorem limit_le_clip {n : Nat} (h : exponentLimit ≤ n) : exponentLimit ≤ clip n := by
  fun_induction clip n with
  | case1 => exact h
  | case2 n hn ih => exact ih ((Nat.le_div_iff_mul_le (by decide)).2 (by omega))

theorem clipExponent_signed (negative : Bool) (n : Nat) : clipExponent (signed negative n) = signed negative (clip n) := by
  have hzero : clip 0 = 0 := clip_of_lt (by decide)
  cases negative with
  | false =>
      have hneg : ¬ (n : Int) < 0 := by omega
      simp only [clipExponent, signed, Bool.false_eq_true, if_false, hneg, decide_false, Int.natAbs_natCast]
  | true =>
      cases n with
      | zero => simp [clipExponent, signed, hzero]
      | succ n =>
          have hneg : -((n + 1 : Nat) : Int) < 0 := by omega
          have habs : (-((n + 1 : Nat) : Int)).natAbs = n + 1 := by omega
          simp only [clipExponent, signed, if_true, habs, hneg, decide_true]

theorem clip_foldl {digits : Bytes} (hd : AllDigits digits) {n : Nat} (hn : exponentLimit ≤ n) :
    clip (digits.foldl (fun n d => n * 10 + digitValue d) n) = clip n := by
  induction digits generalizing n with
  | nil => rfl
  | cons d ds ih =>
      have hv := digitValue_le (hd d List.mem_cons_self)
      rw [List.foldl_cons, ih (fun b hb => hd b (List.mem_cons_of_mem d hb)) (by omega), clip_of_le (by omega)]
      congr 1
      omega

theorem foldl_exponent_of_le (digits : Bytes) {n : Nat} (hn : exponentLimit ≤ n) :
    digits.foldl (fun e d => if e < exponentLimit then e * 10 + digitValue d else e) n = n := by
  induction digits with
  | nil => rfl
  | cons d ds ih => rw [List.foldl_cons, if_neg (Nat.not_lt_of_le hn), ih]

theorem exponentValue_eq_clip {digits : Bytes} (hd : AllDigits digits) : exponentValue digits = clip (digitsValue digits) := by
  have hfold (n : Nat) (hn : n < 10 * exponentLimit) :
      digits.foldl (fun e d => if e < exponentLimit then e * 10 + digitValue d else e) n =
        clip (digits.foldl (fun n d => n * 10 + digitValue d) n) := by
    induction digits generalizing n with
    | nil => exact (clip_of_lt hn).symm
    | cons d ds ih =>
        have hv := digitValue_le (hd d List.mem_cons_self)
        have hds : AllDigits ds := fun b hb => hd b (List.mem_cons_of_mem d hb)
        rw [List.foldl_cons, List.foldl_cons]
        -- both go on while the exponent is small; after that all further digits are dropped
        by_cases hlt : n < exponentLimit
        · rw [if_pos hlt, ih hds _ (by omega)]
        · rw [if_neg hlt, foldl_exponent_of_le ds (by omega), clip_foldl hds (by omega), clip_of_le (by omega)]
          rw [show (n * 10 + digitValue d) / 10 = n by omega, clip_of_lt hn]
  exact hfold 0 (by decide)

end Exponents

section Grammar

variable {s m e digits whole fraction rest text token : Bytes} {negative : Bool} {exponent : Int} {n : Numeral}

def StartsDecimal (body : Bytes) : Prop :=
  ∃ d rest, Bytes.isDigit d = true ∧ (body = d :: rest ∨ body = ascii '.' :: d :: rest)

theorem startsDecimal_digits (hd : AllDigits digits) (hne : digits ≠ []) (rest : Bytes) :
    StartsDecimal (digits ++ rest) := by
  obtain ⟨d, ds, rfl⟩ := List.exists_cons_of_ne_nil hne
  exact ⟨d, ds ++ rest, hd d List.mem_cons_self, .inl rfl⟩

theorem StartsDecimal.not_infinity {body : Bytes} (h : StartsDecimal body) :
    (utf8 "Infinity").isPrefixOf body = false := by
  obtain ⟨d, rest, hd, rfl | rfl⟩ := h
  · have hI : (ascii 'I' == d) = false := beq_false_of_ne (by rintro rfl; exact absurd hd (by decide))
    rw [show utf8 "Infinity" = ascii 'I' :: utf8 "nfinity" by decide, List.isPrefixOf_cons_cons, hI]
    rfl
  · rfl

theorem StartsDecimal.found {body : Bytes} (h : StartsDecimal body) :
    ((digitRun body).1.isEmpty && (fractionPart (digitRun body).2).1.isEmpty) = false := by
  have hpoint : Bytes.isDigit (ascii '.') = false := by decide
  obtain ⟨d, rest, hd, rfl | rfl⟩ := h
  · simp [digitRun, hd]
  · simp [digitRun, fractionPart, hd, hpoint]

theorem IsSign.sign_append (hs : IsSign s negative) {body : Bytes} (hb : StartsUnsigned body) :
    sign (s ++ body) = (negative, body) := by
  cases hs with
  | none => exact hb.sign_eq
  | plus => rfl
  | minus => rfl

theorem exists_isSign (token : Bytes) : ∃ s, IsSign s (sign token).1 ∧ token = s ++ (sign token).2 := by
  cases token with
  | nil => exact ⟨[], .none, rfl⟩
  | cons b rest =>
      by_cases hminus : b = ascii '-'
      · subst hminus
        exact ⟨utf8 "-", .minus, rfl⟩
      by_cases hplus : b = ascii '+'
      · subst hplus
        exact ⟨utf8 "+", .plus, rfl⟩
      simp only [sign, hminus, hplus, if_false]
      exact ⟨[], .none, rfl⟩

namespace IsMantissa

theorem startsDecimal (hm : IsMantissa m whole fraction) (rest : Bytes) : StartsDecimal (m ++ rest) := by
  cases hm with
  | whole hw hne => exact startsDecimal_digits hw hne rest
  | point hw hf hne =>
      rw [List.append_assoc]
      by_cases hwhole : whole = []
      · obtain ⟨d, ds, rfl⟩ := List.exists_cons_of_ne_nil (hne.resolve_left fun h => h hwhole)
        subst hwhole
        exact ⟨d, ds ++ rest, hf d List.mem_cons_self, .inr rfl⟩
      · exact startsDecimal_digits hw hwhole _

theorem isEmpty_eq_false (hm : IsMantissa m whole fraction) : (whole.isEmpty && fraction.isEmpty) = false := by
  cases hm with
  | whole _ hne => simp [hne]
  | point _ _ hne => simpa [← Bool.not_eq_true, ← not_and_or] using hne

theorem parts (hm : IsMantissa m whole fraction) (ht : Ends rest) :
    (digitRun (m ++ rest)).1 = whole ∧ fractionPart (digitRun (m ++ rest)).2 = (fraction, rest) := by
  cases hm with
  | whole hw hne =>
      rw [digitRun_append hw fun b hb => (ht b hb).1]
      cases rest with
      | nil => exact ⟨rfl, rfl⟩
      | cons b bs => exact ⟨rfl, if_neg (ht b rfl).2⟩
  | point hw hf hne =>
      rw [List.append_assoc, digitRun_append hw fun b hb => by obtain rfl := Option.some.inj hb; decide]
      exact ⟨rfl, digitRun_append hf fun b hb => (ht b hb).1⟩

/-- The reader takes a mantissa as a whole, whatever follows. -/
theorem length_rest_le (hm : IsMantissa m whole fraction) (rest : Bytes) :
    (fractionPart (digitRun (m ++ rest)).2).2.length ≤ rest.length := by
  have hdigits := congrArg List.length (digitRun_append_rest rest)
  rw [List.length_append] at hdigits
  cases hm with
  | whole hw hne =>
      have hpoint := length_fractionPart_le (digitRun rest).2
      rw [digitRun_append_left hw]
      dsimp only
      omega
  | point hw hf hne =>
      rw [List.append_assoc, digitRun_append hw fun b hb => by obtain rfl := Option.some.inj hb; decide]
      change (digitRun (fraction ++ rest)).2.length ≤ rest.length
      rw [digitRun_append_left hf]
      dsimp only
      omega

end IsMantissa

theorem exists_isMantissa (body : Bytes) : ∃ m, body = m ++ (fractionPart (digitRun body).2).2 ∧
    (((digitRun body).1.isEmpty && (fractionPart (digitRun body).2).1.isEmpty) = false →
      IsMantissa m (digitRun body).1 (fractionPart (digitRun body).2).1) := by
  have hbody := digitRun_append_rest body
  have hw := allDigits_digitRun body
  generalize digitRun body = split at hbody hw ⊢
  obtain ⟨whole, between⟩ := split
  have hwhole : ∃ m, body = m ++ between ∧ ((whole.isEmpty && ([] : Bytes).isEmpty) = false → IsMantissa m whole []) :=
    ⟨whole, hbody.symm, fun hne => .whole hw (by simpa using hne)⟩
  cases between with
  | nil => exact hwhole
  | cons b rest =>
      by_cases hb : b = ascii '.'
      · have hrest := digitRun_append_rest rest
        have hf := allDigits_digitRun rest
        simp only [fractionPart, hb, if_true]
        generalize digitRun rest = split at hrest hf ⊢
        refine ⟨whole ++ ascii '.' :: split.1, ?_, fun hne => .point hw hf ?_⟩
        · rw [← hbody, ← hrest, hb, List.append_assoc]
          rfl
        · simpa [← Bool.not_eq_true, ← not_and_or] using hne
      · simp only [fractionPart, if_neg hb]
        exact hwhole

namespace IsExponent

theorem ends (he : IsExponent e exponent) : Ends e := by
  cases he with
  | none => exact fun _ hb => by cases hb
  | some hm hs hd hne =>
      intro b hb
      obtain rfl := Option.some.inj hb
      rcases hm with rfl | rfl
      · decide
      · decide

theorem exponentLength_append {mark : UInt8} (hm : mark = ascii 'e' ∨ mark = ascii 'E') (hs : IsSign s negative)
    (hd : AllDigits digits) (hne : digits ≠ []) (rest : Bytes) :
    exponentLength (mark :: (s ++ (digits ++ rest))) = (mark :: (s ++ digits)).length + (digitRun rest).1.length := by
  have hdigits : (digits ++ (digitRun rest).1).isEmpty = false := by simp [hne]
  simp only [exponentLength, if_pos hm, hs.sign_append (.inr (startsDecimal_digits hd hne rest)), digitRun_append_left hd,
    hdigits, Bool.false_eq_true, if_false, List.length_append, List.length_cons]
  omega

theorem length_le (he : IsExponent e exponent) (rest : Bytes) : e.length ≤ exponentLength (e ++ rest) := by
  cases he with
  | none => exact Nat.zero_le _
  | some hm hs hd hne =>
      rw [List.cons_append, List.append_assoc, exponentLength_append hm hs hd hne]
      exact Nat.le_add_right _ _

theorem exponentLength_eq (he : IsExponent e exponent) : exponentLength e = e.length := by
  cases he with
  | none => rfl
  | @some mark s digits negative hm hs hd hne =>
      have hlength := exponentLength_append hm hs hd hne []
      rwa [List.append_nil] at hlength

theorem exponentPart_eq (he : IsExponent e exponent) : exponentPart e = clipExponent exponent := by
  cases he with
  | none => rw [show (0 : Int) = signed false 0 from rfl, clipExponent_signed, clip_of_lt (by decide)]; rfl
  | @some mark s digits negative hm hs hd hne =>
      have hsign := hs.sign_append (.inr (startsDecimal_digits hd hne []))
      have hrun := digitRun_append_left hd []
      rw [List.append_nil] at hsign hrun
      simp only [exponentPart, if_pos hm, hsign, hrun]
      rw [show (digitRun []).1 = [] from rfl, List.append_nil, exponentValue_eq_clip hd, clipExponent_signed]
      rfl

end IsExponent

theorem exists_isExponent (rest : Bytes) : ∃ exponent, IsExponent (rest.take (exponentLength rest)) exponent ∧
    exponentPart rest = clipExponent exponent := by
  have hzero : clipExponent 0 = 0 := (IsExponent.exponentPart_eq .none).symm
  cases rest with
  | nil => exact ⟨0, .none, hzero.symm⟩
  | cons mark rest =>
      by_cases hm : mark = ascii 'e' ∨ mark = ascii 'E'
      · obtain ⟨s, hs, hrest⟩ := exists_isSign rest
        have hdigits := digitRun_append_rest (sign rest).2
        have hd := allDigits_digitRun (sign rest).2
        -- a mark without digits is not taken
        by_cases hne : (digitRun (sign rest).2).1 = []
        · refine ⟨0, ?_, ?_⟩
          · simp only [exponentLength, if_pos hm, hne, List.isEmpty_nil, if_true, List.take_zero]
            exact .none
          · simp [exponentPart, hne, exponentValue, hzero]
        · have hsplit : mark :: rest = mark :: (s ++ (digitRun (sign rest).2).1) ++ (digitRun (sign rest).2).2 := by
            rw [List.cons_append, List.append_assoc, hdigits, ← hrest]
          have hlength : exponentLength (mark :: rest) = (mark :: (s ++ (digitRun (sign rest).2).1)).length := by
            have hsign := congrArg List.length hrest
            rw [List.length_append] at hsign
            simp only [exponentLength, if_pos hm, List.isEmpty_iff, if_neg hne, List.length_cons, List.length_append]
            omega
          refine ⟨signed (sign rest).1 (digitsValue (digitRun (sign rest).2).1), ?_, ?_⟩
          · rw [hlength, hsplit, List.take_left]
            exact .some hm hs hd hne
          · rw [clipExponent_signed, ← exponentValue_eq_clip hd]
            exact if_pos hm
      · refine ⟨0, ?_, ?_⟩
        · rw [exponentLength, if_neg hm, List.take_zero]
          exact .none
        · rw [hzero]
          exact if_neg hm

/-- The text of a decimal number is converted in its parts, so that no conversion fails. -/
theorem ofDecimalText?_of_isNumeral (h : IsNumeral text (.decimal negative whole fraction exponent)) :
    ofDecimalText? text = some (ofParts negative whole fraction (clipExponent exponent)) := by
  cases h with
  | decimal hs hm he =>
      obtain ⟨hwhole, hfraction⟩ := hm.parts he.ends
      simp only [ofDecimalText?, hs.sign_append (.inr (hm.startsDecimal _)), hwhole, hfraction, hm.isEmpty_eq_false,
        Bool.false_eq_true, if_false, he.exponentLength_eq, if_true, he.exponentPart_eq]

def afterDigits (token : Bytes) : Bytes := (fractionPart (digitRun (sign token).2).2).2

theorem decimalText?_eq (token : Bytes) : decimalText? token =
    if (digitRun (sign token).2).1.isEmpty && (fractionPart (digitRun (sign token).2).2).1.isEmpty then none
    else some (token.take (token.length - (afterDigits token).length + exponentLength (afterDigits token))) := rfl

theorem decimalText?_eq_some_iff : decimalText? token = some text ↔
    ((digitRun (sign token).2).1.isEmpty && (fractionPart (digitRun (sign token).2).2).1.isEmpty) = false ∧
      text = token.take (token.length - (afterDigits token).length + exponentLength (afterDigits token)) := by
  rw [decimalText?_eq]
  cases (digitRun (sign token).2).1.isEmpty && (fractionPart (digitRun (sign token).2).2).1.isEmpty with
  | true => simp
  | false => simp [eq_comm]

theorem isNumeral_of_decimalText? (h : decimalText? token = some text) : text <+: token ∧ ∃ exponent,
    IsNumeral text (.decimal (sign token).1 (digitRun (sign token).2).1 (fractionPart (digitRun (sign token).2).2).1
      exponent) ∧ exponentPart (afterDigits token) = clipExponent exponent := by
  obtain ⟨hfound, rfl⟩ := decimalText?_eq_some_iff.1 h
  obtain ⟨s, hs, htoken⟩ := exists_isSign token
  obtain ⟨m, hbody, hm⟩ := exists_isMantissa (sign token).2
  obtain ⟨exponent, he, hpart⟩ := exists_isExponent (afterDigits token)
  have hsplit : token = s ++ m ++ afterDigits token := by
    rw [List.append_assoc, afterDigits, ← hbody, ← htoken]
  have htake (rest : Bytes) (k : Nat) (h : token = s ++ m ++ rest) :
      token.take (token.length - rest.length + k) = s ++ (m ++ rest.take k) := by
    rw [h, List.length_append, Nat.add_sub_cancel, List.take_length_add_append, List.append_assoc]
  have hn := IsNumeral.decimal hs (hm hfound) he
  rw [← htake _ _ hsplit] at hn
  exact ⟨List.take_prefix _ _, exponent, hn, hpart⟩

end Grammar

/-- A number is read from the start of its token, whatever follows in the token. -/
theorem ofToken?_eq (token : Bytes) : ofToken? token =
    if (utf8 "Infinity").isPrefixOf (sign token).2 then some (.infinite (sign token).1)
    else if (digitRun (sign token).2).1.isEmpty && (fractionPart (digitRun (sign token).2).2).1.isEmpty then none
    else some (ofParts (sign token).1 (digitRun (sign token).2).1 (fractionPart (digitRun (sign token).2).2).1
      (exponentPart (fractionPart (digitRun (sign token).2).2).2)) := by
  unfold ofToken?
  dsimp only
  split
  · rfl
  · cases hfound : (digitRun (sign token).2).1.isEmpty && (fractionPart (digitRun (sign token).2).2).1.isEmpty with
    | true =>
        rw [decimalText?_eq, hfound]
        rfl
    | false =>
        have htext := decimalText?_eq_some_iff.2 ⟨hfound, rfl⟩
        obtain ⟨-, exponent, hn, hpart⟩ := isNumeral_of_decimalText? htext
        rw [htext]
        dsimp only
        rw [ofDecimalText?_of_isNumeral hn, ← hpart]
        rfl

theorem isEmpty_digitRun {text : Bytes} :
    (digitRun text).1.isEmpty = true ↔ ¬ ∃ d rest, Bytes.isDigit d = true ∧ text = d :: rest := by
  cases text with
  | nil => simp [digitRun]
  | cons b bs => by_cases hb : Bytes.isDigit b = true <;> simp [digitRun, hb]

theorem isEmpty_fractionPart {text : Bytes} :
    (fractionPart text).1.isEmpty = true ↔ ¬ ∃ d rest, Bytes.isDigit d = true ∧ text = ascii '.' :: d :: rest := by
  cases text with
  | nil => simp [fractionPart]
  | cons b bs =>
      by_cases hb : b = ascii '.'
      · subst hb
        simpa [fractionPart] using isEmpty_digitRun
      · simp [fractionPart, hb]

theorem digitRun_rest {text : Bytes} (h : (digitRun text).1.isEmpty = true) : (digitRun text).2 = text := by
  have happend := List.takeWhile_append_dropWhile (p := Bytes.isDigit) (l := text)
  rwa [show text.takeWhile Bytes.isDigit = [] from List.isEmpty_iff.1 h, List.nil_append] at happend

theorem ofToken?_isSome {word : Bytes} : (ofToken? word).isSome = true ↔ StartsNumber word := by
  rw [startsNumber_iff, StartsUnsigned]
  generalize hsign : sign word = signed
  simp only [ofToken?_eq, hsign, and_or_left, exists_or]
  by_cases hinf : (utf8 "Infinity").isPrefixOf signed.2 = true
  · rw [if_pos hinf]
    exact ⟨fun _ => .inl (List.isPrefixOf_iff_prefix.1 hinf), fun _ => rfl⟩
  · rw [if_neg hinf, or_iff_right fun h => hinf (List.isPrefixOf_iff_prefix.2 h)]
    cases hwhole : (digitRun signed.2).1.isEmpty with
    | false =>
        have hdigit := mt isEmpty_digitRun.2 (Bool.eq_false_iff.1 hwhole)
        exact ⟨fun _ => .inl (not_not.1 hdigit), fun _ => rfl⟩
    | true =>
        rw [digitRun_rest hwhole, or_iff_right (isEmpty_digitRun.1 hwhole), ← not_iff_not, ← isEmpty_fractionPart]
        cases (fractionPart signed.2).1.isEmpty <;> simp

end Polish.Double
