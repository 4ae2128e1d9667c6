import Polish.Source
import Polish.Proofs.Double.Decimal
import Polish.Proofs.Double.Token

namespace Polish.Double

theorem foldl_digits (digits : Bytes) (n : Nat) :
    digits.foldl (fun n d => n * 10 + digitValue d) n = n * 10 ^ digits.length + digitsValue digits := by
  induction digits generalizing n with
  | nil => simp [digitsValue]
  | cons d ds ih =>
      rw [digitsValue, List.foldl_cons, List.foldl_cons, ih, ih (0 * 10 + digitValue d), List.length_cons, Nat.pow_succ]
      ring

theorem digitsValue_append (a b : Bytes) : digitsValue (a ++ b) = digitsValue a * 10 ^ b.length + digitsValue b := by
  rw [digitsValue, List.foldl_append]
  exact foldl_digits b _

theorem digitsValue_zeros (k : Nat) : digitsValue (List.replicate k (ascii '0')) = 0 := by
  induction k with
  | zero => rfl
  | succ k ih =>
      rw [List.replicate_succ, ← List.singleton_append, digitsValue_append, ih]
      simp [digitsValue, digitValue]

theorem digitsValue_zeros_append (k : Nat) (digits : Bytes) :
    digitsValue (List.replicate k (ascii '0') ++ digits) = digitsValue digits := by
  rw [digitsValue_append, digitsValue_zeros, Nat.zero_mul, Nat.zero_add]

theorem eq_zeros_append (digits : Bytes) :
    ∃ k, digits = List.replicate k (ascii '0') ++ digits.dropWhile (· = ascii '0') := by
  refine ⟨(digits.takeWhile (· = ascii '0')).length, ?_⟩
  have hzeros : digits.takeWhile (· = ascii '0') = List.replicate (digits.takeWhile (· = ascii '0')).length (ascii '0') :=
    List.eq_replicate_of_mem fun b hb => by simpa using List.all_eq_true.1 List.all_takeWhile b hb
  rw [← hzeros, List.takeWhile_append_dropWhile]

theorem digitsValue_dropWhile (whole fraction : Bytes) :
    digitsValue (whole.dropWhile (· = ascii '0') ++ fraction) = digitsValue (whole ++ fraction) := by
  obtain ⟨k, hk⟩ := eq_zeros_append whole
  conv => rhs; rw [hk, List.append_assoc, digitsValue_zeros_append]

theorem eq_trimZeros_append (digits : Bytes) : ∃ k, digits = trimZeros digits ++ List.replicate k (ascii '0') := by
  obtain ⟨k, hk⟩ := eq_zeros_append digits.reverse
  refine ⟨k, ?_⟩
  have := congrArg List.reverse hk
  rw [List.reverse_reverse, List.reverse_append, List.reverse_replicate] at this
  exact this

theorem isDigit_ascii {c : Char} (h : c.isDigit = true) :
    Bytes.isDigit (ascii c) = true ∧ digitValue (ascii c) = c.toNat - '0'.toNat := by
  simp only [Char.isDigit, Bool.and_eq_true, decide_eq_true_eq, ge_iff_le, UInt32.le_iff_toNat_le] at h
  have hlow : 48 ≤ c.toNat := h.1
  have hhigh : c.toNat ≤ 57 := h.2
  have hc : (ascii c).toNat = c.toNat := by
    rw [ascii, UInt8.toNat_ofNat']
    omega
  simp only [Bytes.isDigit, Bool.and_eq_true, decide_eq_true_eq, UInt8.le_iff_toNat_le, digitValue, hc]
  exact ⟨⟨hlow, hhigh⟩, rfl⟩

theorem isDigit_of_mem_decimal {n : Nat} {b : UInt8} (h : b ∈ Bytes.decimal n) : Bytes.isDigit b = true := by
  obtain ⟨c, hc, rfl⟩ := List.mem_map.1 h
  exact (isDigit_ascii (Nat.isDigit_of_mem_toDigits (by decide) (by decide) hc)).1

theorem digitsValue_map_ascii {cs : List Char} (h : ∀ c ∈ cs, c.isDigit = true) (n : Nat) :
    (cs.map ascii).foldl (fun n d => n * 10 + digitValue d) n = Nat.ofDigitChars 10 cs n := by
  induction cs generalizing n with
  | nil => rw [Nat.ofDigitChars_nil]; rfl
  | cons c cs ih =>
      rw [List.map_cons, List.foldl_cons, Nat.ofDigitChars_cons, (isDigit_ascii (h c List.mem_cons_self)).2,
        Nat.mul_comm, ih fun c hc => h c (List.mem_cons_of_mem _ hc)]

theorem digitsValue_decimal (n : Nat) : digitsValue (Bytes.decimal n) = n := by
  have hdigit (c : Char) (hc : c ∈ Nat.toDigits 10 n) : c.isDigit = true :=
    Nat.isDigit_of_mem_toDigits (by decide) (by decide) hc
  exact (digitsValue_map_ascii hdigit 0).trans (Nat.ofDigitChars_toDigits (by decide) (by decide))

theorem AllDigits.append {a b : Bytes} (ha : AllDigits a) (hb : AllDigits b) : AllDigits (a ++ b) :=
  fun x hx => (List.mem_append.1 hx).elim (ha x) (hb x)

theorem allDigits_zeros (k : Nat) : AllDigits (List.replicate k (ascii '0')) := fun b hb => by
  rw [(List.mem_replicate.1 hb).2]
  decide

theorem AllDigits.take {digits : Bytes} (h : AllDigits digits) (k : Nat) : AllDigits (digits.take k) :=
  fun b hb => h b (List.mem_of_mem_take hb)

theorem AllDigits.drop {digits : Bytes} (h : AllDigits digits) (k : Nat) : AllDigits (digits.drop k) :=
  fun b hb => h b (List.mem_of_mem_drop hb)

structure Stands (d : Digits) (rank : Nat) : Prop where
  digits : AllDigits d.digits
  ne_nil : d.digits ≠ []
  reads : readsAs rank (d.point - d.digits.length) (digitsValue d.digits) = true
  low : -330 ≤ d.point
  high : d.point ≤ 310

theorem stands_digitsOf {rank n : Nat} {place : Int} (hn : 0 < n) (hreads : readsAs rank place n = true)
    (hlow : -330 ≤ place + (Bytes.decimal n).length) (hhigh : place + (Bytes.decimal n).length ≤ 310) :
    Stands (digitsOf n place) rank := by
  have hvalue := digitsValue_decimal n
  have hdigit (b : UInt8) (hb : b ∈ Bytes.decimal n) := isDigit_of_mem_decimal hb
  obtain ⟨k, hk⟩ := eq_trimZeros_append (Bytes.decimal n)
  have hlength := congrArg List.length hk
  rw [List.length_append, List.length_replicate] at hlength
  rw [hk, digitsValue_append, digitsValue_zeros, List.length_replicate, Nat.add_zero] at hvalue
  refine ⟨fun b hb => hdigit b (hk ▸ List.mem_append_left _ hb), fun hnil => ?_, ?_, hlow, hhigh⟩
  · rw [show trimZeros (Bytes.decimal n) = [] from hnil, show digitsValue [] = 0 from rfl, Nat.zero_mul] at hvalue
    omega
  · -- every zero that is removed moves the place by one
    rw [← hvalue, readsAs_mul_pow] at hreads
    rwa [digitsOf, hlength, Nat.cast_add, ← Int.add_assoc, Int.add_right_comm, Int.add_sub_cancel]

theorem stands_shortest {rank : Nat} (hpos : 0 < rank) (hr : rank < rankLimit) : Stands (shortest rank) rank := by
  obtain ⟨hreads, hn⟩ := readsAs_first hpos
  obtain ⟨hlow, hhigh⟩ := length_bounds hreads hpos hr hn
  rw [← List.length_map (f := ascii)] at hlow hhigh
  exact stands_digitsOf hn hreads hlow hhigh

theorem head_fraction {digits tail : Bytes} (ht : Ends tail) (b : UInt8)
    (h : (Layout.fraction digits ++ tail).head? = some b) : Bytes.isDigit b = false := by
  unfold Layout.fraction at h
  split at h
  · exact (ht b h).1
  · obtain rfl := Option.some.inj h
    decide

theorem fractionPart_fraction {digits tail : Bytes} (hd : AllDigits digits) (ht : Ends tail) :
    fractionPart (Layout.fraction digits ++ tail) = (digits, tail) := by
  cases digits with
  | nil =>
      cases tail with
      | nil => rfl
      | cons b bs => exact if_neg (ht b rfl).2
  | cons d ds => exact digitRun_append hd fun b hb => (ht b hb).1

def signText (negative : Bool) : Bytes := if negative then [ascii '-'] else []

theorem sign_signText (negative : Bool) {b : UInt8} {bs : Bytes} (hb : Bytes.isDigit b = true) :
    sign (signText negative ++ b :: bs) = (negative, b :: bs) := by
  cases negative with
  | true => rfl
  | false =>
      have hminus : b ≠ ascii '-' := by rintro rfl; exact absurd hb (by decide)
      have hplus : b ≠ ascii '+' := by rintro rfl; exact absurd hb (by decide)
      exact (if_neg hminus).trans (if_neg hplus)

theorem ofToken?_parts (negative : Bool) {whole fraction tail : Bytes} (hw : AllDigits whole)
    (hne : whole ≠ []) (hf : AllDigits fraction) (ht : Ends tail) :
    ofToken? (signText negative ++ (whole ++ (Layout.fraction fraction ++ tail)))
      = some (ofParts negative whole fraction (exponentPart tail)) := by
  cases whole with
  | nil => exact absurd rfl hne
  | cons d ds =>
      have hd := hw d List.mem_cons_self
      have hword : (utf8 "Infinity").isPrefixOf (d :: ds ++ (Layout.fraction fraction ++ tail)) = false := by
        have hI : (ascii 'I' == d) = false := beq_false_of_ne (by rintro rfl; exact absurd hd (by decide))
        rw [show utf8 "Infinity" = ascii 'I' :: utf8 "nfinity" by decide, List.cons_append, List.isPrefixOf_cons_cons, hI]
        rfl
      simp only [ofToken?_eq, List.cons_append, sign_signText negative hd]
      rw [← List.cons_append, hword, digitRun_append hw (head_fraction ht)]
      simp only [fractionPart_fraction hf ht, List.isEmpty_cons, Bool.false_and, Bool.false_eq_true, if_false]

theorem inToken_of_isDigit {b : UInt8} (h : Bytes.isDigit b = true) : inToken b = true := by
  have hne {c : UInt8} (hc : Bytes.isDigit c = false) : b ≠ c := by
    rintro rfl
    rw [h] at hc
    exact nomatch hc
  simp only [inToken, isBlank, isSeparator, Bool.and_eq_true, Bool.not_eq_true', Bool.or_eq_false_iff,
    decide_eq_false_iff_not]
  refine ⟨⟨⟨⟨?_, ?_⟩, ?_⟩, ?_⟩, ⟨⟨⟨⟨⟨?_, ?_⟩, ?_⟩, ?_⟩, ?_⟩, ?_⟩⟩ <;> exact hne (by decide)

structure Spells (rank : Nat) (whole fraction tail : Bytes) : Prop where
  digits : AllDigits (whole ++ fraction)
  ne_nil : whole ≠ []
  places : whole.length ≤ placeLimit
  ends : Ends tail
  bytes : ∀ b ∈ tail, inToken b = true
  reads : readsAs rank (exponentPart tail - fraction.length) (digitsValue (whole ++ fraction)) = true

theorem ofToken?_of_spells {rank : Nat} {whole fraction tail : Bytes} (negative : Bool) (hpos : 0 < rank)
    (hr : rank < rankLimit) (h : Spells rank whole fraction tail) :
    ofToken? (signText negative ++ (whole ++ (Layout.fraction fraction ++ tail))) = some (.finite negative ⟨rank, hr⟩) := by
  have hw : AllDigits whole := fun b hb => h.digits b (List.mem_append_left _ hb)
  have hf : AllDigits fraction := fun b hb => h.digits b (List.mem_append_right _ hb)
  rw [ofToken?_parts negative hw h.ne_nil hf h.ends, ofParts_eq_ofDecimal h.places, digitsValue_dropWhile,
    ofDecimal_eq negative h.reads hpos hr (pos_of_readsAs hpos h.reads)]

theorem spells_of_whole {rank : Nat} {whole fraction : Bytes} (hd : AllDigits (whole ++ fraction))
    (hne : whole ≠ []) (hl : whole.length ≤ placeLimit)
    (hreads : readsAs rank (-fraction.length) (digitsValue (whole ++ fraction)) = true) :
    Spells rank whole fraction [] :=
  ⟨hd, hne, hl, fun _ h => (nomatch h), fun _ h => (nomatch h), by
    rwa [show exponentPart [] = 0 from rfl, Int.zero_sub]⟩

theorem spells_of_fraction {rank : Nat} {fraction : Bytes} (hd : AllDigits fraction)
    (hreads : readsAs rank (-fraction.length) (digitsValue fraction) = true) : Spells rank [ascii '0'] fraction [] :=
  spells_of_whole ((allDigits_zeros 1).append hd) (by simp) (by decide) (by
    rwa [show [ascii '0'] = List.replicate 1 (ascii '0') from rfl, digitsValue_zeros_append])

/-- Digits cut at a place, with zeros up to the place if they end before it. -/
theorem digitsValue_cut (digits : Bytes) (p : Nat) :
    digitsValue (digits.take p ++ List.replicate (p - digits.length) (ascii '0') ++ digits.drop p)
      = digitsValue digits * 10 ^ (p - digits.length) := by
  obtain hlt | hle := Nat.lt_or_ge digits.length p
  · rw [List.drop_eq_nil_of_le (Nat.le_of_lt hlt), List.take_of_length_le (Nat.le_of_lt hlt), List.append_nil,
      digitsValue_append, digitsValue_zeros, List.length_replicate, Nat.add_zero]
  · rw [Nat.sub_eq_zero_of_le hle, List.replicate_zero, List.append_nil, List.take_append_drop, Nat.pow_zero, Nat.mul_one]

theorem positional_spells {rank : Nat} {d : Digits} (h : Stands d rank) :
    ∃ whole fraction, Layout.positional d = whole ++ Layout.fraction fraction ∧ Spells rank whole fraction [] := by
  obtain ⟨digits, point⟩ := d
  obtain ⟨hdigits, hne, hreads, hlow, hhigh⟩ := h
  dsimp only at hdigits hne hreads hlow hhigh
  cases point with
  | ofNat p =>
      rw [Int.ofNat_eq_natCast] at hreads hhigh
      by_cases hp : p = 0
      · rw [hp, Int.natCast_zero, Int.zero_sub] at hreads
        exact ⟨[ascii '0'], digits, if_pos hp, spells_of_fraction hdigits hreads⟩
      · refine ⟨digits.take p ++ List.replicate (p - digits.length) (ascii '0'), digits.drop p, if_neg hp,
          spells_of_whole (((hdigits.take p).append (allDigits_zeros _)).append (hdigits.drop p)) ?_ ?_ ?_⟩
        · simp [hp, hne]
        · rw [List.length_append, List.length_take, List.length_replicate, placeLimit]
          omega
        · -- one of the two differences of lengths is zero
          rw [digitsValue_cut, readsAs_mul_pow, List.length_drop]
          rwa [show -((digits.length - p : Nat) : Int) + (p - digits.length : Nat) = p - digits.length by omega]
  | negSucc p =>
      refine ⟨[ascii '0'], List.replicate (p + 1) (ascii '0') ++ digits, rfl,
        spells_of_fraction ((allDigits_zeros _).append hdigits) ?_⟩
      rw [digitsValue_zeros_append, List.length_append, List.length_replicate]
      rwa [show -((p + 1 + digits.length : Nat) : Int) = .negSucc p - digits.length by omega]

theorem exponentValue_padded {n : Nat} (h : n < 1000) :
    let digits := List.replicate (2 - (Bytes.decimal n).length) (ascii '0') ++ Bytes.decimal n
    AllDigits digits ∧ exponentValue digits = n := by
  have hd : AllDigits (List.replicate (2 - (Bytes.decimal n).length) (ascii '0') ++ Bytes.decimal n) :=
    (allDigits_zeros _).append fun _ => isDigit_of_mem_decimal
  have hlength : (Bytes.decimal n).length ≤ 3 := by
    rw [Bytes.decimal, List.length_map, Nat.length_toDigits_le_iff (by decide) (by decide)]
    exact h
  refine ⟨hd, (exponentValue_eq_digitsValue hd ?_).trans ?_⟩
  · rw [List.length_append, List.length_replicate]
    omega
  · rw [digitsValue_zeros_append, digitsValue_decimal]

theorem exponentPart_eq {e : Int} {digits : Bytes} (hd : AllDigits digits) (hv : exponentValue digits = e.natAbs) :
    exponentPart (ascii 'e' :: (if e < 0 then ascii '-' else ascii '+') :: digits) = e := by
  have hrun : digitRun (digits ++ []) = (digits, []) := digitRun_append hd fun _ h => nomatch h
  rw [List.append_nil] at hrun
  have hsign : sign ((if e < 0 then ascii '-' else ascii '+') :: digits) = (decide (e < 0), digits) := by
    split <;> simp_all [sign, show ascii '+' ≠ ascii '-' by decide]
  rw [exponentPart, if_pos (.inl rfl)]
  simp only [hsign, hrun, hv, decide_eq_true_eq]
  split <;> omega

theorem scientific_spells {rank : Nat} {d : Digits} (h : Stands d rank) :
    ∃ whole fraction tail, Layout.scientific d = whole ++ (Layout.fraction fraction ++ tail) ∧
      Spells rank whole fraction tail := by
  have hsize : (d.point - 1).natAbs < 1000 := by
    have := h.low
    have := h.high
    omega
  obtain ⟨hpadded, hvalue⟩ := exponentValue_padded hsize
  have hexponent := exponentPart_eq hpadded hvalue
  have hsign : inToken (if d.point - 1 < 0 then ascii '-' else ascii '+') = true := by split <;> decide
  have hlength : 0 < d.digits.length := List.length_pos_iff.2 h.ne_nil
  refine ⟨d.digits.take 1, d.digits.drop 1, _, by
    simp only [Layout.scientific, List.append_assoc, List.cons_append, List.nil_append]
    rfl, ?_⟩
  refine ⟨?_, ?_, ?_, ?_, ?_, ?_⟩
  · rw [List.take_append_drop]
    exact h.digits
  · simp [h.ne_nil]
  · rw [List.length_take, placeLimit]
    omega
  · intro b hb
    obtain rfl := Option.some.inj hb
    decide
  · intro b hb
    obtain rfl | rfl | hb := List.mem_cons.1 hb |>.imp_right List.mem_cons.1
    · decide
    · exact hsign
    · exact inToken_of_isDigit (hpadded b hb)
  · rw [hexponent, List.take_append_drop, List.length_drop]
    rw [show d.point - 1 - (d.digits.length - 1 : Nat) = d.point - d.digits.length by omega]
    exact h.reads

theorem inToken_of_spells {rank : Nat} {whole fraction tail : Bytes} (h : Spells rank whole fraction tail) {b : UInt8}
    (hb : b ∈ whole ++ (Layout.fraction fraction ++ tail)) : inToken b = true := by
  obtain hb | hb := List.mem_append.1 hb
  · exact inToken_of_isDigit (h.digits b (List.mem_append_left _ hb))
  obtain hb | hb := List.mem_append.1 hb
  · unfold Layout.fraction at hb
    split at hb
    · exact nomatch hb
    · obtain rfl | hb := List.mem_cons.1 hb
      · decide
      · exact inToken_of_isDigit (h.digits b (List.mem_append_right _ hb))
  · exact h.bytes b hb

theorem write_spells {rank : Nat} {d : Digits} (h : Stands d rank) (layout : Layout) :
    ∃ whole fraction tail, layout.write d = whole ++ (Layout.fraction fraction ++ tail) ∧
      Spells rank whole fraction tail := by
  rw [Layout.write]
  split
  · exact scientific_spells h
  · obtain ⟨whole, fraction, hw, hs⟩ := positional_spells h
    exact ⟨whole, fraction, [], by rw [hw, List.append_nil], hs⟩

theorem ofToken?_zeroText (negative : Bool) : ofToken? (finiteText negative 0) = some (zero negative) ∧
    (finiteText negative 0).all inToken = true := by
  cases negative <;> decide +kernel

/-- The text of a finite double reads as the double. -/
theorem ofToken?_finiteText (negative : Bool) (rank : Fin rankLimit) :
    ofToken? (finiteText negative rank) = some (.finite negative rank) ∧
      ∀ b ∈ finiteText negative rank, inToken b = true := by
  obtain ⟨rank, hr⟩ := rank
  have hsign (b : UInt8) (hb : b ∈ signText negative) : inToken b = true := by
    cases negative with
    | true => exact List.mem_singleton.1 hb ▸ by decide
    | false => exact nomatch hb
  obtain rfl | hpos := Nat.eq_zero_or_pos rank
  · rw [show Double.finite negative ⟨0, hr⟩ = zero negative by rw [zero, ofRank, dif_pos hr]]
    exact ⟨(ofToken?_zeroText negative).1, List.all_eq_true.1 (ofToken?_zeroText negative).2⟩
  · obtain ⟨whole, fraction, tail, hw, hs⟩ := write_spells (stands_shortest hpos hr) .general
    rw [finiteText, if_neg (Nat.ne_of_gt hpos), hw]
    exact ⟨ofToken?_of_spells negative hpos hr hs,
      fun b hb => (List.mem_append.1 hb).elim (hsign b) (inToken_of_spells hs)⟩

end Polish.Double
