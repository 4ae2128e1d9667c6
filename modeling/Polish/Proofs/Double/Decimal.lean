import Polish.Proofs.Double.Rounding

namespace Polish.Double

theorem pow_le_iff_lt_length {n : Nat} (hn : 0 < n) (k : Nat) : 10 ^ k ≤ n ↔ k < (Nat.toDigits 10 n).length := by
  cases k with
  | zero => exact ⟨fun _ => Nat.length_toDigits_pos, fun _ => hn⟩
  | succ k =>
      have h := Nat.length_toDigits_le_iff (n := n) (b := 10) (k := k + 1) (by decide) (by omega)
      omega

theorem pow_length_le {n : Nat} (hn : 0 < n) : 10 ^ ((Nat.toDigits 10 n).length - 1) ≤ n :=
  (pow_le_iff_lt_length hn _).2 (Nat.sub_one_lt Nat.length_toDigits_pos.ne')

theorem lt_pow_length (n : Nat) : n < 10 ^ (Nat.toDigits 10 n).length :=
  (Nat.length_toDigits_le_iff (by decide) Nat.length_toDigits_pos).1 (Nat.le_refl _)

theorem magnitude_pos {rank : Nat} (h : 0 < rank) : 0 < magnitude rank :=
  Nat.lt_of_le_of_lt (Nat.zero_le _) (magnitude_strictMono h)

theorem magnitude_rankLimit : magnitude rankLimit = inUnits (2 ^ 1024) := by decide +kernel

namespace Rounds

variable {rank units den : Nat}

theorem den_le (h : Rounds rank units den) (hr : 0 < rank) : den ≤ 2 * units :=
  Nat.le_trans (Nat.le_mul_of_pos_left den (Nat.add_pos_right _ (magnitude_pos hr))) h.low

theorem units_le (h : Rounds rank units den) (hr : rank < rankLimit) : units ≤ inUnits (2 ^ 1024) * den := by
  have h1 : magnitude rank ≤ magnitude rankLimit := magnitude_strictMono.monotone (Nat.le_of_lt hr)
  have h2 : magnitude (rank + 1) ≤ magnitude rankLimit := magnitude_strictMono.monotone hr
  have h3 := Nat.mul_le_mul_right den (Nat.add_le_add h1 h2)
  have h4 := h.high
  rw [magnitude_rankLimit, Nat.add_mul (inUnits _)] at h3
  omega

end Rounds

theorem ofRank_nearestRank {rank units den : Nat} (negative : Bool) (hden : 0 < den) (h : Rounds rank units den)
    (hr : rank < rankLimit) : ofRank negative (nearestRank units den) = .finite negative ⟨rank, hr⟩ := by
  have he : nearestRank units den = rank := (rounds_nearestRank units hden).unique hden h
  rw [ofRank, dif_pos (he ▸ hr)]
  simp only [he]

theorem length_bounds {rank n : Nat} {place : Int} (h : readsAs rank place n = true) (hpos : 0 < rank)
    (hr : rank < rankLimit) (hn : 0 < n) :
    -330 ≤ place + (Nat.toDigits 10 n).length ∧ place + (Nat.toDigits 10 n).length ≤ 310 := by
  have hlt := lt_pow_length n
  have hle := pow_le_iff_lt_length hn
  generalize (Nat.toDigits 10 n).length = size at hlt hle
  have hunit (a b : Nat) : inUnits a ≤ inUnits b ↔ a ≤ b := by
    rw [inUnits_eq a, inUnits_eq b, Nat.mul_le_mul_right_iff (inUnits_pos Nat.zero_lt_one)]
  have hlarge : 2 ^ 1024 < 10 ^ 310 := by decide +kernel
  cases place with
  | ofNat p =>
      have hu := ((readsAs_ofNat rank p n).1 h).units_le hr
      rw [Nat.mul_one, hunit] at hu
      refine ⟨by simp only [Int.ofNat_eq_natCast]; omega, Int.le_of_not_gt fun hbig => ?_⟩
      have hsize : 310 - p < size := by
        have := (hle 0).1 hn
        simp only [Int.ofNat_eq_natCast] at hbig
        omega
      have hpow (k : Nat) : 10 ^ k ≤ 10 ^ (k - p) * 10 ^ p := by
        rw [← Nat.pow_add]
        exact Nat.pow_le_pow_right (by decide) (by omega)
      have := Nat.le_trans (hpow 310) (Nat.mul_le_mul_right (10 ^ p) ((hle _).2 hsize))
      exact Nat.not_lt_of_le hu (Nat.lt_of_lt_of_le hlarge this)
  | negSucc p =>
      have hround := (readsAs_negSucc rank p n).1 h
      refine ⟨Int.le_of_not_gt fun hsmall => ?_, Int.le_of_not_gt fun hbig => ?_⟩
      · -- so small a number lies below half of the smallest positive double
        have hd := hround.den_le hpos
        have hpow (k : Nat) (hk : size + k ≤ p + 1) : 10 ^ size * 10 ^ k ≤ 10 ^ (p + 1) := by
          rw [← Nat.pow_add]
          exact Nat.pow_le_pow_right (by decide) hk
        have hbits : 2 * inUnits 1 < 10 ^ 324 := by decide +kernel
        rw [inUnits_eq, Nat.mul_left_comm] at hd
        exact Nat.not_lt_of_le (Nat.le_trans (hpow 324 (by omega)) hd) (Nat.mul_lt_mul_of_lt_of_lt hlt hbits)
      · have hu := hround.units_le hr
        rw [Nat.mul_comm, ← inUnits_mul, hunit] at hu
        have hpow (k : Nat) : 10 ^ (p + 1) * 10 ^ k = 10 ^ (k + (p + 1)) := by
          rw [Nat.add_comm k, ← Nat.pow_add]
        have hmany := (hle (310 + (p + 1))).2 (by omega)
        rw [← hpow] at hmany
        have hten : 0 < 10 ^ (p + 1) := Nat.pow_pos (by decide)
        exact Nat.not_lt_of_le (Nat.le_trans hmany hu) (Nat.mul_lt_mul_of_pos_left hlarge hten)

/-- A decimal that reads as a finite double by the printer's test is read so. -/
theorem ofDecimal_eq {rank n : Nat} {place : Int} (negative : Bool) (h : readsAs rank place n = true) (hpos : 0 < rank)
    (hr : rank < rankLimit) (hn : 0 < n) : ofDecimal negative n place = .finite negative ⟨rank, hr⟩ := by
  obtain ⟨hsmall, hlarge⟩ := length_bounds h hpos hr hn
  unfold ofDecimal
  dsimp only
  rw [if_neg (by omega), if_neg (by omega)]
  cases place with
  | ofNat p => exact ofRank_nearestRank negative (by decide) ((readsAs_ofNat rank p n).1 h) hr
  | negSucc p => exact ofRank_nearestRank negative (Nat.pow_pos (by decide)) ((readsAs_negSucc rank p n).1 h) hr

theorem pos_of_readsAs {rank n : Nat} {place : Int} (hpos : 0 < rank) (h : readsAs rank place n = true) : 0 < n := by
  obtain ⟨num, den, hnum, -, hplace⟩ := exists_inPlace place
  have := ((readsAs_iff hplace).1 h).den_le hpos
  by_contra hn
  rw [Nat.eq_zero_of_not_pos hn, Nat.zero_mul] at this
  omega

/-- A double has at most 53 significant bits. -/
theorem magnitude_le_gap {rank : Nat} (hpos : 0 < rank) :
    magnitude rank ≤ 2 ^ 53 * (magnitude rank - magnitude (rank - 1)) := by
  obtain ⟨r, rfl⟩ := Nat.exists_eq_add_of_lt hpos
  obtain ⟨m, hr, hm, hs⟩ := rank_eq r
  rw [Nat.zero_add, Nat.add_sub_cancel, magnitude_succ, Nat.add_sub_cancel_left]
  have hmag : magnitude r = m * 2 ^ spacing r := by
    rw [← magnitude_eq hs (Nat.le_of_lt hm), ← hr]
  rw [hmag, ← Nat.succ_mul]
  exact Nat.mul_le_mul_right _ hm

theorem gap_le (rank : Nat) :
    magnitude rank - magnitude (rank - 1) ≤ magnitude (rank + 1) - magnitude rank := by
  cases rank with
  | zero => simp
  | succ r =>
      have hspacing : spacing r ≤ spacing (r + 1) := Nat.sub_le_sub_right (Nat.div_le_div_right (Nat.le_succ r)) 1
      rw [Nat.add_sub_cancel, magnitude_succ (r + 1), Nat.add_sub_cancel_left, magnitude_succ, Nat.add_sub_cancel_left]
      exact Nat.pow_le_pow_right (by decide) hspacing

/-- In a place smaller than the gap to the neighbour below, the nearest multiple reads as the double. -/
theorem rounds_nearest {rank num den : Nat} (hden : 0 < den)
    (h : den < (magnitude rank - magnitude (rank - 1)) * num) :
    Rounds rank (nearest (magnitude rank * num) den * den) num := by
  obtain ⟨hle, hge, -⟩ := nearest_spec (magnitude rank * num) hden
  have habove := Nat.mul_le_mul_right num (gap_le rank)
  rw [Nat.sub_mul] at h habove
  rw [Nat.sub_mul] at habove
  rw [Nat.mul_assoc] at hle
  rw [Nat.add_mul, Nat.mul_assoc] at hge
  have hlow : (magnitude (rank - 1) + magnitude rank) * num
      < 2 * (nearest (magnitude rank * num) den * den) := by
    rw [Nat.add_mul]
    omega
  have hhigh : 2 * (nearest (magnitude rank * num) den * den)
      < (magnitude rank + magnitude (rank + 1)) * num := by
    rw [Nat.add_mul]
    omega
  exact ⟨Nat.le_of_lt hlow, Nat.le_of_lt hhigh, fun _ => ⟨hlow, hhigh⟩⟩

theorem exists_size_of_shift {units shift : Nat} (hshift : inUnits 1 ≤ units * 10 ^ shift) :
    ∃ size : Nat, ((Nat.toDigits 10 (units * Nat.pow 10 shift / inUnits 1)).length : Int) - 1 - shift = size - shift ∧
      10 ^ size * inUnits 1 ≤ units * 10 ^ shift := by
  have hunit : 0 < inUnits 1 := inUnits_pos Nat.zero_lt_one
  refine ⟨(Nat.toDigits 10 (units * 10 ^ shift / inUnits 1)).length - 1, ?_, ?_⟩
  · rw [Nat.pow_eq]
    have := Nat.length_toDigits_pos (b := 10) (n := units * 10 ^ shift / inUnits 1)
    omega
  · exact (Nat.le_div_iff_mul_le hunit).1 (pow_length_le (Nat.div_pos hshift hunit))

/-- The power of ten of the leading digit is at most the magnitude, both shifted to be integers. -/
theorem exists_leadingExponent {units : Nat} (hpos : 0 < units) :
    ∃ size : Nat, leadingExponent units = (size : Int) - leadingShift ∧
      10 ^ size * inUnits 1 ≤ units * 10 ^ leadingShift := by
  have hunit : inUnits 1 ≤ 10 ^ leadingShift := by decide +kernel
  exact exists_size_of_shift (Nat.le_trans hunit (Nat.le_mul_of_pos_left _ hpos))

theorem pow_mul_le_inPlace {units num den size shift : Nat} (hdigits : 10 ^ size * inUnits 1 ≤ units * 10 ^ shift)
    (k : Nat) (h : ∀ v, inPlace v ((size : Int) - shift - k) = (v * num, den)) : 10 ^ k * den ≤ units * num := by
  have hten : 0 < 10 ^ shift := Nat.pow_pos (by decide)
  have hone := h 1
  cases hp : ((size : Int) - shift - k) with
  | ofNat p =>
      rw [hp, inPlace_ofNat, Nat.one_mul num] at hone
      obtain ⟨hnum, hden⟩ := Prod.mk.inj hone
      have hsize : size = k + p + shift := by
        rw [Int.ofNat_eq_natCast] at hp
        omega
      refine Nat.le_of_mul_le_mul_right ?_ hten
      calc
        _ = 10 ^ size * inUnits 1 := by rw [hsize, ← hden, Nat.pow_add, Nat.pow_add]; ring
        _ ≤ units * 10 ^ shift := hdigits
        _ = units * num * 10 ^ shift := by rw [← hnum, Nat.mul_one units]
  | negSucc p =>
      rw [hp, inPlace_negSucc, Nat.one_mul, Nat.one_mul] at hone
      obtain ⟨hnum, hden⟩ := Prod.mk.inj hone
      have hsize : k + shift = size + (p + 1) := by omega
      refine Nat.le_of_mul_le_mul_right ?_ hten
      calc
        _ = 10 ^ (k + shift) * inUnits 1 := by rw [← hden, Nat.pow_add, Nat.mul_right_comm]
        _ = 10 ^ size * inUnits 1 * 10 ^ (p + 1) := by rw [hsize, Nat.pow_add 10 size, Nat.mul_right_comm]
        _ ≤ units * 10 ^ shift * 10 ^ (p + 1) := Nat.mul_le_mul_right _ hdigits
        _ = units * num * 10 ^ shift := by rw [← hnum, Nat.mul_right_comm]

/-- In the place of the seventeenth digit the nearest multiple reads as the double. -/
theorem readsAs_nearest {rank : Nat} (hpos : 0 < rank) {place : Int}
    (hp : place = leadingExponent (magnitude rank) - (16 : Nat)) :
    readsAs rank place (nearest (inPlace (magnitude rank) place).1 (inPlace (magnitude rank) place).2) = true := by
  obtain ⟨num, den, hnum, hden, hplace⟩ := exists_inPlace place
  obtain ⟨size, hsize, hdigits⟩ := exists_leadingExponent (magnitude_pos hpos)
  rw [hp, hsize] at hplace
  have hlead : 10 ^ 16 * den ≤ magnitude rank * num := pow_mul_le_inPlace hdigits 16 hplace
  have hgap := Nat.mul_le_mul_right num (magnitude_le_gap hpos)
  rw [Nat.mul_assoc] at hgap
  rw [hp, hsize, hplace, readsAs_iff hplace]
  exact rounds_nearest hden (by omega)

theorem nearest_eq (num den : Nat) : nearest num den = num / den ∨ nearest num den = num / den + 1 := by
  unfold nearest
  dsimp only
  split
  · exact .inl rfl
  · exact .inr rfl

theorem readsAs_of_candidate? {rank n : Nat} {place : Int} (h : candidate? rank place = some n) :
    readsAs rank place n = true := by
  unfold candidate? at h
  dsimp only at h
  split at h
  case h_1 hbelow habove =>
    obtain rfl := Option.some.inj h
    obtain he | he := nearest_eq (inPlace (magnitude rank) place).1 (inPlace (magnitude rank) place).2
    · rwa [he]
    · rwa [he]
  case h_2 hbelow _ => rwa [← Option.some.inj h]
  case h_3 _ habove => rwa [← Option.some.inj h]
  case h_4 => exact nomatch h

theorem readsAs_firstCandidate (rank more : Nat) {place : Int}
    (hlast : ∀ last : Int, last = place - more →
      readsAs rank last (nearest (inPlace (magnitude rank) last).1 (inPlace (magnitude rank) last).2) = true) :
    readsAs rank (firstCandidate rank place more).2 (firstCandidate rank place more).1 = true := by
  induction more generalizing place with
  | zero => exact hlast place (by simp)
  | succ more ih =>
      rw [firstCandidate]
      split
      · rename_i hc
        exact readsAs_of_candidate? hc
      · exact ih fun last hl => hlast last (by omega)

theorem readsAs_first {rank : Nat} (hpos : 0 < rank) :
    let found := firstCandidate rank (leadingExponent (magnitude rank)) 16
    readsAs rank found.2 found.1 = true ∧ 0 < found.1 := by
  have hr := readsAs_firstCandidate rank 16 fun _ hl => readsAs_nearest hpos hl
  exact ⟨hr, pos_of_readsAs hpos hr⟩

end Polish.Double
