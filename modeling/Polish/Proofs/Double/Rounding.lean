import Polish.Double.Shortest
import Mathlib.Order.Monotone.Basic
import Mathlib.Tactic.Ring
import Mathlib.Tactic.Linarith

namespace Polish.Double

theorem binade_pos : 0 < binade := by decide

theorem magnitude_eq {s m : Nat} (hs : s = 0 ∨ binade ≤ m) (hm : m ≤ 2 * binade) :
    magnitude (s * binade + m) = m * 2 ^ s := by
  have hb := binade_pos
  have hdiv : (s * binade + m) / binade = s + m / binade := by
    rw [Nat.add_comm, Nat.add_mul_div_right _ _ hb, Nat.add_comm]
  obtain hlt | rfl := Nat.lt_or_eq_of_le hm
  · have hspacing : spacing (s * binade + m) = s := by
      rw [spacing, hdiv]
      obtain rfl | hs := hs
      · have : m / binade < 2 := Nat.div_lt_of_lt_mul (by omega)
        omega
      · have : m / binade = 1 := Nat.div_eq_of_lt_le (by omega) (by omega)
        omega
    rw [magnitude, hspacing, Nat.add_sub_cancel_left, Nat.shiftLeft_eq]
  · have hspacing : spacing (s * binade + 2 * binade) = s + 1 := by
      rw [spacing, hdiv, Nat.mul_div_cancel _ hb]
      omega
    have hrest : s * binade + 2 * binade - (s + 1) * binade = binade := by
      rw [← Nat.add_mul, ← Nat.sub_mul]
      simp
    rw [magnitude, hspacing, hrest, Nat.shiftLeft_eq, Nat.pow_succ]
    ring

theorem rank_eq (rank : Nat) : ∃ m, rank = spacing rank * binade + m ∧ m < 2 * binade ∧
    (spacing rank = 0 ∨ binade ≤ m) := by
  have hb := binade_pos
  have hdm := Nat.div_add_mod rank binade
  have hlt := Nat.mod_lt rank hb
  rw [Nat.mul_comm] at hdm
  unfold spacing
  cases hq : rank / binade with
  | zero =>
      rw [hq] at hdm
      exact ⟨rank, by omega, by omega, .inl rfl⟩
  | succ q =>
      rw [hq, Nat.succ_mul] at hdm
      exact ⟨binade + rank % binade, by rw [Nat.add_sub_cancel]; omega, by omega, .inr (by omega)⟩

theorem magnitude_succ (rank : Nat) : magnitude (rank + 1) = magnitude rank + 2 ^ spacing rank := by
  obtain ⟨m, hr, hm, hs⟩ := rank_eq rank
  generalize spacing rank = s at hr hs
  subst hr
  rw [Nat.add_assoc, magnitude_eq (hs.imp_right (Nat.le_succ_of_le)) hm, magnitude_eq hs (Nat.le_of_lt hm), Nat.succ_mul]

theorem magnitude_strictMono : StrictMono magnitude := by
  refine strictMono_nat_of_lt_succ fun rank => ?_
  rw [magnitude_succ]
  exact Nat.lt_add_of_pos_right (Nat.two_pow_pos _)

structure Rounds (rank units den : Nat) : Prop where
  low : (magnitude (rank - 1) + magnitude rank) * den ≤ 2 * units
  high : 2 * units ≤ (magnitude rank + magnitude (rank + 1)) * den
  odd : rank % 2 = 1 → (magnitude (rank - 1) + magnitude rank) * den < 2 * units ∧
    2 * units < (magnitude rank + magnitude (rank + 1)) * den

theorem Rounds.not_lt {r r' units den : Nat} (hden : 0 < den) (h : Rounds r units den) (h' : Rounds r' units den) :
    ¬ r < r' := by
  intro hlt
  have h1 : magnitude r ≤ magnitude (r' - 1) := magnitude_strictMono.monotone (by omega)
  have h2 : magnitude (r + 1) ≤ magnitude r' := magnitude_strictMono.monotone (by omega)
  have hsum := Nat.mul_le_mul_right den (Nat.add_le_add h1 h2)
  have hhigh := h.high
  have hlow := h'.low
  -- all of these are equal, so that both ranks are even, and next to each other
  have heq : (magnitude r + magnitude (r + 1)) * den = (magnitude (r' - 1) + magnitude r') * den := by omega
  have heq' := Nat.eq_of_mul_eq_mul_right hden heq
  have hnext : r = r' - 1 := magnitude_strictMono.injective (by omega)
  obtain hr | hr := Nat.mod_two_eq_zero_or_one r
  · have := (h'.odd (by omega)).1
    omega
  · have := (h.odd hr).2
    omega

theorem Rounds.unique {r r' units den : Nat} (hden : 0 < den) (h : Rounds r units den) (h' : Rounds r' units den) :
    r = r' :=
  Nat.le_antisymm (Nat.le_of_not_lt (h'.not_lt hden h)) (Nat.le_of_not_lt (h.not_lt hden h'))

/-- The nearest integer is at most a half away, and a half only if it is even. -/
theorem nearest_spec (num : Nat) {den : Nat} (hden : 0 < den) :
    2 * nearest num den * den ≤ 2 * num + den ∧ 2 * num ≤ (2 * nearest num den + 1) * den ∧
      (nearest num den % 2 = 1 →
        2 * nearest num den * den < 2 * num + den ∧ 2 * num < (2 * nearest num den + 1) * den) := by
  have hdm := Nat.div_add_mod num den
  have hlt := Nat.mod_lt num hden
  unfold nearest
  generalize num / den = q at hdm
  generalize num % den = r at hdm hlt
  have hq : 2 * q * den = 2 * (den * q) := by ring
  have hq' : (2 * q + 1) * den = 2 * (den * q) + den := by ring
  have hq1 : 2 * (q + 1) * den = 2 * (den * q) + 2 * den := by ring
  have hq1' : (2 * (q + 1) + 1) * den = 2 * (den * q) + 3 * den := by ring
  dsimp only
  split
  · rw [hq, hq']
    omega
  · rw [hq1, hq1']
    omega

/-- The binade of a number: below the first one nothing is scaled, above it lies in the upper half of `2 ^ 53`. -/
theorem scale_spec (units : Nat) {den : Nat} (hden : 0 < den) :
    units < 2 * binade * (den * 2 ^ ((units / den).log2 - 52)) ∧
      ((units / den).log2 - 52 = 0 ∨ binade * (den * 2 ^ ((units / den).log2 - 52)) ≤ units) := by
  have hb : binade = 2 ^ 52 := rfl
  generalize hs : (units / den).log2 - 52 = s
  constructor
  · have hlog : (units / den).log2 < 53 + s := by omega
    have hdiv : units / den < 2 ^ (53 + s) := by
      by_cases h0 : units / den = 0
      · rw [h0]
        exact Nat.two_pow_pos _
      · exact (Nat.log2_lt h0).1 hlog
    have := (Nat.div_lt_iff_lt_mul hden).1 hdiv
    rw [Nat.pow_add] at this
    calc units < 2 ^ 53 * 2 ^ s * den := this
      _ = 2 * binade * (den * 2 ^ s) := by rw [hb]; ring
  · by_cases hs0 : s = 0
    · exact .inl hs0
    · have hlog : (units / den).log2 = 52 + s := by omega
      have h0 : units / den ≠ 0 := by
        intro h0
        rw [h0, Nat.log2_zero] at hlog
        omega
      have hle := Nat.log2_self_le h0
      rw [hlog, Nat.le_div_iff_mul_le hden, Nat.pow_add] at hle
      refine .inr ?_
      calc binade * (den * 2 ^ s) = 2 ^ 52 * 2 ^ s * den := by rw [hb]; ring
        _ ≤ units := hle

theorem mod_two_rank (s m : Nat) : (s * binade + m) % 2 = m % 2 := by
  have hb : binade = 2 * 2 ^ 51 := rfl
  rw [hb, show s * (2 * 2 ^ 51) = 2 * (s * 2 ^ 51) by ring]
  omega

theorem add_magnitude_succ {s m : Nat} (hs : s = 0 ∨ binade ≤ m) (hm : m < 2 * binade) :
    magnitude (s * binade + m) + magnitude (s * binade + m + 1) = (2 * m + 1) * 2 ^ s := by
  rw [Nat.add_assoc, magnitude_eq hs (Nat.le_of_lt hm), magnitude_eq (hs.imp_right Nat.le_succ_of_le) hm,
    Nat.succ_mul]
  ring

theorem midpoint_le {s m units den : Nat} (hs : s = 0 ∨ binade ≤ m) (hm : m ≤ 2 * binade) (hden : 0 < den)
    (hlo : s = 0 ∨ binade * (den * 2 ^ s) ≤ units) (h : 2 * m * (den * 2 ^ s) ≤ 2 * units + den * 2 ^ s) :
    (magnitude (s * binade + m - 1) + magnitude (s * binade + m)) * den ≤ 2 * units ∧
      (2 * m * (den * 2 ^ s) < 2 * units + den * 2 ^ s → m ≠ 0 →
        (magnitude (s * binade + m - 1) + magnitude (s * binade + m)) * den < 2 * units) := by
  cases m with
  | zero =>
      obtain rfl | hb := hs
      · have h0 : magnitude 0 = 0 := by decide
        simp [h0]
      · exact absurd hb (Nat.not_le_of_lt binade_pos)
  | succ m =>
      by_cases hs' : s = 0 ∨ binade ≤ m
      · have hsum := add_magnitude_succ hs' hm
        have hmid : (magnitude (s * binade + m) + magnitude (s * binade + m + 1)) * den + den * 2 ^ s =
            2 * (m + 1) * (den * 2 ^ s) := by
          rw [hsum]
          ring
        rw [← Nat.add_assoc, Nat.add_sub_cancel]
        omega
      · -- the binade below is finer, and the number is not in it
        push Not at hs'
        have hm' : m + 1 = binade := by omega
        have hlo := hlo.resolve_left hs'.1
        have hlt := magnitude_strictMono (show s * binade + (m + 1) - 1 < s * binade + (m + 1) by omega)
        have hmag : magnitude (s * binade + (m + 1)) = binade * 2 ^ s := by rw [magnitude_eq hs hm, hm']
        have hmid : (magnitude (s * binade + (m + 1) - 1) + magnitude (s * binade + (m + 1))) * den <
            2 * (binade * (den * 2 ^ s)) := by
          calc _ < (binade * 2 ^ s + binade * 2 ^ s) * den :=
                Nat.mul_lt_mul_of_pos_right (by omega) hden
            _ = 2 * (binade * (den * 2 ^ s)) := by ring
        omega

theorem le_midpoint {s m units den : Nat} (hs : s = 0 ∨ binade ≤ m) (hm : m ≤ 2 * binade)
    (hhi : units < 2 * binade * (den * 2 ^ s)) (h : 2 * units ≤ (2 * m + 1) * (den * 2 ^ s)) :
    2 * units ≤ (magnitude (s * binade + m) + magnitude (s * binade + m + 1)) * den ∧
      (2 * units < (2 * m + 1) * (den * 2 ^ s) →
        2 * units < (magnitude (s * binade + m) + magnitude (s * binade + m + 1)) * den) := by
  obtain hlt | rfl := Nat.lt_or_eq_of_le hm
  · have hmid : (magnitude (s * binade + m) + magnitude (s * binade + m + 1)) * den =
        (2 * m + 1) * (den * 2 ^ s) := by
      rw [add_magnitude_succ hs hlt]
      ring
    rw [hmid]
    exact ⟨h, id⟩
  · have hlt := magnitude_strictMono (Nat.lt_add_one (s * binade + 2 * binade))
    have hmag := magnitude_eq hs hm
    have hmid : 2 * (2 * binade * (den * 2 ^ s)) ≤
        (magnitude (s * binade + 2 * binade) + magnitude (s * binade + 2 * binade + 1)) * den := by
      calc 2 * (2 * binade * (den * 2 ^ s)) = (2 * binade * 2 ^ s + 2 * binade * 2 ^ s) * den := by ring
        _ ≤ _ := Nat.mul_le_mul_right _ (by omega)
    omega

/-- Rounding finds the rank that a number rounds to. -/
theorem rounds_nearestRank (units : Nat) {den : Nat} (hden : 0 < den) :
    Rounds (nearestRank units den) units den := by
  simp only [nearestRank, Nat.shiftLeft_eq]
  obtain ⟨hhi, hlo⟩ := scale_spec units hden
  generalize (units / den).log2 - 52 = s at hhi hlo
  have hD : 0 < den * 2 ^ s := Nat.mul_pos hden (Nat.two_pow_pos s)
  obtain ⟨h1, h2, h3⟩ := nearest_spec units hD
  generalize nearest units (den * 2 ^ s) = m at h1 h2 h3
  have hm : m ≤ 2 * binade := by
    have : 2 * m * (den * 2 ^ s) < (4 * binade + 1) * (den * 2 ^ s) := by
      calc 2 * m * (den * 2 ^ s) ≤ 2 * units + den * 2 ^ s := h1
        _ < 2 * (2 * binade * (den * 2 ^ s)) + den * 2 ^ s := by omega
        _ = (4 * binade + 1) * (den * 2 ^ s) := by ring
    have := Nat.lt_of_mul_lt_mul_right this
    omega
  have hs : s = 0 ∨ binade ≤ m := by
    refine hlo.imp_right fun hlo => ?_
    have : 2 * binade * (den * 2 ^ s) ≤ (2 * m + 1) * (den * 2 ^ s) := by
      calc 2 * binade * (den * 2 ^ s) = 2 * (binade * (den * 2 ^ s)) := by ring
        _ ≤ 2 * units := by omega
        _ ≤ (2 * m + 1) * (den * 2 ^ s) := h2
    have := Nat.le_of_mul_le_mul_right this hD
    omega
  obtain ⟨hlow, hlow'⟩ := midpoint_le hs hm hden hlo h1
  obtain ⟨hhigh, hhigh'⟩ := le_midpoint hs hm hhi h2
  refine ⟨hlow, hhigh, fun hodd => ?_⟩
  rw [mod_two_rank] at hodd
  exact ⟨hlow' (h3 hodd).1 (by omega), hhigh' (h3 hodd).2⟩

theorem rounds_iff {rank units den : Nat} : Rounds rank units den ↔
    if rank % 2 = 0 then (magnitude (rank - 1) + magnitude rank) * den ≤ 2 * units ∧
        2 * units ≤ (magnitude rank + magnitude (rank + 1)) * den
      else (magnitude (rank - 1) + magnitude rank) * den < 2 * units ∧
        2 * units < (magnitude rank + magnitude (rank + 1)) * den := by
  split
  · exact ⟨fun h => ⟨h.low, h.high⟩, fun h => ⟨h.1, h.2, fun hodd => by omega⟩⟩
  · exact ⟨fun h => h.odd (by omega), fun h => ⟨Nat.le_of_lt h.1, Nat.le_of_lt h.2, fun _ => h⟩⟩

theorem inUnits_mul (m n : Nat) : inUnits (m * n) = m * inUnits n := by
  unfold inUnits
  generalize 1074 = k
  rw [Nat.shiftLeft_eq, Nat.shiftLeft_eq, Nat.mul_assoc]

theorem inUnits_eq (n : Nat) : inUnits n = n * inUnits 1 := by rw [← inUnits_mul, Nat.mul_one]

theorem inUnits_pos {n : Nat} (h : 0 < n) : 0 < inUnits n := by
  rw [inUnits_eq]
  exact Nat.mul_pos h (by decide +kernel)

theorem inPlace_ofNat (units p : Nat) : inPlace units (.ofNat p) = (units, inUnits 1 * 10 ^ p) := rfl

theorem inPlace_negSucc (units p : Nat) : inPlace units (.negSucc p) = (units * 10 ^ (p + 1), inUnits 1) := rfl

theorem exists_inPlace (place : Int) : ∃ num den, 0 < num ∧ 0 < den ∧
    ∀ units, inPlace units place = (units * num, den) := by
  have hu := inUnits_pos Nat.zero_lt_one
  cases place with
  | ofNat p =>
      have hten : 0 < 10 ^ p := Nat.pow_pos (by decide)
      exact ⟨1, _, by decide, Nat.mul_pos hu hten, fun units => by rw [inPlace_ofNat, Nat.mul_one]⟩
  | negSucc p => exact ⟨10 ^ (p + 1), _, Nat.pow_pos (by decide), hu, fun units => inPlace_negSucc units p⟩

/-- The printer's test of a multiple of a power of ten is the reader's rounding. -/
theorem readsAs_iff {rank n num den : Nat} {place : Int} (h : ∀ units, inPlace units place = (units * num, den)) :
    readsAs rank place n = true ↔ Rounds rank (n * den) num := by
  have hn : 2 * n * den = 2 * (n * den) := Nat.mul_assoc 2 n den
  simp only [readsAs, h, rounds_iff, hn]
  split <;> simp

theorem readsAs_ofNat (rank p n : Nat) :
    readsAs rank (.ofNat p) n = true ↔ Rounds rank (inUnits (n * 10 ^ p)) 1 := by
  have hu : n * (inUnits 1 * 10 ^ p) = inUnits (n * 10 ^ p) := by
    rw [inUnits_eq (n * 10 ^ p), Nat.mul_assoc, Nat.mul_comm (inUnits 1)]
  rw [← hu]
  exact readsAs_iff fun units => by rw [inPlace_ofNat, Nat.mul_one]

theorem readsAs_negSucc (rank p n : Nat) :
    readsAs rank (.negSucc p) n = true ↔ Rounds rank (inUnits n) (10 ^ (p + 1)) := by
  rw [inUnits_eq n]
  exact readsAs_iff fun units => inPlace_negSucc units p

theorem Rounds.scale {rank units den k : Nat} (hk : 0 < k) :
    Rounds rank (units * k) (den * k) ↔ Rounds rank units den := by
  have hu : 2 * (units * k) = 2 * units * k := by ring
  have hd (a : Nat) : a * (den * k) = a * den * k := by ring
  simp only [rounds_iff, hu, hd, Nat.mul_le_mul_right_iff hk, Nat.mul_lt_mul_right hk]

theorem readsAs_mul_ten (rank n : Nat) (place : Int) :
    readsAs rank place (n * 10) = true ↔ readsAs rank (place + 1) n = true := by
  cases place with
  | ofNat p =>
      rw [show Int.ofNat p + 1 = .ofNat (p + 1) from rfl, readsAs_ofNat, readsAs_ofNat, Nat.pow_succ,
        Nat.mul_assoc, Nat.mul_comm 10]
  | negSucc p =>
      have hten : inUnits (n * 10) = inUnits n * 10 := by
        rw [Nat.mul_comm n, inUnits_mul, Nat.mul_comm]
      cases p with
      | zero =>
          rw [show Int.negSucc 0 + 1 = .ofNat 0 from rfl, readsAs_ofNat, readsAs_negSucc, hten, Nat.pow_zero,
            Nat.mul_one]
          exact Rounds.scale (by decide)
      | succ p =>
          rw [show Int.negSucc (p + 1) + 1 = .negSucc p from rfl, readsAs_negSucc, readsAs_negSucc, hten,
            Nat.pow_succ 10 (p + 1)]
          exact Rounds.scale (by decide)

theorem readsAs_mul_pow (rank n k : Nat) (place : Int) :
    readsAs rank place (n * 10 ^ k) = true ↔ readsAs rank (place + k) n = true := by
  induction k generalizing n place with
  | zero => simp
  | succ k ih =>
      rw [Nat.pow_succ', ← Nat.mul_assoc, ih, readsAs_mul_ten]
      congr! 2
      push_cast
      ring

end Polish.Double
