import Mathlib.Data.Int.Log
import Mathlib.Data.Rat.Floor
import Mathlib.Tactic.FieldSimp
import Mathlib.Tactic.Linarith
import Mathlib.Tactic.Positivity
import Mathlib.Tactic.Ring
import ShaderDialects.Text.Shortest

namespace ShaderDialects.Single

/-- The integer nearest to `q`, and the even one of two equally near. -/
def roundEven (q : ℚ) : ℤ :=
  if q - ⌊q⌋ < 1 / 2 then ⌊q⌋
  else if 1 / 2 < q - ⌊q⌋ then ⌊q⌋ + 1
  else if ⌊q⌋ % 2 = 0 then ⌊q⌋ else ⌊q⌋ + 1

/-- The number nearest to `q ≥ 0`: the multiples of `2 ^ e` are the numbers around `q`, and bit
patterns count them from zero on. What is too great rounds to the infinity. -/
def nearest (q : ℚ) : Single :=
  if q = 0 then ⟨0⟩
  else
    let e := max (Int.log 2 q - 23) (-149)
    let pattern := (e + 149) * 0x800000 + roundEven (q / 2 ^ e)
    ⟨UInt32.ofNat (min pattern.toNat 0x7F800000)⟩

def abs (x : Single) : Single := ⟨x.bits % 0x80000000⟩

def isFinite (x : Single) : Bool := x.exponentBits ≠ 255

def value (x : Single) : ℚ := x.significand * 2 ^ x.exponent

def Decimal.value (d : Decimal) : ℚ := d.digits * 10 ^ d.exponent

theorem roundEven_eq {q : ℚ} {m : ℤ} (hlow : m - 1 / 2 ≤ q) (hhigh : q ≤ m + 1 / 2)
    (hodd : m % 2 ≠ 0 → m - 1 / 2 < q ∧ q < m + 1 / 2) : roundEven q = m := by
  have hfloor := Int.floor_le q
  have hceil := Int.lt_floor_add_one q
  -- The floor is `m` or the integer below it, and at a distance of one half `m` is even.
  have hcases : ⌊q⌋ = m ∨ ⌊q⌋ = m - 1 := by
    have hle : ⌊q⌋ < m + 1 := by
      have : (⌊q⌋ : ℚ) < (m + 1 : ℤ) := by push_cast; linarith
      exact_mod_cast this
    have hge : m - 1 < ⌊q⌋ + 1 := by
      have : ((m - 1 : ℤ) : ℚ) < (⌊q⌋ + 1 : ℤ) := by push_cast; linarith
      exact_mod_cast this
    omega
  unfold roundEven
  rcases hcases with hm | hm
  · rw [hm]
    by_cases h : q - m < 1 / 2
    · rw [if_pos h]
    · have hhalf : ¬ 1 / 2 < q - m := by linarith
      have heven : m % 2 = 0 := by
        by_contra hne
        linarith [(hodd hne).2]
      rw [if_neg h, if_neg hhalf, if_pos heven]
  · have hcast : ((m - 1 : ℤ) : ℚ) = m - 1 := by push_cast; ring
    rw [hm, hcast]
    have h : ¬ q - (m - 1) < 1 / 2 := by linarith
    rw [if_neg h]
    by_cases hhalf : 1 / 2 < q - (m - 1)
    · rw [if_pos hhalf]
      omega
    · have heven : m % 2 = 0 := by
        by_contra hne
        linarith [(hodd hne).1]
      rw [if_neg hhalf, if_neg (by omega)]
      omega

section Comparison

variable {b : ℕ}

theorem power_pos (hb : 0 < b) (k : ℤ) : 0 < (power b k : ℚ) := by
  unfold power
  exact_mod_cast Nat.pow_pos hb

theorem power_eq (hb : 0 < b) (k : ℤ) : (power b k : ℚ) = (b : ℚ) ^ k * power b (-k) := by
  have hne : (b : ℚ) ≠ 0 := by exact_mod_cast hb.ne'
  unfold power
  rcases Int.le_total 0 k with hk | hk
  · lift k to ℕ using hk
    simp
  · obtain ⟨n, rfl⟩ : ∃ n : ℕ, k = -n := ⟨(-k).toNat, by omega⟩
    simp [hne]

variable (d : ℕ) (k : ℤ) (n : ℕ) (e : ℤ)

theorem decimal_scaled :
    ((d * power 10 k * power 2 (-e) : ℕ) : ℚ)
      = (d * 10 ^ k) * (power 10 (-k) * power 2 (-e)) := by
  have hten := power_eq (b := 10) (by decide) k
  push_cast at hten ⊢
  rw [hten]
  ring

theorem binary_scaled :
    ((n * power 2 e * power 10 (-k) : ℕ) : ℚ)
      = (n * 2 ^ e) * (power 10 (-k) * power 2 (-e)) := by
  have htwo := power_eq (b := 2) (by decide) e
  push_cast at htwo ⊢
  rw [htwo]
  ring

theorem scale_pos : 0 < (power 10 (-k) : ℚ) * power 2 (-e) :=
  mul_pos (power_pos (by decide) _) (power_pos (by decide) _)

theorem decimalLe_iff : decimalLe d k n e = true ↔ (d : ℚ) * 10 ^ k ≤ n * 2 ^ e := by
  rw [decimalLe, decide_eq_true_iff, ← Nat.cast_le (α := ℚ), decimal_scaled, binary_scaled]
  exact mul_le_mul_iff_left₀ (scale_pos k e)

theorem leDecimal_iff : leDecimal n e d k = true ↔ (n : ℚ) * 2 ^ e ≤ d * 10 ^ k := by
  rw [leDecimal, decide_eq_true_iff, ← Nat.cast_le (α := ℚ), decimal_scaled, binary_scaled]
  exact mul_le_mul_iff_left₀ (scale_pos k e)

end Comparison

variable {x : Single}

theorem isNearestTo_iff {d : Decimal} :
    x.isNearestTo d = true ↔
      (x.lowerEnd * 2 ^ (x.exponent - 2) ≤ d.value ∧ d.value ≤ x.upperEnd * 2 ^ (x.exponent - 2)) ∧
        (x.significand % 2 ≠ 0 →
          x.lowerEnd * 2 ^ (x.exponent - 2) < d.value ∧
            d.value < x.upperEnd * 2 ^ (x.exponent - 2)) := by
  unfold isNearestTo
  by_cases heven : x.significand % 2 = 0
  · simp [heven, decimalLe_iff, leDecimal_iff, Decimal.value]
  · simp only [heven, if_false, Bool.and_eq_true, Bool.not_eq_true', ← Bool.not_eq_true,
      decimalLe_iff, leDecimal_iff, not_le, ne_eq, not_false_eq_true, forall_const,
      Decimal.value]
    tauto

theorem exponentBits_eq (x : Single) : x.exponentBits = x.bits.toNat / 0x800000 % 256 := by
  simp [exponentBits, UInt32.toNat_shiftRight, Nat.shiftRight_eq_div_pow]

/-- Bit patterns count the finite numbers from zero on. -/
theorem pattern_eq (x : Single) :
    (x.exponent + 149) * 0x800000 + x.significand = (x.bits.toNat % 0x80000000 : ℕ) := by
  have hexp := x.exponentBits_eq
  have hfrac : x.fractionBits = x.bits.toNat % 0x800000 := rfl
  unfold exponent significand
  split <;> omega

theorem le_exponent (x : Single) : -149 ≤ x.exponent := by
  unfold exponent
  omega

theorem significand_lt (x : Single) : x.significand < 0x1000000 := by
  have hfrac : x.fractionBits < 0x800000 := Nat.mod_lt _ (by decide)
  unfold significand
  split <;> omega

theorem le_significand (h : -149 < x.exponent) : 0x800000 ≤ x.significand := by
  unfold exponent at h
  unfold significand
  split <;> omega

theorem pattern_lt (h : x.isFinite = true) : x.bits.toNat % 0x80000000 < 0x7F800000 := by
  have hexp := x.exponentBits_eq
  have hne : x.exponentBits ≠ 255 := by simpa [isFinite] using h
  omega

theorem nearest_eq_abs {q : ℚ} {e m : ℤ} (hfin : x.isFinite = true) (hq : q ≠ 0)
    (he : max (Int.log 2 q - 23) (-149) = e) (hm : roundEven (q / 2 ^ e) = m)
    (hp : (e + 149) * 0x800000 + m = (x.exponent + 149) * 0x800000 + x.significand) :
    nearest q = x.abs := by
  have hlt := pattern_lt hfin
  rw [pattern_eq] at hp
  simp only [nearest, if_neg hq, he, hm, hp, Int.toNat_natCast, Nat.min_eq_left hlt.le, abs,
    mk.injEq]
  apply UInt32.toNat_inj.mp
  simp only [UInt32.toNat_ofNat', UInt32.toNat_mod]
  exact Nat.mod_eq_of_lt (by omega)

theorem nearest_zero (h : x.significand = 0) : nearest 0 = x.abs := by
  have hmin := x.le_exponent
  have hexp : ¬ -149 < x.exponent := fun hlt => by
    have := le_significand hlt
    omega
  have hpattern := x.pattern_eq
  rw [h] at hpattern
  simp only [nearest, if_pos, abs, mk.injEq]
  apply UInt32.toNat_inj.mp
  simp only [UInt32.toNat_mod]
  change 0 = x.bits.toNat % 0x80000000
  omega

theorem scaled_bounds {d : Decimal} {t : ℚ} (h : x.isNearestTo d = true)
    (ht : d.value = t * 2 ^ x.exponent) :
    ((x.lowerEnd : ℚ) ≤ 4 * t ∧ 4 * t ≤ x.upperEnd) ∧
      (x.significand % 2 ≠ 0 → (x.lowerEnd : ℚ) < 4 * t ∧ 4 * t < x.upperEnd) := by
  have hpos : (0 : ℚ) < 2 ^ (x.exponent - 2) := zpow_pos two_pos _
  have hscale : d.value = 4 * t * 2 ^ (x.exponent - 2) := by
    rw [ht, zpow_sub₀ two_ne_zero]
    ring
  have hiff := isNearestTo_iff.mp h
  rw [hscale] at hiff
  simpa only [mul_le_mul_iff_left₀ hpos, mul_lt_mul_iff_left₀ hpos] using hiff

theorem upperEnd_cast (x : Single) : (x.upperEnd : ℚ) = 4 * x.significand + 2 := by
  simp [upperEnd]

theorem le_lowerEnd (x : Single) : 4 * (x.significand : ℚ) - 2 ≤ x.lowerEnd := by
  have hle : 4 * x.significand ≤ x.lowerEnd + 2 := by
    unfold lowerEnd
    split <;> omega
  have hcast : 4 * (x.significand : ℚ) ≤ x.lowerEnd + 2 := by exact_mod_cast hle
  linarith

theorem log_lt_iff {q t : ℚ} {e : ℤ} (hq : q = t * 2 ^ e) (ht : 0 < t) (n : ℕ) :
    Int.log 2 q < e + n ↔ t < 2 ^ n := by
  have hunit : (0 : ℚ) < 2 ^ e := zpow_pos two_pos _
  rw [← Int.lt_zpow_iff_log_lt (by decide) (hq ▸ mul_pos ht hunit), hq, add_comm,
    Nat.cast_ofNat, zpow_add₀ two_ne_zero, mul_lt_mul_iff_left₀ hunit, zpow_natCast]

theorem nearest_of_cell {q t : ℚ} (hfin : x.isFinite = true) (hq : q ≠ 0)
    (ht : q = t * 2 ^ x.exponent) (hlevel : max (Int.log 2 q - 23) (-149) = x.exponent)
    (hlow : x.significand - 1 / 2 ≤ t) (hhigh : t ≤ x.significand + 1 / 2)
    (hodd : x.significand % 2 ≠ 0 → x.significand - 1 / 2 < t ∧ t < x.significand + 1 / 2) :
    nearest q = x.abs := by
  have hdiv : q / 2 ^ x.exponent = t := by
    rw [ht]
    field_simp
  apply nearest_eq_abs (e := x.exponent) (m := x.significand) hfin hq hlevel
  · rw [hdiv]
    apply roundEven_eq
    · push_cast
      exact hlow
    · push_cast
      exact hhigh
    · intro hne
      push_cast
      exact hodd (by omega)
  · rfl

/-- Below a power of two the numbers lie twice as close. A decimal there rounds up to the power. -/
theorem nearest_of_finer_cell {q t : ℚ} (hfin : x.isFinite = true) (hexp : -149 < x.exponent)
    (hsig : x.significand = 0x800000) (ht : q = t * 2 ^ x.exponent)
    (hlow : 0x1FFFFFF ≤ 4 * t) (hhigh : t < 0x800000) : nearest q = x.abs := by
  have htpos : 0 < t := by linarith
  have hq : 0 < q := ht ▸ mul_pos htpos (zpow_pos two_pos _)
  have hbelow : Int.log 2 q < x.exponent + 23 := (log_lt_iff ht htpos 23).mpr (by linarith)
  have habove : ¬ Int.log 2 q < x.exponent + 22 := (log_lt_iff ht htpos 22).not.mpr (by linarith)
  have hdiv : q / 2 ^ (x.exponent - 1) = 2 * t := by
    rw [ht, zpow_sub₀ two_ne_zero]
    field_simp
  apply nearest_eq_abs (e := x.exponent - 1) (m := 0x1000000) hfin hq.ne' (by omega)
  · rw [hdiv]
    apply roundEven_eq
    · push_cast
      linarith
    · push_cast
      linarith
    · intro hne
      exact absurd rfl hne
  · rw [hsig]
    push_cast
    ring

theorem nearest_of_isNearestTo {d : Decimal} (hfin : x.isFinite = true) (hne : x.significand ≠ 0)
    (h : x.isNearestTo d = true) : nearest d.value = x.abs := by
  have hunit : (0 : ℚ) < 2 ^ x.exponent := zpow_pos two_pos _
  obtain ⟨t, ht⟩ : ∃ t : ℚ, d.value = t * 2 ^ x.exponent :=
    ⟨d.value / 2 ^ x.exponent, by field_simp⟩
  obtain ⟨⟨hlow, hhigh⟩, hodd⟩ := scaled_bounds h ht
  have hend := x.le_lowerEnd
  have hone : (1 : ℚ) ≤ x.significand := by exact_mod_cast Nat.one_le_iff_ne_zero.mpr hne
  have hbound : (x.significand : ℚ) ≤ 0xFFFFFF := by
    exact_mod_cast Nat.le_of_lt_succ x.significand_lt
  rw [upperEnd_cast] at hhigh hodd
  have htpos : 0 < t := by linarith
  by_cases hcell : -149 < x.exponent ∧ t < 0x800000
  · -- Only a power of two has decimals below it that are nearest to it.
    obtain ⟨hexp, htlt⟩ := hcell
    have hsig : x.significand = 0x800000 := by
      have hge := le_significand hexp
      by_contra hne'
      have hgt : (0x800001 : ℚ) ≤ x.significand := by exact_mod_cast (by omega)
      linarith
    have hends : (x.lowerEnd : ℚ) = 0x1FFFFFF := by simp [lowerEnd, hsig]
    exact nearest_of_finer_cell hfin hexp hsig ht (hends ▸ hlow) htlt
  · have hlog : Int.log 2 d.value < x.exponent + 24 := (log_lt_iff ht htpos 24).mpr (by linarith)
    have hlevel : max (Int.log 2 d.value - 23) (-149) = x.exponent := by
      have hmin := x.le_exponent
      by_cases hexp : -149 < x.exponent
      · have habove : ¬ Int.log 2 d.value < x.exponent + 23 :=
          (log_lt_iff ht htpos 23).not.mpr fun htlt => hcell ⟨hexp, by linarith⟩
        omega
      · omega
    apply nearest_of_cell hfin (ht ▸ (mul_pos htpos hunit).ne') ht hlevel
    · linarith
    · linarith
    · intro hne'
      obtain ⟨hlow', hhigh'⟩ := hodd hne'
      constructor <;> linarith

theorem floorAt_bounds (x : Single) (k : ℤ) :
    (x.floorAt k : ℚ) * 10 ^ k ≤ x.value ∧ x.value < (x.floorAt k + 1) * 10 ^ k := by
  have hscale := scale_pos k x.exponent
  have hden : 0 < power 10 k * power 2 (-x.exponent) :=
    Nat.mul_pos (Nat.pow_pos (by decide)) (Nat.pow_pos (by decide))
  constructor
  · have hle := Nat.div_mul_le_self (x.significand * power 2 x.exponent * power 10 (-k))
      (power 10 k * power 2 (-x.exponent))
    rw [← Nat.mul_assoc, ← Nat.cast_le (α := ℚ), decimal_scaled, binary_scaled] at hle
    exact le_of_mul_le_mul_right hle hscale
  · have hlt := Nat.lt_div_mul_add hden
      (a := x.significand * power 2 x.exponent * power 10 (-k))
    rw [← Nat.succ_mul, ← Nat.mul_assoc, ← Nat.cast_lt (α := ℚ), decimal_scaled,
      binary_scaled] at hlt
    simpa [floorAt, value] using lt_of_mul_lt_mul_right hlt hscale.le

theorem holds_before_count {p : ℕ → Bool} (hp : ∀ i j, i ≤ j → p j = true → p i = true) {n i : ℕ}
    (h : i < ((List.range n).filter p).length) : p i = true := by
  by_contra hi
  have hsub : (List.range n).filter p ⊆ List.range i := by
    intro j hj
    apply List.mem_range.mpr
    by_contra hle
    exact hi (hp i j (by omega) (List.mem_filter.mp hj).2)
  have hlen := (List.nodup_range.filter p).subperm hsub |>.length_le
  rw [List.length_range] at hlen
  omega

theorem zpow_magnitude_le (hne : x.significand ≠ 0) : 10 ^ x.magnitude ≤ x.value := by
  have hiff (i : ℕ) : decimalLe 1 ((i : ℤ) - 45) x.significand x.exponent = true ↔
      (10 : ℚ) ^ ((i : ℤ) - 45) ≤ x.value := by
    rw [decimalLe_iff, Nat.cast_one, one_mul, value]
  -- The least number is `2 ^ -149`, and so the least of the powers is always counted.
  have hleast : (10 : ℚ) ^ (-45 : ℤ) ≤ x.value :=
    calc (10 : ℚ) ^ (-45 : ℤ) ≤ 1 * 2 ^ (-149 : ℤ) := by norm_num
      _ ≤ x.significand * 2 ^ x.exponent := by
          apply mul_le_mul
          · exact_mod_cast Nat.one_le_iff_ne_zero.mpr hne
          · exact zpow_le_zpow_right₀ one_le_two x.le_exponent
          · exact (zpow_pos two_pos _).le
          · exact Nat.cast_nonneg _
  set p : ℕ → Bool := fun i => decimalLe 1 ((i : ℤ) - 45) x.significand x.exponent with hpdef
  have hcount : 0 < ((List.range 84).filter p).length := by
    apply List.length_pos_of_mem (a := 0)
    exact List.mem_filter.mpr ⟨List.mem_range.mpr (by decide), (hiff 0).mpr (by simpa using hleast)⟩
  have hlast : p (((List.range 84).filter p).length - 1) = true := by
    refine holds_before_count (n := 84) ?_ (by omega)
    intro i j hij hj
    apply (hiff i).mpr
    apply le_trans _ ((hiff j).mp hj)
    exact zpow_le_zpow_right₀ (by norm_num) (by omega)
  have hpow := (hiff _).mp hlast
  have hexp : x.magnitude = ((((List.range 84).filter p).length - 1 : ℕ) : ℤ) - 45 := by
    simp only [magnitude, ← hpdef]
    omega
  rwa [hexp]

/-- Nine digits place a decimal below the number closer to it than its neighbours are. -/
theorem isNearestTo_floorAt (hne : x.significand ≠ 0) :
    x.isNearestTo ⟨x.floorAt (x.magnitude - 8), x.magnitude - 8⟩ = true := by
  obtain ⟨hfloor, hnext⟩ := x.floorAt_bounds (x.magnitude - 8)
  have hunit : (0 : ℚ) < 2 ^ (x.exponent - 2) := zpow_pos two_pos _
  have hvalue : x.value = 4 * x.significand * 2 ^ (x.exponent - 2) := by
    rw [value, zpow_sub₀ two_ne_zero]
    ring
  have hsig : (x.significand : ℚ) < 0x1000000 := by exact_mod_cast x.significand_lt
  have hend : (x.lowerEnd : ℚ) ≤ 4 * x.significand - 1 := by
    have hle : x.lowerEnd + 1 ≤ 4 * x.significand := by
      unfold lowerEnd
      split <;> omega
    have hcast : (x.lowerEnd : ℚ) + 1 ≤ 4 * x.significand := by exact_mod_cast hle
    linarith
  -- The distance to the floor is below a digit, and a digit below a quarter of a unit.
  have hdigit : (10 : ℚ) ^ (x.magnitude - 8) < 2 ^ (x.exponent - 2) := by
    have hmag := zpow_magnitude_le hne
    rw [hvalue] at hmag
    rw [zpow_sub₀ (by norm_num)]
    have : (10 : ℚ) ^ x.magnitude < 10 ^ 8 * 2 ^ (x.exponent - 2) := by nlinarith
    rw [div_lt_iff₀ (by positivity)]
    norm_num at this ⊢
    linarith
  rw [isNearestTo_iff, upperEnd_cast]
  simp only [Decimal.value]
  have hlow : (x.lowerEnd : ℚ) * 2 ^ (x.exponent - 2)
      < x.floorAt (x.magnitude - 8) * 10 ^ (x.magnitude - 8) := by nlinarith
  have hhigh : (x.floorAt (x.magnitude - 8) : ℚ) * 10 ^ (x.magnitude - 8)
      < (4 * x.significand + 2) * 2 ^ (x.exponent - 2) := by nlinarith
  exact ⟨⟨hlow.le, hhigh.le⟩, fun _ => ⟨hlow, hhigh⟩⟩

theorem isNearestTo_of_withDigits? {n : ℕ} {d : Decimal} (h : x.withDigits? n = some d) :
    x.isNearestTo d = true := by
  simp only [withDigits?] at h
  split at h
  · next hbelow habove =>
      cases h
      split
      · exact habove
      · exact hbelow
  · next hbelow _ =>
      cases h
      exact hbelow
  · next _ habove =>
      cases h
      exact habove
  · cases h

theorem isNearestTo_shortest (hne : x.significand ≠ 0) : x.isNearestTo x.shortest = true := by
  unfold shortest
  split
  · next d hd =>
      obtain ⟨n, -, hn⟩ := List.exists_of_findSome?_eq_some hd
      exact isNearestTo_of_withDigits? hn
  · exact isNearestTo_floorAt hne

theorem value_trim (n : ℕ) (d : Decimal) : (d.trim n).value = d.value := by
  induction n generalizing d with
  | zero => rfl
  | succ n ih =>
    unfold Decimal.trim
    split
    · next h =>
        rw [ih]
        have hdigits : (d.digits : ℚ) = 10 * (d.digits / 10 : ℕ) := by
          exact_mod_cast (Nat.mul_div_cancel' (Nat.dvd_of_mod_eq_zero h.2)).symm
        rw [Decimal.value, Decimal.value, hdigits, zpow_add_one₀ (by norm_num)]
        ring
    · rfl

/-- The shortest decimal reads back as the magnitude of the number. -/
theorem nearest_shortest (hfin : x.isFinite = true) (hne : x.significand ≠ 0) (n : ℕ) :
    nearest (x.shortest.trim n).value = x.abs := by
  rw [value_trim]
  exact nearest_of_isNearestTo hfin hne (isNearestTo_shortest hne)

end ShaderDialects.Single
