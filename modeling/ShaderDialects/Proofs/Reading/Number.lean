import ShaderDialects.Dialect.Literal
import ShaderDialects.Proofs.Reading.Token

namespace ShaderDialects.Reading

open Dialect

variable {cs ds ps rest mid : List Char} {ts : List Token} {t : Token}

theorem isDigit_iff {c : Char} : c.isDigit = true ↔ 48 ≤ c.toNat ∧ c.toNat ≤ 57 := by
  simp only [Char.isDigit, Bool.and_eq_true, decide_eq_true_eq, ge_iff_le, UInt32.le_iff_toNat_le]
  rfl

theorem not_isWordStart_of_isDigit {c : Char} (h : c.isDigit = true) : isWordStart c = false := by
  have hdigits : ∀ n ∈ List.range' 48 10, isWordStart (Char.ofNat n) = false := by decide
  have hmem : c.toNat ∈ List.range' 48 10 := by
    rw [isDigit_iff] at h
    exact List.mem_range'_1.mpr (by omega)
  simpa [Char.ofNat_toNat] using hdigits _ hmem

theorem stops_digit_of_isWord {w : String} (hw : isWord w = true) (rest : List Char) :
    Stops Char.isDigit (w.toList ++ rest) := by
  obtain ⟨c, cs, hcs, hc, -⟩ := exists_cons_of_isWord hw
  rw [hcs]
  apply Stops.cons
  rw [Bool.eq_false_iff]
  intro hd
  rw [not_isWordStart_of_isDigit hd] at hc
  cases hc

theorem hexadecimal?_eq_none (hds : ∀ c ∈ ds, c.isDigit = true) (hne : ds ≠ [])
    (hr : Stops ['x', 'X'].contains rest) : hexadecimal? (ds ++ rest) = none := by
  have hsecond : ∀ c ∈ (ds ++ rest).tail.head?, ¬ (c = 'x' ∨ c = 'X') := by
    match ds, hne with
    | [_], _ =>
      intro c hc hx
      rcases hx with rfl | rfl <;> exact absurd (hr _ hc) (by decide)
    | _ :: d :: _, _ =>
      intro c hc hx
      cases hc
      have hd := hds d (by simp)
      rcases hx with rfl | rfl <;> exact absurd hd (by decide)
  unfold hexadecimal?
  split
  · next x cs heq =>
      rw [heq] at hsecond
      exact if_neg fun h => hsecond x rfl h.1
  · rfl

theorem reads_number (hds : ∀ c ∈ ds, c.isDigit = true) (hne : ds ≠ [])
    (hr : Stops ['x', 'X'].contains rest) (hle : mid.length ≤ rest.length)
    (ht : decimal? (ds ++ rest) = some (t, mid)) : Reads (ds ++ rest) [t] mid := by
  have hhex := hexadecimal?_eq_none hds hne hr
  obtain ⟨d, ds, rfl⟩ := List.exists_cons_of_ne_nil hne
  have hd := hds d List.mem_cons_self
  have hword : word? (d :: (ds ++ rest)) = none := by
    rw [word?, if_neg (by simp [not_isWordStart_of_isDigit hd])]
  rw [List.cons_append] at hhex ht ⊢
  refine Reads.token (not_isWhitespace_of hd (by decide)) ?_ ?_ (Reads.refl mid)
  · rw [token?, hword, hhex, ht]
    rfl
  · rw [List.length_append]
    omega

theorem head?_toDigits_ne {n : ℕ} (h : n ≠ 0) : (Nat.toDigits 10 n).head? ≠ some '0' := by
  induction n using Nat.strongRecOn with
  | ind n ih =>
    by_cases hlt : n < 10
    · rw [Nat.toDigits_of_lt_base hlt]
      intro hzero
      have hdigit := Nat.toNat_digitChar_sub_48_of_lt_ten hlt
      rw [Option.some.inj hzero] at hdigit
      exact h hdigit.symm
    · rw [Nat.toDigits_of_base_le (by decide) (by omega), List.head?_append_of_ne_nil]
      · exact ih _ (by omega) (by omega)
      · exact Nat.toDigits_ne_nil

theorem isDigit_toDigits (n : ℕ) : ∀ c ∈ Nat.toDigits 10 n, c.isDigit = true :=
  fun _ => Nat.isDigit_of_mem_toDigits (by decide) (by decide)

theorem isDigit_replicate (n : ℕ) : ∀ c ∈ List.replicate n '0', c.isDigit = true := by
  intro c hc
  rw [List.eq_of_mem_replicate hc]
  rfl

theorem integer?_toDigits (n : ℕ) : integer? (Nat.toDigits 10 n) rest = some (integral n rest) := by
  by_cases h : n = 0
  · subst h
    rfl
  · rw [integer?, if_neg (head?_toDigits_ne h), Nat.ofDigitChars_ten_toDigits]

theorem exponent?_eq_none (hr : Stops ['e', 'E'].contains rest) : exponent? rest = none := by
  unfold exponent?
  split
  · exact absurd (hr _ rfl) (by decide)
  · exact absurd (hr _ rfl) (by decide)
  · rfl

theorem decimal?_whole (hds : ∀ c ∈ ds, c.isDigit = true) (hne : ds ≠ [])
    (hstop : Stops Char.isDigit rest) (hr : Stops ['.', 'e', 'E'].contains rest) :
    decimal? (ds ++ rest) = integer? ds rest := by
  simp only [decimal?, takeWhile_append_stop hds hstop, dropWhile_append_stop hds hstop]
  split
  · next rest => exact absurd (hr '.' rfl) (by decide)
  · have hexp : Stops ['e', 'E'].contains rest :=
      hr.mono fun c hc => by rw [List.contains_cons, hc, Bool.or_true]
    rw [if_neg hne, exponent?_eq_none hexp]
    rfl

/-- No character in front of `rest` could belong to a number. -/
def Delimits (rest : List Char) : Prop := Stops (fun c => isWordChar c || c == '.') rest

namespace Delimits

theorem stops_word (h : Delimits rest) : Stops isWordChar rest := h.mono fun c hc => by simp [hc]

theorem stops_digit (h : Delimits rest) : Stops Char.isDigit rest :=
  h.mono fun c hc => by simp [isWordChar, Char.isAlphanum, hc]

theorem stops_mem (h : Delimits rest) (letters : List Char)
    (hall : letters.all (fun c => isWordChar c || c == '.') = true) :
    Stops letters.contains rest :=
  h.mono fun c hc => List.all_eq_true.mp hall c (by simpa using hc)

theorem integral_eq (h : Delimits rest) (n : ℕ) : integral n rest = (.int n, rest) := by
  unfold integral
  split
  · exact absurd (h _ rfl) (by decide)
  · exact absurd (h _ rfl) (by decide)
  · rfl

end Delimits

theorem reads_nat (n : ℕ) (hr : Delimits rest) :
    Reads (Nat.toDigits 10 n ++ rest) [.int n] rest := by
  apply reads_number (isDigit_toDigits n) Nat.toDigits_ne_nil (hr.stops_mem _ (by decide)) le_rfl
  rw [decimal?_whole (isDigit_toDigits n) Nat.toDigits_ne_nil hr.stops_digit
    (hr.stops_mem _ (by decide)), integer?_toDigits, hr.integral_eq]

theorem reads_unsigned (n : ℕ) (rest : List Char) :
    Reads (Nat.toDigits 10 n ++ 'u' :: rest) [.uint n] rest := by
  apply reads_number (isDigit_toDigits n) Nat.toDigits_ne_nil (Stops.cons (by decide) rest)
    (Nat.le_succ _)
  rw [decimal?_whole (isDigit_toDigits n) Nat.toDigits_ne_nil (Stops.cons (by decide) rest)
    (Stops.cons (by decide) rest), integer?_toDigits]
  rfl

section Floating

theorem decimal?_point (hds : ∀ c ∈ ds, c.isDigit = true) (hps : ∀ c ∈ ps, c.isDigit = true)
    (hne : ds ≠ []) (hr : Stops Char.isDigit rest) :
    decimal? (ds ++ '.' :: (ps ++ rest)) = some (floating (ds ++ ps) ps.length rest) := by
  have hpoint : Stops Char.isDigit ('.' :: (ps ++ rest)) := Stops.cons (by decide) _
  simp only [decimal?, takeWhile_append_stop hds hpoint, dropWhile_append_stop hds hpoint,
    takeWhile_append_stop hps hr, dropWhile_append_stop hps hr]
  rw [if_neg (by simp [hne])]

theorem decimal?_exponent (hds : ∀ c ∈ ds, c.isDigit = true) (hne : ds ≠ [])
    (h : (exponent? ('e' :: rest)).isSome = true) :
    decimal? (ds ++ 'e' :: rest) = some (floating ds 0 ('e' :: rest)) := by
  have hletter : Stops Char.isDigit ('e' :: rest) := Stops.cons (by decide) _
  simp only [decimal?, takeWhile_append_stop hds hletter, dropWhile_append_stop hds hletter]
  exact (if_neg hne).trans (if_pos h)

theorem digits?_toDigits (n : ℕ) (hr : Stops Char.isDigit rest) :
    digits? (Nat.toDigits 10 n ++ rest) = some ((n : ℤ), rest) := by
  rw [digits?, takeWhile_append_stop (isDigit_toDigits n) hr,
    dropWhile_append_stop (isDigit_toDigits n) hr, if_neg Nat.toDigits_ne_nil,
    Nat.ofDigitChars_ten_toDigits]

theorem signed?_of_digits (hds : ∀ c ∈ ds, c.isDigit = true) (hne : ds ≠ []) :
    signed? (ds ++ rest) = digits? (ds ++ rest) := by
  obtain ⟨d, ds, rfl⟩ := List.exists_cons_of_ne_nil hne
  have hd := hds d List.mem_cons_self
  rw [List.cons_append]
  unfold signed?
  split
  · next heq =>
      cases heq
      exact absurd hd (by decide)
  · next heq =>
      cases heq
      exact absurd hd (by decide)
  · rfl

theorem exponent?_repr (k : ℤ) (hr : Stops Char.isDigit rest) :
    exponent? ('e' :: (k.repr.toList ++ rest)) = some (k, rest) := by
  rw [exponent?, Int.repr_eq_if]
  by_cases hk : 0 ≤ k
  · rw [if_pos hk, Nat.toList_repr, signed?_of_digits (isDigit_toDigits _) Nat.toDigits_ne_nil,
      digits?_toDigits _ hr, Int.toNat_of_nonneg hk]
  · rw [if_neg hk, String.toList_append, Nat.toList_repr]
    change (digits? (Nat.toDigits 10 (-k).toNat ++ rest)).map _ = _
    rw [digits?_toDigits _ hr, Int.toNat_of_nonneg (by omega)]
    simp

theorem floating_eq {places : ℕ} {k : ℤ} {q : ℚ}
    (hexp : (exponent? mid).getD (0, mid) = (k, rest)) (hr : Delimits rest)
    (hq : (Nat.ofDigitChars 10 ds 0 : ℚ) * 10 ^ (k - places) = q) :
    floating ds places mid = (.float (Single.nearest q), rest) := by
  simp only [floating, hexp, hq]
  split
  · exact absurd (hr _ rfl) (by decide)
  · exact absurd (hr _ rfl) (by decide)
  · rfl

theorem reads_point {k : ℤ} {q : ℚ} (hds : ∀ c ∈ ds, c.isDigit = true) (hne : ds ≠ [])
    (hps : ∀ c ∈ ps, c.isDigit = true) (hstop : Stops Char.isDigit mid)
    (hexp : (exponent? mid).getD (0, mid) = (k, rest)) (hle : rest.length ≤ mid.length)
    (hr : Delimits rest) (hq : (Nat.ofDigitChars 10 (ds ++ ps) 0 : ℚ) * 10 ^ (k - ps.length) = q) :
    Reads (ds ++ '.' :: (ps ++ mid)) [.float (Single.nearest q)] rest := by
  apply reads_number hds hne (Stops.cons (by decide) _)
  · rw [List.length_cons, List.length_append]
    omega
  · rw [decimal?_point hds hps hne hstop, floating_eq hexp hr hq]

variable {d : Single.Decimal} (hr : Delimits rest)

include hr

theorem getD_exponent? : (exponent? rest).getD (0, rest) = (0, rest) := by
  rw [exponent?_eq_none (hr.stops_mem _ (by decide))]
  rfl

theorem reads_integral_decimal {n : ℕ} (hn : d.exponent = n) :
    Reads ((Nat.toDigits 10 d.digits ++ List.replicate n '0') ++ '.' :: (['0'] ++ rest))
      [.float (Single.nearest d.value)] rest := by
  refine reads_point ?_ (by simp) (isDigit_replicate 1) hr.stops_digit (getD_exponent? hr) le_rfl
    hr ?_
  · exact List.forall_mem_append.mpr ⟨isDigit_toDigits _, isDigit_replicate n⟩
  · rw [Nat.ofDigitChars_append, Nat.ofDigitChars_append, Nat.ofDigitChars_ten_toDigits,
      Nat.ofDigitChars_replicate_zero, Single.Decimal.value, hn]
    simp [Nat.ofDigitChars_cons]
    ring

theorem reads_fractional_decimal {n : ℕ} (zeros : ℕ) (hn : d.exponent = -n) {padded : List Char}
    (hpadded : padded = List.replicate zeros '0' ++ Nat.toDigits 10 d.digits)
    (hlen : n < padded.length) :
    Reads (padded.take (padded.length - n) ++ '.' :: (padded.drop (padded.length - n) ++ rest))
      [.float (Single.nearest d.value)] rest := by
  have hall : ∀ c ∈ padded, c.isDigit = true := by
    rw [hpadded]
    exact List.forall_mem_append.mpr ⟨isDigit_replicate zeros, isDigit_toDigits _⟩
  refine reads_point ?_ ?_ ?_ hr.stops_digit (getD_exponent? hr) le_rfl hr ?_
  · exact fun c hc => hall c (List.mem_of_mem_take hc)
  · intro hnil
    have hzero := congrArg List.length hnil
    simp only [List.length_take, List.length_nil] at hzero
    omega
  · exact fun c hc => hall c (List.mem_of_mem_drop hc)
  · have hplaces : (0 : ℤ) - ((padded.drop (padded.length - n)).length : ℕ) = d.exponent := by
      rw [List.length_drop]
      omega
    rw [List.take_append_drop, hplaces, hpadded, Nat.ofDigitChars_append,
      Nat.ofDigitChars_replicate_zero, Nat.mul_zero, Nat.ofDigitChars_ten_toDigits,
      Single.Decimal.value]

theorem reads_positional :
    Reads ((positionalText (Nat.toDigits 10 d.digits) d.exponent).toList ++ rest)
      [.float (Single.nearest d.value)] rest := by
  unfold positionalText
  by_cases hexp : 0 ≤ d.exponent
  · obtain ⟨n, hn⟩ := Int.eq_ofNat_of_zero_le hexp
    simpa [hn] using reads_integral_decimal hr hn
  · obtain ⟨n, hn⟩ : ∃ n : ℕ, d.exponent = -n := ⟨(-d.exponent).toNat, by omega⟩
    have hread := reads_fractional_decimal hr (n + 1 - (Nat.toDigits 10 d.digits).length) hn rfl
      (by simp; omega)
    rw [if_neg hexp]
    simpa [hn] using hread

theorem reads_scientific :
    Reads ((scientificText (Nat.toDigits 10 d.digits)
        (d.exponent + (Nat.toDigits 10 d.digits).length - 1)).toList ++ rest)
      [.float (Single.nearest d.value)] rest := by
  have hdigits := isDigit_toDigits d.digits
  have hvalue := Nat.ofDigitChars_ten_toDigits (n := d.digits)
  generalize hds : Nat.toDigits 10 d.digits = ds at hdigits hvalue ⊢
  set leading := d.exponent + ds.length - 1 with hleading
  have hexp := exponent?_repr leading hr.stops_digit
  match ds, hdigits with
  | [], _ => exact absurd hds Nat.toDigits_ne_nil
  | [c], hdigits =>
    have hread : Reads ([c] ++ 'e' :: (leading.repr.toList ++ rest))
        [.float (Single.nearest d.value)] rest := by
      apply reads_number hdigits (by simp) (Stops.cons (by decide) _) (by simp; omega)
      rw [decimal?_exponent hdigits (by simp) (by rw [hexp]; rfl)]
      congr 1
      refine floating_eq (k := leading) (by rw [hexp]; rfl) hr ?_
      rw [hvalue, Single.Decimal.value]
      simp [hleading]
    simpa [scientificText] using hread
  | c :: e :: es, hdigits =>
    have hread : Reads ([c] ++ '.' :: ((e :: es) ++ 'e' :: (leading.repr.toList ++ rest)))
        [.float (Single.nearest d.value)] rest := by
      refine reads_point (k := leading) ?_ (by simp) ?_ (Stops.cons (by decide) _)
        (by rw [hexp]; rfl) (by simp; omega) hr ?_
      · exact fun x hx => hdigits x (by simp_all)
      · exact fun x hx => hdigits x (List.mem_cons_of_mem c hx)
      · have hplace : leading - ((e :: es).length : ℕ) = d.exponent := by
          rw [hleading, List.length_cons]
          omega
        rw [List.singleton_append, hvalue, hplace, Single.Decimal.value]
    simpa [scientificText] using hread

theorem reads_decimal : Reads (d.text.toList ++ rest) [.float (Single.nearest d.value)] rest := by
  unfold Single.Decimal.text
  simp only [Nat.toString_eq_repr, Nat.toList_repr]
  split
  · exact reads_positional hr
  · exact reads_scientific hr

/-- The magnitude of a finite number reads as the number without its sign. -/
theorem reads_magnitude {x : Single} (hfin : x.isFinite = true) :
    Reads (x.magnitudeText.toList ++ rest) [.float x.abs] rest := by
  have hexp : x.exponentBits ≠ 255 := by simpa [Single.isFinite] using hfin
  unfold Single.magnitudeText
  rw [if_neg (by simp [Single.isInfinite, hexp])]
  by_cases hzero : x.significand = 0
  · rw [if_pos hzero]
    have hread : Reads (['0'] ++ '.' :: (['0'] ++ rest)) [.float (Single.nearest 0)] rest := by
      exact reads_point (isDigit_replicate 1) (by simp) (isDigit_replicate 1) hr.stops_digit
        (getD_exponent? hr) le_rfl hr (by simp [Nat.ofDigitChars_cons])
    rwa [Single.nearest_zero hzero] at hread
  · rw [if_neg hzero, ← Single.nearest_shortest hfin hzero 9]
    exact reads_decimal hr

end Floating

end ShaderDialects.Reading
