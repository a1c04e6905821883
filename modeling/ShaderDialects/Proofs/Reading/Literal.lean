import ShaderDialects.Proofs.Reading.Grammar
import ShaderDialects.Proofs.Reading.Number

namespace ShaderDialects

open Reading Dialect

theorem Single.abs_of_not_isNegative {x : Single} (h : x.isNegative = false) : x.abs = x := by
  have hlt : x.bits < 0x80000000 := by simpa [isNegative] using h
  cases x with
  | mk bits =>
    simp only [abs, mk.injEq]
    apply UInt32.toNat_inj.mp
    rw [UInt32.toNat_mod]
    exact Nat.mod_eq_of_lt (UInt32.lt_iff_toNat_lt.mp hlt)

namespace Literal

def tree : Literal → Tree
  | bool b => .bool b
  | int n =>
      if n = Int32.minValue then
        .binary .subtract (.leading (.binary .subtract) (.int 2147483647)) (.int 1)
      else if n < 0 then .leading (.binary .subtract) (.int n.toInt.natAbs)
      else .int n.toInt.natAbs
  | uint n => .uint n.toNat
  | float x =>
      if x.isNegative then .leading (.binary .subtract) (.float x.abs) else .float x

def isSigned : Literal → Bool
  | int n => n < 0 && n ≠ Int32.minValue
  | float x => x.isNegative && !x.isNaN
  | _ => false

def isFinite : Literal → Bool
  | float x => x.isFinite
  | _ => true

def magnitudeTokens : Literal → List Token
  | bool b => [.word (if b then "true" else "false")]
  | int n =>
      if n = Int32.minValue then
        [.symbol .leftParen, .symbol (.binary .subtract), .int 2147483647,
          .symbol (.binary .subtract), .int 1, .symbol .rightParen]
      else [.int n.toInt.natAbs]
  | uint n => [.uint n.toNat]
  | float x =>
      if x.isNaN then [.word "NaN"] else if x.isInfinite then [.word "inf"] else [.float x.abs]

def magnitudeReading : Literal → Tree
  | float x =>
      if x.isNaN then .name "NaN" else if x.isInfinite then .name "inf" else .float x.abs
  | int n => if n = Int32.minValue then tree (int n) else .int n.toInt.natAbs
  | v => v.tree

def tokens (v : Literal) : List Token :=
  if v.isSigned then .symbol (.binary .subtract) :: v.magnitudeTokens else v.magnitudeTokens

def reading (v : Literal) : Tree :=
  if v.isSigned then .leading (.binary .subtract) v.magnitudeReading else v.magnitudeReading

def magnitudeText : Literal → String
  | int n => if n = Int32.minValue then "(-2147483647 - 1)" else n.toInt.natAbs.repr
  | float x => if x.isNaN then "NaN" else x.magnitudeText
  | v => v.text

theorem text_eq (v : Literal) :
    v.text = if v.isSigned then "-" ++ v.magnitudeText else v.magnitudeText := by
  cases v with
  | bool b => rfl
  | uint n => rfl
  | int n =>
    by_cases hmin : n = Int32.minValue
    · simp [text, magnitudeText, isSigned, hmin]
    · have hneg : n < 0 ↔ n.toInt < 0 := Int32.lt_iff_toInt_lt
      simp only [text, magnitudeText, isSigned, if_neg hmin, Int.toString_eq_repr, Int.repr_eq_if]
      by_cases hsign : n < 0
      · have hlt := hneg.mp hsign
        rw [if_neg (by omega), if_pos (by simp [hsign, hmin])]
        congr 2
        omega
      · have hge := hneg.not.mp hsign
        rw [if_pos (by omega), if_neg (by simp [hsign])]
        congr 1
        omega
  | float x =>
    by_cases hnan : x.isNaN = true
    · simp [text, Single.text, magnitudeText, isSigned, hnan]
    · by_cases hneg : x.isNegative = true <;>
        simp [text, Single.text, magnitudeText, isSigned, hnan, hneg]

theorem reading_eq_tree_iff (v : Literal) : v.reading = v.tree ↔ v.isFinite = true := by
  cases v with
  | bool b => exact iff_of_true rfl rfl
  | uint n => exact iff_of_true rfl rfl
  | int n =>
    refine iff_of_true ?_ rfl
    by_cases hmin : n = Int32.minValue
    · simp [reading, magnitudeReading, isSigned, hmin]
    · by_cases hneg : n < 0 <;> simp [reading, magnitudeReading, isSigned, tree, hmin, hneg]
  | float x =>
    simp only [reading, magnitudeReading, isSigned, tree, isFinite]
    by_cases hexp : x.exponentBits = 255
    · refine iff_of_false ?_ (by simp [Single.isFinite, hexp])
      by_cases hfrac : x.fractionBits = 0 <;> by_cases hneg : x.isNegative = true <;>
        simp [Single.isNaN, Single.isInfinite, hexp, hfrac, hneg]
    · refine iff_of_true ?_ (by simp [Single.isFinite, hexp])
      by_cases hneg : x.isNegative = true
      · simp [Single.isNaN, Single.isInfinite, hexp, hneg]
      · rw [Bool.not_eq_true] at hneg
        simp [Single.isNaN, Single.isInfinite, hexp, hneg, Single.abs_of_not_isNegative hneg]

theorem opens_magnitudeTokens (v : Literal) : Opens v.magnitudeTokens := by
  cases v with
  | bool b => exact ⟨_, _, rfl, nofun⟩
  | uint n => exact ⟨_, _, rfl, nofun⟩
  | int n =>
    simp only [magnitudeTokens]
    split
    · exact Opens.paren _
    · exact ⟨_, _, rfl, nofun⟩
  | float x =>
    simp only [magnitudeTokens]
    split
    · exact ⟨_, _, rfl, nofun⟩
    · split <;> exact ⟨_, _, rfl, nofun⟩

section Parse

variable {precedence : BinaryOp → ℕ}

theorem unary_magnitudeTokens (v : Literal) (rest : List Token) :
    unary precedence (v.magnitudeTokens ++ rest) = suffixes precedence v.magnitudeReading rest := by
  cases v with
  | bool b => cases b <;> exact unary_of_token rfl rest
  | uint n => exact unary_of_token rfl rest
  | int n =>
    unfold magnitudeTokens magnitudeReading
    by_cases hmin : n = Int32.minValue
    · simp only [if_pos hmin]
      -- The least integer is a difference in parentheses.
      have hright : Takes (unary precedence) (.int 1 :: .symbol .rightParen :: rest) (.int 1)
          (.symbol .rightParen :: rest) :=
        takes_token rfl (.closed (.closed (.paren rest)))
      have hleft : Takes (unary precedence) (.int 2147483647 :: .symbol (.binary .subtract) ::
          .int 1 :: .symbol .rightParen :: rest) (.int 2147483647)
          (.symbol (.binary .subtract) :: .int 1 :: .symbol .rightParen :: rest) :=
        takes_token rfl (.binary _ _)
      subst hmin
      exact unary_group (assignment_of_operands (unary_of_leading rfl hleft) hright
        (.closed (.paren rest)))
    · simp only [if_neg hmin]
      exact unary_of_token rfl rest
  | float x =>
    simp only [magnitudeTokens, magnitudeReading]
    split
    · exact unary_of_token rfl rest
    · split <;> exact unary_of_token rfl rest

theorem takes_magnitudeTokens (v : Literal) {rest : List Token} (h : OperandClosed rest) :
    Takes (unary precedence) (v.magnitudeTokens ++ rest) v.magnitudeReading rest :=
  takes_of_suffixes v.opens_magnitudeTokens h (v.unary_magnitudeTokens rest)

theorem takes_tokens (v : Literal) {rest : List Token} (h : OperandClosed rest) :
    Takes (unary precedence) (v.tokens ++ rest) v.reading rest := by
  have hmag : Takes (unary precedence) _ _ rest := v.takes_magnitudeTokens h
  unfold tokens reading
  split
  · exact unary_of_leading rfl hmag
  · exact hmag

end Parse

section Lex

variable {rest : List Char} (hr : Delimits rest)

include hr

theorem reads_magnitudeText (v : Literal) :
    Reads (v.magnitudeText.toList ++ rest) v.magnitudeTokens rest := by
  have hword := hr.stops_word
  cases v with
  | bool b => cases b <;> exact reads_word (by decide) hword (.refl rest)
  | uint n =>
    have hread := reads_unsigned n.toNat rest
    simpa [magnitudeText, text, magnitudeTokens] using hread
  | int n =>
    simp only [magnitudeText, magnitudeTokens]
    split
    · have hone : Reads ('1' :: ')' :: rest) [.int 1, .symbol .rightParen] rest :=
        (reads_nat 1 (Stops.cons (by decide) rest)).trans (reads_rightParen rest)
      have hmost := reads_nat 2147483647 (Stops.cons (c := ' ') (by decide)
        ('-' :: ' ' :: '1' :: ')' :: rest))
      have htoken : Reads ('-' :: ' ' :: '1' :: ')' :: rest)
          [.symbol (.binary .subtract), .int 1, .symbol .rightParen] rest :=
        .char rfl rfl hone.blank
      exact .char rfl rfl (.char rfl rfl (hmost.trans htoken.blank))
    · rw [Nat.toList_repr]
      exact reads_nat _ hr
  | float x =>
    simp only [magnitudeText, magnitudeTokens]
    split
    · exact reads_word (by decide) hword (.refl rest)
    · next hnan =>
        split
        · next hinf =>
            rw [Single.magnitudeText, if_pos hinf]
            exact reads_word (by decide) hword (.refl rest)
        · next hinf =>
            apply reads_magnitude hr
            simp only [Single.isNaN, Single.isInfinite, decide_eq_true_eq] at hnan hinf
            simp only [Single.isFinite, decide_eq_true_eq]
            tauto

theorem reads_text (v : Literal) : Reads (v.text.toList ++ rest) v.tokens rest := by
  have hmag := v.reads_magnitudeText hr
  rw [text_eq, tokens]
  split
  · rw [String.toList_append, List.append_assoc]
    have hlex : lex v.magnitudeText.toList = some v.magnitudeTokens := by
      have hread := v.reads_magnitudeText Stops.nil
      rw [List.append_nil] at hread
      exact hread.lex_eq
    obtain ⟨heq, hminus⟩ := head?_ne_of_opens hlex v.opens_magnitudeTokens rest
    exact reads_unary .negate heq (fun _ => hminus) hmag
  · exact hmag

end Lex

end Literal

end ShaderDialects
