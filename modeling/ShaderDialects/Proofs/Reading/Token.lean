import ShaderDialects.Dialect.Spelling
import ShaderDialects.Proofs.Reading.Rounding

namespace ShaderDialects.Reading

open Dialect

inductive Symbol where
  | binary (op : BinaryOp)
  /-- An assignment, which may apply an operator first. -/
  | assign (op : Option BinaryOp)
  | logicalNot | bitNot | increment | decrement
  | leftParen | rightParen | leftBracket | rightBracket | leftBrace | rightBrace
  | dot | comma | colon | semicolon | question
  deriving DecidableEq

/-- How symbols are spelled. The longer ones come first, so that the first match is the longest. -/
def symbols : List (List Char × Symbol) :=
  [(['<', '<', '='], .assign (some .shiftLeft)), (['>', '>', '='], .assign (some .shiftRight)),
   (['<', '<'], .binary .shiftLeft), (['>', '>'], .binary .shiftRight), (['+', '+'], .increment),
   (['-', '-'], .decrement), (['<', '='], .binary .lessEqual), (['>', '='], .binary .greaterEqual),
   (['=', '='], .binary .equal), (['!', '='], .binary .notEqual), (['&', '&'], .binary .logicalAnd),
   (['|', '|'], .binary .logicalOr), (['^', '^'], .binary .logicalXor),
   (['*', '='], .assign (some .multiply)), (['/', '='], .assign (some .divide)),
   (['+', '='], .assign (some .add)), (['%', '='], .assign (some .modulo)),
   (['&', '='], .assign (some .bitAnd)), (['^', '='], .assign (some .bitXor)),
   (['|', '='], .assign (some .bitOr)), (['-', '='], .assign (some .subtract)),
   (['('], .leftParen), ([')'], .rightParen), (['['], .leftBracket), ([']'], .rightBracket),
   (['\x7b'], .leftBrace), (['\x7d'], .rightBrace), (['.'], .dot), ([','], .comma), ([':'], .colon),
   (['='], .assign none), ([';'], .semicolon), (['!'], .logicalNot), (['-'], .binary .subtract),
   (['~'], .bitNot), (['+'], .binary .add), (['*'], .binary .multiply), (['/'], .binary .divide),
   (['%'], .binary .modulo), (['<'], .binary .less), (['>'], .binary .greater),
   (['|'], .binary .bitOr), (['^'], .binary .bitXor), (['&'], .binary .bitAnd), (['?'], .question)]

example : symbols.Pairwise fun s t => t.1.length ≤ s.1.length := by decide

inductive Token where
  | word (name : String)
  | int (value : ℕ)
  | uint (value : ℕ)
  | float (value : Single)
  | symbol (symbol : Symbol)
  deriving DecidableEq

def symbol? (cs : List Char) : Option (Token × List Char) :=
  (symbols.find? fun s => s.1.isPrefixOf cs).map fun s => (.symbol s.2, cs.drop s.1.length)

def isWordStart (c : Char) : Bool := c.isAlpha || c == '_'

def isWordChar (c : Char) : Bool := c.isAlphanum || c == '_'

def isHexDigit (c : Char) : Bool := c.isDigit || 'a' ≤ c.toLower && c.toLower ≤ 'f'

def hexValue (cs : List Char) : ℕ :=
  cs.foldl (fun n c => 16 * n + if c.isDigit then c.toNat - 48 else c.toLower.toNat - 87) 0

def digits? (cs : List Char) : Option (ℤ × List Char) :=
  let digits := cs.takeWhile Char.isDigit
  if digits = [] then none else some (Nat.ofDigitChars 10 digits 0, cs.dropWhile Char.isDigit)

def signed? : List Char → Option (ℤ × List Char)
  | '-' :: cs => (digits? cs).map fun (n, rest) => (-n, rest)
  | '+' :: cs => digits? cs
  | cs => digits? cs

def exponent? : List Char → Option (ℤ × List Char)
  | 'e' :: cs => signed? cs
  | 'E' :: cs => signed? cs
  | _ => none

def integral (value : ℕ) : List Char → Token × List Char
  | 'u' :: rest => (.uint value, rest)
  | 'U' :: rest => (.uint value, rest)
  | rest => (.int value, rest)

def floating (digits : List Char) (places : ℕ) (rest : List Char) : Token × List Char :=
  let (exponent, rest) := (exponent? rest).getD (0, rest)
  let value := (Nat.ofDigitChars 10 digits 0 : ℚ) * 10 ^ (exponent - places)
  (.float (Single.nearest value),
    match rest with
    | 'f' :: rest => rest
    | 'F' :: rest => rest
    | rest => rest)

def hexadecimal? : List Char → Option (Token × List Char)
  | '0' :: x :: cs =>
      let digits := cs.takeWhile isHexDigit
      if (x = 'x' ∨ x = 'X') ∧ digits ≠ [] then
        some (integral (hexValue digits) (cs.dropWhile isHexDigit))
      else none
  | _ => none

/-- The token of an integer, which is octal after a leading zero. -/
def integer? (digits rest : List Char) : Option (Token × List Char) :=
  if digits.head? = some '0' then
    if digits.all (· < '8') then some (integral (Nat.ofDigitChars 8 digits 0) rest) else none
  else some (integral (Nat.ofDigitChars 10 digits 0) rest)

def decimal? (cs : List Char) : Option (Token × List Char) :=
  let whole := cs.takeWhile Char.isDigit
  match cs.dropWhile Char.isDigit with
  | '.' :: rest =>
      let places := rest.takeWhile Char.isDigit
      if whole ++ places = [] then none
      else some (floating (whole ++ places) places.length (rest.dropWhile Char.isDigit))
  | rest =>
      if whole = [] then none
      else if (exponent? rest).isSome then some (floating whole 0 rest)
      else integer? whole rest

def word? (cs : List Char) : Option (Token × List Char) :=
  match cs with
  | [] => none
  | c :: _ =>
      if isWordStart c then
        some (.word (String.ofList (cs.takeWhile isWordChar)), cs.dropWhile isWordChar)
      else none

def token? (cs : List Char) : Option (Token × List Char) :=
  word? cs <|> hexadecimal? cs <|> decimal? cs <|> symbol? cs

/-- Goes on with what a step has left of its input, which has to be less than all of it. -/
def proceed {α β γ : Type} (input : List α) (result : Option (β × List α))
    (next : β → (rest : List α) → rest.length < input.length → Option γ) : Option γ :=
  match result with
  | some (b, rest) => if h : rest.length < input.length then next b rest h else none
  | none => none

theorem proceed_some {α β γ : Type} {input rest : List α} {b : β}
    {next : β → (rest : List α) → rest.length < input.length → Option γ}
    (h : rest.length < input.length) : proceed input (some (b, rest)) next = next b rest h :=
  dif_pos h

def lex : List Char → Option (List Token)
  | [] => some []
  | c :: cs =>
      if c.isWhitespace then lex cs
      else proceed (c :: cs) (token? (c :: cs)) fun t rest _ => (lex rest).map (t :: ·)
termination_by cs => cs.length
decreasing_by
  · exact Nat.lt_succ_self _
  · assumption

example : lex ['-', '-', 'n'] = some [.symbol .decrement, .word "n"] := by cbv

/-- A run of characters that satisfy `p` ends before `rest`. -/
def Stops (p : Char → Bool) (rest : List Char) : Prop := ∀ c ∈ rest.head?, p c = false

section Stops

variable {p q : Char → Bool} {cs rest : List Char}

theorem Stops.nil : Stops p [] := nofun

theorem Stops.cons {c : Char} (h : p c = false) (cs : List Char) : Stops p (c :: cs) := by
  intro d hd
  cases hd
  exact h

theorem Stops.mono (hq : Stops q rest) (h : ∀ c, p c = true → q c = true) : Stops p rest := by
  intro c hc
  by_contra hp
  exact absurd (h c (by simpa using hp)) (by simp [hq c hc])

theorem Stops.takeWhile (hr : Stops p rest) : rest.takeWhile p = [] := by
  cases rest with
  | nil => rfl
  | cons c cs => simp [hr c rfl]

theorem Stops.dropWhile (hr : Stops p rest) : rest.dropWhile p = rest := by
  cases rest with
  | nil => rfl
  | cons c cs => simp [hr c rfl]

theorem takeWhile_append_stop (h : ∀ c ∈ cs, p c = true) (hr : Stops p rest) :
    (cs ++ rest).takeWhile p = cs := by
  rw [List.takeWhile_append_of_pos h, hr.takeWhile, List.append_nil]

theorem dropWhile_append_stop (h : ∀ c ∈ cs, p c = true) (hr : Stops p rest) :
    (cs ++ rest).dropWhile p = rest := by
  rw [List.dropWhile_append_of_pos h, hr.dropWhile]

end Stops

/-- The characters `cs` begin with the tokens `ts`, after which the lexer goes on with `rest`. -/
def Reads (cs : List Char) (ts : List Token) (rest : List Char) : Prop :=
  lex cs = (lex rest).map (ts ++ ·)

namespace Reads

variable {cs mid rest : List Char} {ts us : List Token}

theorem trans (h : Reads cs ts mid) (h' : Reads mid us rest) : Reads cs (ts ++ us) rest := by
  unfold Reads at *
  rw [h, h', Option.map_map]
  congr 1
  funext vs
  simp

theorem blank (h : Reads cs ts rest) : Reads (' ' :: cs) ts rest := by
  unfold Reads at *
  rw [lex, if_pos (by decide), h]

theorem token {c : Char} {t : Token} (hc : c.isWhitespace = false)
    (ht : token? (c :: cs) = some (t, mid)) (hlt : mid.length ≤ cs.length) (h : Reads mid ts rest) :
    Reads (c :: cs) (t :: ts) rest := by
  unfold Reads at *
  rw [lex, if_neg (by simp [hc]), ht, proceed_some (Nat.lt_succ_of_le hlt), h, Option.map_map]
  rfl

theorem char {c : Char} {t : Token} (hc : c.isWhitespace = false)
    (ht : token? (c :: cs) = some (t, cs)) (h : Reads cs ts rest) :
    Reads (c :: cs) (t :: ts) rest :=
  token hc ht le_rfl h

theorem refl (cs : List Char) : Reads cs [] cs := by
  unfold Reads
  cases lex cs <;> rfl

theorem lex_eq (h : Reads cs ts []) : lex cs = some ts := by
  rw [Reads, lex] at h
  simpa using h

end Reads

def isWord (w : String) : Bool := w.toList.head?.any isWordStart && w.toList.all isWordChar

def isName (w : String) : Bool := isWord w && w ≠ "true" && w ≠ "false"

theorem exists_cons_of_isWord {w : String} (h : isWord w = true) :
    ∃ c cs, w.toList = c :: cs ∧ isWordStart c = true ∧ ∀ d ∈ c :: cs, isWordChar d = true := by
  obtain ⟨hstart, hchars⟩ := Bool.and_eq_true_iff.mp h
  rw [List.all_eq_true] at hchars
  cases hw : w.toList with
  | nil =>
    rw [hw] at hstart
    cases hstart
  | cons c cs =>
    rw [hw] at hstart hchars
    exact ⟨c, cs, rfl, hstart, hchars⟩

theorem not_isWhitespace_of {p : Char → Bool} {c : Char} (h : p c = true)
    (hp : [' ', '\t', '\r', '\n'].any p = false) : c.isWhitespace = false := by
  rw [Bool.eq_false_iff]
  intro hblank
  have hmem : c ∈ [' ', '\t', '\r', '\n'] := by simpa [Char.isWhitespace, or_assoc] using hblank
  exact absurd h (List.any_eq_false.mp hp c hmem)

section Lexemes

variable {rest mid : List Char} {ts : List Token}

theorem reads_word {w : String} (hw : isWord w = true) (hr : Stops isWordChar mid)
    (h : Reads mid ts rest) : Reads (w.toList ++ mid) (.word w :: ts) rest := by
  obtain ⟨c, cs, hcs, hc, hchars⟩ := exists_cons_of_isWord hw
  have hname : String.ofList (c :: cs) = w := by rw [← hcs, String.ofList_toList]
  have hword : word? (c :: (cs ++ mid)) = some (.word w, mid) := by
    rw [word?, if_pos hc, ← List.cons_append, takeWhile_append_stop hchars hr,
      dropWhile_append_stop hchars hr, hname]
  rw [hcs, List.cons_append]
  refine Reads.token (not_isWhitespace_of hc (by decide)) ?_ (by simp) h
  rw [token?, hword]
  rfl

theorem reads_rightParen (rest : List Char) : Reads (')' :: rest) [.symbol .rightParen] rest :=
  .char rfl rfl (.refl rest)

theorem reads_rightBracket (rest : List Char) :
    Reads (']' :: rest) [.symbol .rightBracket] rest :=
  .char rfl rfl (.refl rest)

theorem reads_binary (op : BinaryOp) (h : Reads (' ' :: mid) ts rest) :
    Reads (op.symbol.toList ++ ' ' :: mid) (.symbol (.binary op) :: ts) rest := by
  cases op <;> exact Reads.token rfl rfl (by simp) h

def Symbol.ofUnary : UnaryOp → Symbol
  | .negate => .binary .subtract
  | .logicalNot => .logicalNot
  | .bitNot => .bitNot

theorem reads_unary (op : UnaryOp) (hs : mid.head? ≠ some '=')
    (hminus : op = .negate → mid.head? ≠ some '-') (h : Reads mid ts rest) :
    Reads (op.symbol.toList ++ mid) (.symbol (.ofUnary op) :: ts) rest := by
  cases mid with
  | nil => cases op <;> exact Reads.char rfl rfl h
  | cons c cs =>
    have heq : ('=' == c) = false := beq_false_of_ne fun heq => hs (heq ▸ rfl)
    cases op with
    | negate =>
      have hne : ('-' == c) = false := beq_false_of_ne fun hne => hminus rfl (hne ▸ rfl)
      refine Reads.char rfl ?_ h
      change symbol? ('-' :: c :: cs) = _
      simp [symbol?, symbols, List.find?, List.isPrefixOf, heq, hne, Symbol.ofUnary]
    | logicalNot =>
      refine Reads.char rfl ?_ h
      change symbol? ('!' :: c :: cs) = _
      simp [symbol?, symbols, List.find?, List.isPrefixOf, heq, Symbol.ofUnary]
    | bitNot => exact Reads.char rfl rfl h

theorem reads_dot (hs : Stops Char.isDigit mid) (h : Reads mid ts rest) :
    Reads ('.' :: mid) (.symbol .dot :: ts) rest := by
  refine Reads.char rfl ?_ h
  have hdecimal : decimal? ('.' :: mid) = none := by
    change (if [] ++ mid.takeWhile Char.isDigit = [] then none else _) = _
    rw [hs.takeWhile]
    rfl
  rw [token?, hdecimal]
  rfl

def Opens (ts : List Token) : Prop :=
  ∃ t us, ts = t :: us ∧ ∀ s, t = .symbol s → s = .leftParen

theorem Opens.word (w : String) (ts : List Token) : Opens (.word w :: ts) := ⟨_, ts, rfl, nofun⟩

theorem Opens.append {ts : List Token} (h : Opens ts) (us : List Token) : Opens (ts ++ us) := by
  obtain ⟨t, vs, rfl, ht⟩ := h
  exact ⟨t, vs ++ us, rfl, ht⟩

theorem Opens.paren (ts : List Token) : Opens (.symbol .leftParen :: ts) := by
  refine ⟨_, ts, rfl, fun s hs => ?_⟩
  cases hs
  rfl

theorem token?_of_lex {c : Char} {cs : List Char} {t : Token} (hc : c.isWhitespace = false)
    (h : lex (c :: cs) = some (t :: ts)) : ∃ rest, token? (c :: cs) = some (t, rest) := by
  rw [lex, if_neg (by simp [hc])] at h
  cases htoken : token? (c :: cs) with
  | none =>
    rw [htoken] at h
    cases h
  | some r =>
    obtain ⟨u, rest⟩ := r
    by_cases hlt : rest.length < (c :: cs).length
    · rw [htoken, proceed_some hlt] at h
      obtain ⟨us, -, heq⟩ := Option.map_eq_some_iff.mp h
      cases heq
      exact ⟨rest, rfl⟩
    · rw [htoken, proceed, dif_neg hlt] at h
      cases h

theorem symbol?_leftParen {cs : List Char} (h : symbol? cs = some (.symbol .leftParen, rest)) :
    cs.head? = some '(' := by
  obtain ⟨⟨name, s⟩, hs, heq⟩ := Option.map_eq_some_iff.mp h
  cases heq
  have hname : ∀ s ∈ symbols, s.2 = .leftParen → s.1 = ['('] := by decide
  cases hname _ (List.mem_of_find?_eq_some hs) rfl
  have hpre := List.find?_some hs
  obtain ⟨tail, rfl⟩ := List.isPrefixOf_iff_prefix.mp hpre
  rfl

theorem head?_ne_of_opens {cs : List Char} (h : lex cs = some ts) (ho : Opens ts)
    (rest : List Char) : (cs ++ rest).head? ≠ some '=' ∧ (cs ++ rest).head? ≠ some '-' := by
  obtain ⟨t, us, rfl, ht⟩ := ho
  have hsign (c : Char) (hblank : c.isWhitespace = false)
      (htoken : ∀ cs, token? (c :: cs) = symbol? (c :: cs)) (hc : c ≠ '(') :
      (cs ++ rest).head? ≠ some c := by
    intro hhead
    cases cs with
    | nil =>
      rw [lex] at h
      cases h
    | cons d cs =>
      cases hhead
      obtain ⟨rest, hr⟩ := token?_of_lex hblank h
      rw [htoken] at hr
      obtain ⟨⟨name, s⟩, hs, heq⟩ := Option.map_eq_some_iff.mp hr
      cases heq
      cases ht s rfl
      cases symbol?_leftParen hr
      exact hc rfl
  exact ⟨hsign '=' rfl (fun _ => rfl) (by decide), hsign '-' rfl (fun _ => rfl) (by decide)⟩

end Lexemes

end ShaderDialects.Reading
