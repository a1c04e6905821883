import ShaderDialects.Dialect.Text
import ShaderDialects.Proofs.Legality.Lowered
import ShaderDialects.Proofs.Reading.Literal

namespace ShaderDialects.Dialect

open Reading

namespace Expr

def isLiteral : Expr → Bool
  | literal _ => true
  | _ => false

def isSpelled : Expr → Bool
  | literal _ | binary _ _ _ | unary _ _ => true
  | var n | builtin n => isName n
  | call c _ => isName c.name
  | field e n => !e.isLiteral && isName n
  | swizzle e s => !e.isLiteral && s.components ≠ []
  | index e _ => !e.isLiteral

def Spelled (e : Expr) : Prop := ∀ x ∈ e.nodes, x.isSpelled = true

instance (e : Expr) : Decidable e.Spelled := inferInstanceAs (Decidable (∀ x ∈ e.nodes, _))

/-- The literal whose sign is read together with that of a negation before it. -/
def glued? (op : UnaryOp) : Expr → Option Literal
  | literal v => if op = .negate ∧ v.isSigned then some v else none
  | _ => none

/-- Whether the text of the node itself reads as something else. -/
def isMisread : Expr → Bool
  | literal v => !v.isFinite
  | unary op e => (glued? op e).isSome
  | _ => false

mutual

/-- The expression as the grammar has it. Variables are not told from builtins there, own functions
not from native ones, and fields not from components. -/
def tree : Expr → Tree
  | literal v => v.tree
  | var n => .name n
  | builtin n => .name n
  | call c args => .call (.name c.name) (trees args)
  | binary op l r => .binary op (tree l) (tree r)
  | unary op e => .leading (.ofUnary op) (tree e)
  | field e n => .member (tree e) n
  | swizzle e s => .member (tree e) s.text
  | index e i => .index (tree e) (.int i)

def trees : List Expr → List Tree
  | [] => []
  | e :: es => tree e :: trees es

end

mutual

def reading : Expr → Tree
  | literal v => v.reading
  | var n => .name n
  | builtin n => .name n
  | call c args => .call (.name c.name) (readings args)
  | binary op l r => .binary op (reading l) (reading r)
  | unary op e =>
      match glued? op e with
      | some v => .leading .decrement v.magnitudeReading
      | none => .leading (.ofUnary op) (reading e)
  | field e n => .member (reading e) n
  | swizzle e s => .member (reading e) s.text
  | index e i => .index (reading e) (.int i)

def readings : List Expr → List Tree
  | [] => []
  | e :: es => reading e :: readings es

end

mutual

def tokens : Expr → List Token
  | literal v => v.tokens
  | var n => [.word n]
  | builtin n => [.word n]
  | call c args =>
      .word c.name :: .symbol .leftParen :: (argTokens args ++ [.symbol .rightParen])
  | binary op l r =>
      .symbol .leftParen ::
        (tokens l ++ .symbol (.binary op) :: (tokens r ++ [.symbol .rightParen]))
  | unary op e =>
      .symbol .leftParen ::
        ((match glued? op e with
          | some v => .symbol .decrement :: v.magnitudeTokens
          | none => .symbol (.ofUnary op) :: tokens e) ++ [.symbol .rightParen])
  | field e n => tokens e ++ [.symbol .dot, .word n]
  | swizzle e s => tokens e ++ [.symbol .dot, .word s.text]
  | index e i => tokens e ++ [.symbol .leftBracket, .int i, .symbol .rightBracket]

def argTokens : List Expr → List Token
  | [] => []
  | e :: es => tokens e ++ moreArgTokens es

def moreArgTokens : List Expr → List Token
  | [] => []
  | e :: es => .symbol .comma :: (tokens e ++ moreArgTokens es)

end

theorem Spelled.own {e : Expr} (h : e.Spelled) : e.isSpelled = true := by
  apply h
  rw [nodes_eq]
  exact List.mem_cons_self

theorem Spelled.child {e c : Expr} (h : e.Spelled) (hc : c ∈ e.children) : c.Spelled := by
  intro x hx
  apply h
  rw [nodes_eq]
  exact List.mem_cons_of_mem e (List.mem_flatMap.mpr ⟨c, hc, hx⟩)

section Selection

variable {e : Expr}

theorem Spelled.field {n : String} (h : (field e n).Spelled) :
    e.Spelled ∧ e.isLiteral = false ∧ isName n = true := by
  refine ⟨h.child (by simp [children]), ?_⟩
  simpa [isSpelled] using h.own

theorem Spelled.swizzle {s : Swizzle} (h : (swizzle e s).Spelled) :
    e.Spelled ∧ e.isLiteral = false ∧ s.components ≠ [] := by
  refine ⟨h.child (by simp [children]), ?_⟩
  simpa [isSpelled] using h.own

theorem Spelled.index {i : ℕ} (h : (index e i).Spelled) : e.Spelled ∧ e.isLiteral = false := by
  refine ⟨h.child (by simp [children]), ?_⟩
  simpa [isSpelled] using h.own

end Selection

theorem glued?_eq_some {op : UnaryOp} {e : Expr} {v : Literal} (h : glued? op e = some v) :
    op = .negate ∧ e = literal v ∧ v.isSigned = true := by
  cases e with
  | literal w =>
    rw [glued?, Option.ite_none_right_eq_some] at h
    obtain ⟨⟨hop, hw⟩, heq⟩ := h
    cases heq
    exact ⟨hop, rfl, hw⟩
  | _ => cases h

theorem glued?_eq_none {e : Expr} (h : e.isLiteral = false) (op : UnaryOp) :
    glued? op e = none := by
  cases e with
  | literal => cases h
  | _ => rfl

mutual

theorem reading_eq_tree_iff :
    ∀ e : Expr, e.reading = e.tree ↔ ∀ x ∈ e.nodes, x.isMisread = false
  | literal v => by simp [reading, tree, nodes, isMisread, v.reading_eq_tree_iff]
  | var n => by simp [reading, tree, nodes, isMisread]
  | builtin n => by simp [reading, tree, nodes, isMisread]
  | call c args => by
      simp [reading, tree, nodes, isMisread, readings_eq_trees_iff args]
  | binary op l r => by
      simp [reading, tree, nodes, isMisread, reading_eq_tree_iff l, reading_eq_tree_iff r, or_imp,
        forall_and]
  | unary op e => by
      cases hg : glued? op e with
      | some v =>
        obtain ⟨rfl, -, -⟩ := glued?_eq_some hg
        simp [reading, tree, nodes, isMisread, hg, Symbol.ofUnary]
      | none => simp [reading, tree, nodes, isMisread, hg, reading_eq_tree_iff e]
  | field e n => by simp [reading, tree, nodes, isMisread, reading_eq_tree_iff e]
  | swizzle e s => by simp [reading, tree, nodes, isMisread, reading_eq_tree_iff e]
  | index e i => by simp [reading, tree, nodes, isMisread, reading_eq_tree_iff e]

theorem readings_eq_trees_iff :
    ∀ es : List Expr, readings es = trees es ↔ ∀ x ∈ nodesOf es, x.isMisread = false
  | [] => by simp [readings, trees, nodesOf]
  | e :: es => by
      simp [readings, trees, nodesOf, reading_eq_tree_iff e, readings_eq_trees_iff es, or_imp,
        forall_and]

end

theorem opens_tokens : ∀ e : Expr, e.Spelled → glued? .negate e = none → Opens e.tokens
  | literal v, _, hg => by
      have hsign : v.isSigned = false := by simpa [glued?] using hg
      rw [tokens, Literal.tokens, hsign]
      exact v.opens_magnitudeTokens
  | var n, _, _ => Opens.word n []
  | builtin n, _, _ => Opens.word n []
  | call c args, _, _ => Opens.word c.name _
  | binary op l r, _, _ => Opens.paren _
  | unary op e, _, _ => Opens.paren _
  | field e n, h, _ => (opens_tokens e h.field.1 (glued?_eq_none h.field.2.1 _)).append _
  | swizzle e s, h, _ => (opens_tokens e h.swizzle.1 (glued?_eq_none h.swizzle.2.1 _)).append _
  | index e i, h, _ => (opens_tokens e h.index.1 (glued?_eq_none h.index.2 _)).append _

theorem isWord_of_isName {n : String} (h : isName n = true) : isWord n = true := by
  simp only [isName, Bool.and_eq_true] at h
  exact h.1.1

theorem isWord_text {s : Swizzle} (h : s.components ≠ []) : isWord s.text = true := by
  have hletter : ∀ c : Component, isWordStart c.letter = true ∧ isWordChar c.letter = true := by
    intro c
    cases c <;> decide
  obtain ⟨c, cs, hcs⟩ := List.exists_cons_of_ne_nil h
  simp [isWord, Swizzle.text, hcs, hletter]

/-- What may stand after an expression, so that its last token ends there. -/
def Ends (e : Expr) (rest : List Char) : Prop :=
  if e.isLiteral then Delimits rest else Stops isWordChar rest

theorem ends_of_delimits {rest : List Char} (h : Delimits rest) (e : Expr) : Ends e rest := by
  unfold Ends
  split
  · exact h
  · exact h.stops_word

theorem ends_of_not_isLiteral {rest : List Char} {e : Expr} (he : e.isLiteral = false)
    (h : Stops isWordChar rest) : Ends e rest := by
  rwa [Ends, if_neg (by simp [he])]

theorem delimits_moreArgs (es : List Expr) (rest : List Char) :
    Delimits ((moreArgsText es).toList ++ ')' :: rest) := by
  cases es with
  | nil => exact Stops.cons (by decide) rest
  | cons e es =>
    rw [moreArgsText, String.toList_append, String.toList_append]
    exact Stops.cons (by decide) _

/-- A sign before an expression stays a token of its own, unless both signs are glued. -/
theorem head?_text_ne {op : UnaryOp} {e : Expr} (hs : e.Spelled)
    (hlex : lex e.text.toList = some e.tokens) (hg : glued? op e = none) (rest : List Char) :
    (e.text.toList ++ rest).head? ≠ some '=' ∧
      (op = .negate → (e.text.toList ++ rest).head? ≠ some '-') := by
  cases hn : glued? .negate e with
  | none =>
    obtain ⟨heq, hminus⟩ := head?_ne_of_opens hlex (opens_tokens e hs hn) rest
    exact ⟨heq, fun _ => hminus⟩
  | some v =>
    obtain ⟨-, rfl, hsign⟩ := glued?_eq_some hn
    constructor
    · simp [text, v.text_eq, hsign]
    · rintro rfl
      rw [hn] at hg
      cases hg

theorem reads_member {e : Expr} {w : String} {rest : List Char} (hw : isWord w = true)
    (hr : Stops isWordChar rest)
    (he : Reads (e.text.toList ++ '.' :: (w.toList ++ rest)) e.tokens ('.' :: (w.toList ++ rest))) :
    Reads ((e.text ++ "." ++ w).toList ++ rest) (e.tokens ++ [.symbol .dot, .word w]) rest := by
  have hselect : Reads ('.' :: (w.toList ++ rest)) [.symbol .dot, .word w] rest :=
    reads_dot (stops_digit_of_isWord hw rest) (reads_word hw hr (.refl rest))
  simpa using he.trans hselect

theorem lex_text {e : Expr} (h : Reads (e.text.toList ++ []) e.tokens []) :
    lex e.text.toList = some e.tokens := by
  rw [List.append_nil] at h
  exact h.lex_eq

-- By recursion on the expression before any rest at which its last token ends: a closing
-- parenthesis, a comma or a blank always does, but a point only after what is no literal.
mutual

theorem reads_text : ∀ e : Expr, e.Spelled → ∀ rest, Ends e rest →
    Reads (e.text.toList ++ rest) e.tokens rest
  | literal v, _, rest, hr => v.reads_text hr
  | var n, h, rest, hr => reads_word (isWord_of_isName h.own) hr (.refl rest)
  | builtin n, h, rest, hr => reads_word (isWord_of_isName h.own) hr (.refl rest)
  | call c args, h, rest, hr => by
      have hargs := (reads_args args (fun e he => h.child he) rest).trans (reads_rightParen rest)
      have hread : Reads (c.name.toList ++ '(' :: ((argsText args).toList ++ ')' :: rest))
          (tokens (call c args)) rest :=
        reads_word (isWord_of_isName h.own) (Stops.cons (by decide) _) (.char rfl rfl hargs)
      simpa [text] using hread
  | binary op l r, h, rest, hr => by
      have hright := (reads_text r (h.child (by simp [children])) (')' :: rest)
        (ends_of_delimits (Stops.cons (by decide) _) r)).trans (reads_rightParen rest)
      have hop := reads_binary op hright.blank
      have hleft := (reads_text l (h.child (by simp [children])) (' ' :: (op.symbol.toList ++ ' ' ::
        (r.text.toList ++ ')' :: rest))) (ends_of_delimits (Stops.cons (by decide) _) l)).trans
          hop.blank
      have hread : Reads ('(' :: (l.text.toList ++ ' ' :: (op.symbol.toList ++ ' ' ::
          (r.text.toList ++ ')' :: rest)))) (tokens (binary op l r)) rest := .char rfl rfl hleft
      simpa [text] using hread
  | unary op e, h, rest, hr => by
      have hdelim : Delimits (')' :: rest) := Stops.cons (by decide) rest
      have hspelled : e.Spelled := h.child (by simp [children])
      cases hg : glued? op e with
      | some v =>
        -- Here both signs are one token.
        obtain ⟨rfl, rfl, hsign⟩ := glued?_eq_some hg
        have hmag := (v.reads_magnitudeText hdelim).trans (reads_rightParen rest)
        have hread : Reads ('(' :: '-' :: '-' :: (v.magnitudeText.toList ++ ')' :: rest))
            (tokens (unary .negate (literal v))) rest := by
          rw [tokens, hg]
          exact .char rfl rfl (.token rfl rfl (by simp) hmag)
        simpa [text, v.text_eq, hsign, UnaryOp.symbol] using hread
      | none =>
        have hin := (reads_text e hspelled (')' :: rest) (ends_of_delimits hdelim e)).trans
          (reads_rightParen rest)
        have hlex := lex_text (reads_text e hspelled [] (ends_of_delimits .nil e))
        have hread : Reads ('(' :: (op.symbol.toList ++ (e.text.toList ++ ')' :: rest)))
            (tokens (unary op e)) rest := by
          rw [tokens, hg]
          obtain ⟨heq, hminus⟩ := head?_text_ne hspelled hlex hg (')' :: rest)
          exact .char rfl rfl (reads_unary op heq hminus hin)
        simpa [text] using hread
  | field e n, h, rest, hr => by
      obtain ⟨he, hlit, hn⟩ := h.field
      rw [text, tokens]
      refine reads_member (isWord_of_isName hn) hr ?_
      exact reads_text e he _ (ends_of_not_isLiteral hlit (Stops.cons (by decide) _))
  | swizzle e s, h, rest, hr => by
      obtain ⟨he, hlit, hs⟩ := h.swizzle
      rw [text, tokens]
      refine reads_member (isWord_text hs) hr ?_
      exact reads_text e he _ (ends_of_not_isLiteral hlit (Stops.cons (by decide) _))
  | index e i, h, rest, hr => by
      obtain ⟨he, hlit⟩ := h.index
      have hplace : Reads ('[' :: (Nat.toDigits 10 i ++ ']' :: rest))
          [.symbol .leftBracket, .int i, .symbol .rightBracket] rest :=
        .char rfl rfl ((reads_nat i (Stops.cons (by decide) _)).trans (reads_rightBracket rest))
      have hread := (reads_text e he ('[' :: (Nat.toDigits 10 i ++ ']' :: rest))
        (ends_of_not_isLiteral hlit (Stops.cons (by decide) _))).trans hplace
      simpa [text, tokens] using hread

theorem reads_args : ∀ es : List Expr, (∀ e ∈ es, e.Spelled) → ∀ rest,
    Reads ((argsText es).toList ++ ')' :: rest) (argTokens es) (')' :: rest)
  | [], _, rest => .refl _
  | e :: es, h, rest => by
      have hmore := reads_moreArgs es (fun x hx => h x (List.mem_cons_of_mem e hx)) rest
      have hread := (reads_text e (h e List.mem_cons_self) _
        (ends_of_delimits (delimits_moreArgs es rest) e)).trans hmore
      simpa [argsText, argTokens] using hread

theorem reads_moreArgs : ∀ es : List Expr, (∀ e ∈ es, e.Spelled) → ∀ rest,
    Reads ((moreArgsText es).toList ++ ')' :: rest) (moreArgTokens es) (')' :: rest)
  | [], _, rest => .refl _
  | e :: es, h, rest => by
      have hmore := reads_moreArgs es (fun x hx => h x (List.mem_cons_of_mem e hx)) rest
      have hread := (reads_text e (h e List.mem_cons_self) _
        (ends_of_delimits (delimits_moreArgs es rest) e)).trans hmore
      have hcomma : Reads (',' :: ' ' :: (e.text.toList ++ ((moreArgsText es).toList
          ++ ')' :: rest))) (moreArgTokens (e :: es)) (')' :: rest) := .char rfl rfl hread.blank
      simpa [moreArgsText] using hcomma

end

section Parse

variable {precedence : BinaryOp → ℕ}

theorem takes_operand {e : Expr} {rest : List Token} (hs : e.Spelled) (h : OperandClosed rest)
    (hu : glued? .negate e = none →
      Reading.unary precedence (e.tokens ++ rest) = suffixes precedence e.reading rest) :
    Takes (Reading.unary precedence) (e.tokens ++ rest) e.reading rest := by
  cases hg : glued? .negate e with
  | none => exact takes_of_suffixes (opens_tokens e hs hg) h (hu hg)
  | some v =>
    obtain ⟨-, rfl, -⟩ := glued?_eq_some hg
    rw [tokens, reading]
    exact v.takes_tokens h

theorem ofToken?_word {n : String} (h : isName n = true) :
    Tree.ofToken? (.word n) = some (.name n) := by
  simp only [isName, Bool.and_eq_true, decide_eq_true_eq] at h
  rw [Tree.ofToken?, if_neg h.1.2, if_neg h.2]

theorem closed_moreArgTokens (es : List Expr) (rest : List Token) :
    ArgumentClosed (moreArgTokens es ++ .symbol .rightParen :: rest) := by
  cases es with
  | nil => exact .closed (.paren rest)
  | cons e es => exact .comma _

-- Suffixes after the tokens of an expression belong to all of it. A literal with a sign is left out:
-- there they would belong to its magnitude.
mutual

theorem unary_tokens : ∀ e : Expr, e.Spelled → glued? .negate e = none → ∀ rest,
    Reading.unary precedence (e.tokens ++ rest) = suffixes precedence e.reading rest
  | literal v, _, hg, rest => by
      have hsign : v.isSigned = false := by simpa [glued?] using hg
      rw [tokens, reading, Literal.tokens, Literal.reading, hsign]
      exact v.unary_magnitudeTokens rest
  | var n, h, _, rest => unary_of_token (ofToken?_word h.own) rest
  | builtin n, h, _, rest => unary_of_token (ofToken?_word h.own) rest
  | call c args, h, _, rest => by
      have hargs := arguments_tokens args (fun e he => h.child he) rest
      rw [tokens, reading, List.cons_append, List.cons_append, List.append_assoc,
        unary_of_token (ofToken?_word h.own)]
      exact suffixes_call _ hargs
  | binary op l r, h, _, rest => by
      have hl : l.Spelled := h.child (by simp [children])
      have hr : r.Spelled := h.child (by simp [children])
      have hclosed : ArgumentClosed (.symbol .rightParen :: rest) := .closed (.paren rest)
      have hleft := takes_operand hl (.binary op (r.tokens ++ .symbol .rightParen :: rest))
        fun hg => unary_tokens l hl hg _
      have hright := takes_operand hr (.closed hclosed) fun hg => unary_tokens r hr hg _
      have hgroup := unary_group (assignment_of_operands hleft hright hclosed)
      simpa [tokens, reading] using hgroup
  | unary op e, h, _, rest => by
      have he : e.Spelled := h.child (by simp [children])
      have hclosed : ArgumentClosed (.symbol .rightParen :: rest) := .closed (.paren rest)
      cases hg : glued? op e with
      | some v =>
        have hmag : Takes (Reading.unary precedence) _ _ (.symbol .rightParen :: rest) :=
          v.takes_magnitudeTokens (.closed hclosed)
        have hgroup := unary_group (assignment_of_unary (unary_of_leading
          (s := .decrement) rfl hmag) hclosed)
        simpa [tokens, reading, hg] using hgroup
      | none =>
        have hin := takes_operand he (.closed hclosed) fun hn => unary_tokens e he hn _
        have hleads : (Symbol.ofUnary op).leads = true := by cases op <;> rfl
        have hgroup := unary_group (assignment_of_unary (unary_of_leading hleads hin) hclosed)
        simpa [tokens, reading, hg] using hgroup
  | field e n, h, _, rest => by
      obtain ⟨he, hlit, -⟩ := h.field
      rw [tokens, reading, List.append_assoc, unary_tokens e he (glued?_eq_none hlit _)]
      exact suffixes_member _ _ _
  | swizzle e s, h, _, rest => by
      obtain ⟨he, hlit, -⟩ := h.swizzle
      rw [tokens, reading, List.append_assoc, unary_tokens e he (glued?_eq_none hlit _)]
      exact suffixes_member _ _ _
  | index e i, h, _, rest => by
      obtain ⟨he, hlit⟩ := h.index
      have hclosed : ArgumentClosed (.symbol .rightBracket :: rest) := .closed (.bracket rest)
      have hplace : Takes (assignment precedence) (.int i :: .symbol .rightBracket :: rest) (.int i)
          (.symbol .rightBracket :: rest) :=
        assignment_of_unary (takes_token rfl (.closed hclosed)) hclosed
      rw [tokens, reading, List.append_assoc, unary_tokens e he (glued?_eq_none hlit _)]
      exact suffixes_index _ hplace

theorem arguments_tokens : ∀ es : List Expr, (∀ e ∈ es, e.Spelled) → ∀ rest,
    Takes (arguments precedence) (argTokens es ++ .symbol .rightParen :: rest) (readings es) rest
  | [], _, rest => ⟨by rw [argTokens, List.nil_append, arguments, readings], Nat.lt_succ_self _⟩
  | e :: es, h, rest => by
      have he := h e List.mem_cons_self
      have hmore := moreArguments_tokens es (fun x hx => h x (List.mem_cons_of_mem e hx)) rest
      have hin := takes_operand he (.closed (closed_moreArgTokens es rest))
        fun hg => unary_tokens e he hg _
      rw [argTokens, List.append_assoc, readings]
      have hassign := assignment_of_unary hin (closed_moreArgTokens es rest)
      exact arguments_of_assignment hassign hmore

theorem moreArguments_tokens : ∀ es : List Expr, (∀ e ∈ es, e.Spelled) → ∀ rest,
    Takes (moreArguments precedence) (moreArgTokens es ++ .symbol .rightParen :: rest)
      (readings es) rest
  | [], _, rest =>
      ⟨by rw [moreArgTokens, List.nil_append, moreArguments, readings], Nat.lt_succ_self _⟩
  | e :: es, h, rest => by
      have he := h e List.mem_cons_self
      have hmore := moreArguments_tokens es (fun x hx => h x (List.mem_cons_of_mem e hx)) rest
      have hin := takes_operand he (.closed (closed_moreArgTokens es rest))
        fun hg => unary_tokens e he hg _
      rw [moreArgTokens, List.cons_append, List.append_assoc, readings]
      have hassign := assignment_of_unary hin (closed_moreArgTokens es rest)
      exact moreArguments_of_assignment hassign hmore

end

theorem ofText?_text {e : Expr} (h : e.Spelled) :
    Tree.ofText? precedence e.text = some e.reading := by
  have hlex := lex_text (reads_text e h [] (ends_of_delimits .nil e))
  have hoperand : Takes (Reading.unary precedence) e.tokens e.reading [] := by
    rw [← List.append_nil e.tokens]
    exact takes_operand h (.closed (.closed .nil)) fun hg => unary_tokens e h hg []
  have hexpr := expression_of_assignment (assignment_of_unary hoperand (.closed .nil)) .nil
  rw [Tree.ofText?, hlex, Option.bind_some, parse, hexpr.eq]

end Parse

/-- A text reads as the expression it was made from, whatever the precedences of operators are, if
and only if no float in it is infinite or not a number and no negation stands directly before a
negative literal. -/
theorem ofText?_text_eq_tree_iff (precedence : BinaryOp → ℕ) (e : Expr) (h : e.Spelled) :
    Tree.ofText? precedence e.text = some e.tree ↔ ∀ x ∈ e.nodes, x.isMisread = false := by
  rw [ofText?_text h, Option.some.injEq, reading_eq_tree_iff]

def swapped : Expr :=
  binary .multiply (swizzle (native "vec2" [literal (.int (-5)), var "x"]) ⟨[.y, .x], by decide⟩)
    (unary .negate (literal (.float ⟨0x3F000000⟩)))

theorem ofText?_text_eq_tree_iff_swapped :
    swapped.text = "(vec2(-5, x).yx * (-0.5))" ∧ swapped.Spelled ∧
      Tree.ofText? (fun _ => 0) swapped.text = some swapped.tree := by
  have hspelled : swapped.Spelled := by decide +kernel
  refine ⟨by decide +kernel, hspelled, ?_⟩
  exact (ofText?_text_eq_tree_iff _ swapped hspelled).mpr (by decide +kernel)

def negatedHalf : Expr := unary .negate (literal (.float ⟨0xBF000000⟩))

/-- The negation of a negative float reads as a decrement. -/
theorem negatedHalf_reads_as_decrement :
    negatedHalf.text = "(--0.5)" ∧ negatedHalf.Spelled ∧
      Tree.ofText? (fun _ => 0) negatedHalf.text
        = some (.leading .decrement (.float ⟨0x3F000000⟩)) ∧
      Tree.ofText? (fun _ => 0) negatedHalf.text ≠ some negatedHalf.tree := by
  have hspelled : negatedHalf.Spelled := by decide +kernel
  have hreading : negatedHalf.reading = .leading .decrement (.float ⟨0x3F000000⟩) := rfl
  refine ⟨by decide +kernel, hspelled, ?_, ?_⟩
  · rw [ofText?_text hspelled, hreading]
  · rw [ofText?_text hspelled, hreading]
    nofun

end Expr

end ShaderDialects.Dialect
