import ShaderDialects.Proofs.Reading.Token

namespace ShaderDialects.Reading

open Dialect

inductive Tree where
  | name (name : String)
  | bool (value : Bool)
  | int (value : ℕ)
  | uint (value : ℕ)
  | float (value : Single)
  | call (callee : Tree) (args : List Tree)
  | member (base : Tree) (name : String)
  | index (base place : Tree)
  | leading (op : Symbol) (operand : Tree)
  | trailing (op : Symbol) (operand : Tree)
  | binary (op : BinaryOp) (left right : Tree)
  | conditional (condition accept reject : Tree)
  | assign (op : Option BinaryOp) (target value : Tree)
  | sequence (first second : Tree)

def Symbol.leads : Symbol → Bool
  | binary .subtract | binary .add | logicalNot | bitNot | increment | decrement => true
  | _ => false

/-- Two words are constants. All others are names, among them the types that construct values. -/
def Tree.ofToken? : Token → Option Tree
  | .word w =>
      some (if w = "true" then .bool true else if w = "false" then .bool false else .name w)
  | .int n => some (.int n)
  | .uint n => some (.uint n)
  | .float x => some (.float x)
  | .symbol _ => none

variable (precedence : BinaryOp → ℕ)

-- The numbers order the calls that do not take a token first.
mutual

def expression (ts : List Token) : Option (Tree × List Token) :=
  proceed ts (assignment ts) fun t rest _ => sequence t rest
termination_by (ts.length, 5)

def sequence (t : Tree) (ts : List Token) : Option (Tree × List Token) :=
  match ts with
  | .symbol .comma :: us =>
      proceed us (assignment us) fun u rest _ => sequence (.sequence t u) rest
  | ts => some (t, ts)
termination_by (ts.length, 0)

/-- A value is assigned to what unary operators make; all else is a conditional. -/
def assignment (ts : List Token) : Option (Tree × List Token) :=
  proceed ts (unary ts) fun t rest _ =>
    match rest with
    | .symbol (.assign op) :: us => (assignment us).map fun (u, rest) => (.assign op t u, rest)
    | rest => proceed ts (operators 0 t rest) fun t rest _ => conditional t rest
termination_by (ts.length, 4)
decreasing_by all_goals grind

def conditional (t : Tree) (ts : List Token) : Option (Tree × List Token) :=
  match ts with
  | .symbol .question :: us =>
      proceed us (expression us) fun u rest _ =>
        match rest with
        | .symbol .colon :: us => (assignment us).map fun (v, rest) => (.conditional t u v, rest)
        | _ => none
  | ts => some (t, ts)
termination_by (ts.length, 0)
decreasing_by all_goals grind

/-- The operators after `t` that bind at least as tightly as `bound`. -/
def operators (bound : ℕ) (t : Tree) (ts : List Token) : Option (Tree × List Token) :=
  match ts with
  | .symbol (.binary op) :: us =>
      if bound ≤ precedence op then
        proceed us (unary us) fun u rest _ =>
          proceed us (operators (precedence op + 1) u rest) fun u rest _ =>
            operators bound (.binary op t u) rest
      else some (t, ts)
  | ts => some (t, ts)
termination_by (ts.length, 0)

def unary (ts : List Token) : Option (Tree × List Token) :=
  match ts with
  | .symbol s :: us =>
      if s.leads then (unary us).map fun (t, rest) => (.leading s t, rest)
      else operand (.symbol s :: us)
  | ts => operand ts
termination_by (ts.length, 3)

def operand (ts : List Token) : Option (Tree × List Token) :=
  proceed ts (primary ts) fun t rest _ => suffixes t rest
termination_by (ts.length, 2)

def primary (ts : List Token) : Option (Tree × List Token) :=
  match ts with
  | .symbol .leftParen :: us =>
      match expression us with
      | some (t, .symbol .rightParen :: rest) => some (t, rest)
      | _ => none
  | t :: rest => (Tree.ofToken? t).map fun t => (t, rest)
  | [] => none
termination_by (ts.length, 1)

def suffixes (t : Tree) (ts : List Token) : Option (Tree × List Token) :=
  match ts with
  | .symbol .dot :: .word w :: rest => suffixes (.member t w) rest
  | .symbol .leftBracket :: us =>
      proceed us (expression us) fun u rest _ =>
        match rest with
        | .symbol .rightBracket :: rest => suffixes (.index t u) rest
        | _ => none
  | .symbol .leftParen :: us =>
      proceed us (arguments us) fun args rest _ => suffixes (.call t args) rest
  | .symbol .increment :: rest => suffixes (.trailing .increment t) rest
  | .symbol .decrement :: rest => suffixes (.trailing .decrement t) rest
  | ts => some (t, ts)
termination_by (ts.length, 0)
decreasing_by all_goals grind

def arguments (ts : List Token) : Option (List Tree × List Token) :=
  match ts with
  | .symbol .rightParen :: rest => some ([], rest)
  | ts =>
      proceed ts (assignment ts) fun t rest _ =>
        (moreArguments rest).map fun (us, rest) => (t :: us, rest)
termination_by (ts.length, 5)

def moreArguments (ts : List Token) : Option (List Tree × List Token) :=
  match ts with
  | .symbol .rightParen :: rest => some ([], rest)
  | .symbol .comma :: us =>
      proceed us (assignment us) fun t rest _ =>
        (moreArguments rest).map fun (us, rest) => (t :: us, rest)
  | _ => none
termination_by (ts.length, 0)

end

def parse (ts : List Token) : Option Tree :=
  match expression precedence ts with
  | some (t, []) => some t
  | _ => none

def Tree.ofText? (text : String) : Option Tree := (lex text.toList).bind (parse precedence)

example : parse (fun op => if op = .multiply then 2 else 1)
    [.word "a", .symbol (.binary .subtract), .word "b", .symbol (.binary .multiply), .word "c",
      .symbol (.binary .add), .int 1]
    = some (.binary .add (.binary .subtract (.name "a") (.binary .multiply (.name "b") (.name "c")))
        (.int 1)) := by
  cbv

inductive Closed : List Token → Prop where
  | nil : Closed []
  | paren (ts : List Token) : Closed (.symbol .rightParen :: ts)
  | bracket (ts : List Token) : Closed (.symbol .rightBracket :: ts)

inductive ArgumentClosed : List Token → Prop where
  | closed {ts : List Token} (h : Closed ts) : ArgumentClosed ts
  | comma (ts : List Token) : ArgumentClosed (.symbol .comma :: ts)

inductive OperandClosed : List Token → Prop where
  | closed {ts : List Token} (h : ArgumentClosed ts) : OperandClosed ts
  | binary (op : BinaryOp) (ts : List Token) : OperandClosed (.symbol (.binary op) :: ts)

/-- The function `f` takes at least one token and leaves `rest`. -/
structure Takes {α : Type} (f : List Token → Option (α × List Token)) (ts : List Token) (a : α)
    (rest : List Token) : Prop where
  eq : f ts = some (a, rest)
  shorter : rest.length < ts.length

theorem Takes.proceed {α γ : Type} {f : List Token → Option (α × List Token)} {ts : List Token}
    {a : α} {rest : List Token} (h : Takes f ts a rest)
    (next : α → (rest : List Token) → rest.length < ts.length → Option γ) :
    proceed ts (f ts) next = next a rest h.shorter := by
  rw [h.eq, proceed_some]

section Steps

variable {precedence} {ts us rest : List Token} {t u : Tree}

theorem suffixes_of_closed (h : OperandClosed ts) (t : Tree) :
    suffixes precedence t ts = some (t, ts) := by
  rw [suffixes.eq_def]
  rcases h with ⟨⟨_ | _ | _⟩ | _⟩ | _ <;> rfl

theorem operators_of_closed (h : ArgumentClosed ts) (bound : ℕ) (t : Tree) :
    operators precedence bound t ts = some (t, ts) := by
  rw [operators.eq_def]
  rcases h with ⟨_ | _ | _⟩ | _ <;> rfl

theorem conditional_of_closed (h : ArgumentClosed ts) (t : Tree) :
    conditional precedence t ts = some (t, ts) := by
  rw [conditional.eq_def]
  rcases h with ⟨_ | _ | _⟩ | _ <;> rfl

theorem sequence_of_closed (h : Closed ts) (t : Tree) :
    sequence precedence t ts = some (t, ts) := by
  rw [sequence.eq_def]
  rcases h with _ | _ | _ <;> rfl

theorem takes_of_suffixes (hus : Opens us) (h : OperandClosed rest)
    (hu : unary precedence (us ++ rest) = suffixes precedence t rest) :
    Takes (unary precedence) (us ++ rest) t rest := by
  obtain ⟨token, us, rfl, -⟩ := hus
  refine ⟨?_, ?_⟩
  · rw [hu, suffixes_of_closed h]
  · rw [List.length_append, List.length_cons]
    omega

theorem assignment_of_operators (ht : Takes (unary precedence) ts t us)
    (hus : OperandClosed us) (hops : operators precedence 0 t us = some (u, rest))
    (hlt : rest.length < ts.length) (h : ArgumentClosed rest) :
    Takes (assignment precedence) ts u rest := by
  refine ⟨?_, hlt⟩
  have hcond : proceed ts (operators precedence 0 t us)
      (fun t rest _ => conditional precedence t rest) = some (u, rest) := by
    rw [hops, proceed_some hlt, conditional_of_closed h]
  rw [assignment, ht.proceed]
  rcases hus with ⟨⟨_ | _ | _⟩ | _⟩ | _ <;> exact hcond

theorem assignment_of_unary (ht : Takes (unary precedence) ts t rest)
    (h : ArgumentClosed rest) : Takes (assignment precedence) ts t rest :=
  assignment_of_operators ht (.closed h) (operators_of_closed h 0 t) ht.shorter h

theorem assignment_of_operands {op : BinaryOp}
    (ht : Takes (unary precedence) ts t (.symbol (.binary op) :: us))
    (hu : Takes (unary precedence) us u rest) (h : ArgumentClosed rest) :
    Takes (assignment precedence) ts (.binary op t u) rest := by
  have hlt := ht.shorter
  have hlt' := hu.shorter
  rw [List.length_cons] at hlt
  refine assignment_of_operators ht (.binary op us) ?_ (by omega) h
  rw [operators, if_pos (Nat.zero_le _), hu.proceed, operators_of_closed h, proceed_some hlt',
    operators_of_closed h]

theorem expression_of_assignment (ha : Takes (assignment precedence) ts t rest)
    (h : Closed rest) : Takes (expression precedence) ts t rest := by
  refine ⟨?_, ha.shorter⟩
  rw [expression, ha.proceed, sequence_of_closed h]

theorem unary_of_leading {s : Symbol} (hs : s.leads = true)
    (ht : Takes (unary precedence) ts t rest) :
    Takes (unary precedence) (.symbol s :: ts) (.leading s t) rest := by
  refine ⟨?_, Nat.lt_succ_of_lt ht.shorter⟩
  rw [unary, if_pos hs, ht.eq]
  rfl

theorem unary_of_token {token : Token} (h : Tree.ofToken? token = some t) (ts : List Token) :
    unary precedence (token :: ts) = suffixes precedence t ts := by
  have hprimary : Takes (primary precedence) (token :: ts) t ts := by
    refine ⟨?_, Nat.lt_succ_self _⟩
    cases token with
    | symbol => cases h
    | _ =>
      rw [primary, h]
      · rfl
      · nofun
  have hoperand : operand precedence (token :: ts) = suffixes precedence t ts := by
    rw [operand, hprimary.proceed]
  rw [unary.eq_def]
  cases token with
  | symbol => cases h
  | _ => exact hoperand

theorem takes_token {token : Token} (ht : Tree.ofToken? token = some t) (h : OperandClosed rest) :
    Takes (unary precedence) (token :: rest) t rest := by
  refine ⟨?_, Nat.lt_succ_self _⟩
  rw [unary_of_token ht, suffixes_of_closed h]

theorem unary_group (h : Takes (assignment precedence) ts t (.symbol .rightParen :: rest)) :
    unary precedence (.symbol .leftParen :: ts) = suffixes precedence t rest := by
  have hexpr := expression_of_assignment h (Closed.paren rest)
  have hlt := h.shorter
  rw [List.length_cons] at hlt
  have hprimary : Takes (primary precedence) (.symbol .leftParen :: ts) t rest := by
    refine ⟨?_, ?_⟩
    · rw [primary, hexpr.eq]
    · rw [List.length_cons]
      omega
  rw [unary, if_neg (by decide), operand, hprimary.proceed]

theorem arguments_of_assignment {args : List Tree} (h : Takes (assignment precedence) ts t us)
    (hmore : Takes (moreArguments precedence) us args rest) :
    Takes (arguments precedence) ts (t :: args) rest := by
  refine ⟨?_, hmore.shorter.trans h.shorter⟩
  have hnext : proceed ts (assignment precedence ts) (fun t rest _ =>
      (moreArguments precedence rest).map fun (us, rest) => (t :: us, rest))
      = some (t :: args, rest) := by
    rw [h.proceed, hmore.eq]
    rfl
  rw [arguments.eq_def]
  split
  · -- A closing parenthesis begins no argument.
    have heq := h.eq
    rw [assignment, unary, if_neg (by decide), operand, primary] at heq
    · cases heq
    · nofun
  · exact hnext

theorem moreArguments_of_assignment {args : List Tree} (h : Takes (assignment precedence) ts t us)
    (hmore : Takes (moreArguments precedence) us args rest) :
    Takes (moreArguments precedence) (.symbol .comma :: ts) (t :: args) rest := by
  refine ⟨?_, Nat.lt_succ_of_lt (hmore.shorter.trans h.shorter)⟩
  rw [moreArguments, h.proceed, hmore.eq]
  rfl

theorem suffixes_member (t : Tree) (w : String) (ts : List Token) :
    suffixes precedence t (.symbol .dot :: .word w :: ts)
      = suffixes precedence (.member t w) ts := by
  rw [suffixes]

theorem suffixes_index (t : Tree)
    (h : Takes (assignment precedence) ts u (.symbol .rightBracket :: rest)) :
    suffixes precedence t (.symbol .leftBracket :: ts) = suffixes precedence (.index t u) rest := by
  rw [suffixes, (expression_of_assignment h (Closed.bracket rest)).proceed]

theorem suffixes_call {args : List Tree} (t : Tree)
    (h : Takes (arguments precedence) ts args rest) :
    suffixes precedence t (.symbol .leftParen :: ts) = suffixes precedence (.call t args) rest := by
  rw [suffixes, h.proceed]

end Steps

end ShaderDialects.Reading
