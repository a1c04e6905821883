import ShaderDialects.Identifier.Reserved

namespace ShaderDialects.Identifier

/-- Puts a character in front of what is left of a label. All but ASCII letters and digits count as
underscores, which are not doubled and not put at the end. -/
def push (c : Char) (rest : List Char) : List Char :=
  if c.isAlphanum then c :: rest
  else match rest with
    | [] => []
    | '_' :: rest => '_' :: rest
    | d :: rest => '_' :: d :: rest

/-- The runs of ASCII letters and digits of a label, joined by underscores. -/
def squeeze (label : List Char) : List Char :=
  match label.foldr push [] with
  | '_' :: rest => rest
  | rest => rest

/-- An identifier may not start with a digit, and `gl_` is kept for the language. -/
def needsLetter : List Char → Bool
  | 'g' :: 'l' :: '_' :: _ => true
  | c :: _ => c.isDigit
  | [] => false

def sanitize (label : String) : String :=
  match squeeze label.toList with
  | [] => "unnamed"
  | cs => String.ofList (if needsLetter cs then 'v' :: cs else cs)

def numbered (base : String) (k : Nat) : String := base ++ "_" ++ toString k

/-- The first of `base_k`, `base_(k+1)`, … that is not used, among the next `tries`. -/
def firstFree (used : List String) (base : String) : Nat → Nat → String
  | 0, k => numbered base k
  | tries + 1, k =>
      if numbered base k ∈ used then firstFree used base tries (k + 1) else numbered base k

/-- The base itself if it is not used, and else with the least suffix that makes it so. There are
as many tries as used names, of which the base is one. -/
def unused (used : List String) (base : String) : String :=
  if base ∈ used then firstFree used base used.length 1 else base

structure Supply where
  used : List String
  temporaries : Nat := 0

namespace Supply

/-- A supply for one shader, which avoids what the language and its builtins use. -/
def forShader (nativeNames : List String) : Supply :=
  ⟨reserved ++ builtinFunctions ++ nativeNames, 0⟩

/-- A supply for the fields of one struct, which only have to avoid the words of the language. -/
def forFields : Supply := ⟨reserved, 0⟩

def fresh (s : Supply) (label : String) : String × Supply :=
  let name := unused s.used (sanitize label)
  (name, { s with used := name :: s.used })

def freshAll {α : Type} (s : Supply) (label : α → String) : List α → List (String × α) × Supply
  | [] => ([], s)
  | a :: as =>
      let (name, s) := s.fresh (label a)
      let (named, s) := s.freshAll label as
      ((name, a) :: named, s)

def temporary (s : Supply) : String × Supply :=
  ("_t" ++ toString s.temporaries, { s with temporaries := s.temporaries + 1 })

end Supply

end ShaderDialects.Identifier
