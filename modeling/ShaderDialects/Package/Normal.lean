import ShaderDialects.Text.Blank
import ShaderDialects.Text.Lines

namespace ShaderDialects.Package

def pairIndex? (x y : Char) : (cs : List Char) → Option (Fin cs.length)
  | [] => none
  | c :: cs => if c = x ∧ cs.head? = some y then some ⟨0, Nat.zero_lt_succ _⟩
    else (pairIndex? x y cs).map Fin.succ

/-- Removes the comments of a line. The flag tells, before and after the line, whether a block
comment is open. The end of a block comment becomes a blank, so what stands around it stays
apart. -/
def stripComments : Bool → List Char → List Char × Bool
  | true, line =>
      match pairIndex? '*' '/' line with
      | some i =>
          let (code, inside) := stripComments false (line.drop (i + 2))
          (' ' :: code, inside)
      | none => ([], true)
  | false, line =>
      let enter (j : Fin line.length) :=
        let (code, inside) := stripComments true (line.drop (j + 2))
        (line.take j ++ code, inside)
      match pairIndex? '/' '/' line, pairIndex? '/' '*' line with
      | some i, some j => if i < j then (line.take i, false) else enter j
      | none, some j => enter j
      | some i, none => (line.take i, false)
      | none, none => (line, false)
termination_by _ line => line.length
decreasing_by all_goals grind

/-- Puts a character in front of what is left of a line: a blank only where a word follows. -/
def pushSpaced (c : Char) (rest : List Char) : List Char :=
  if Text.isBlank c then
    match rest with
    | [] => []
    | ' ' :: rest => ' ' :: rest
    | d :: rest => ' ' :: d :: rest
  else c :: rest

def collapse (line : List Char) : List Char :=
  match line.foldr pushSpaced [] with
  | ' ' :: rest => rest
  | rest => rest

/-- The normal form of lines, of which those that come out empty are dropped. -/
def normalLines (inside : Bool) : List (List Char) → List (List Char)
  | [] => []
  | line :: lines =>
      let (code, inside) := stripComments inside line
      let normal := collapse code
      if normal.isEmpty then normalLines inside lines else normal :: normalLines inside lines

def normalize (s : Text.Source) : Except Text.ReadError (List String) := do
  let lines ← s.lines
  return (normalLines false (lines.map String.toList)).map String.ofList

end ShaderDialects.Package
