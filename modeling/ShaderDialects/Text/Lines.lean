namespace ShaderDialects.Text

structure Source where
  bytes : List UInt8
  /-- What reading reports after the last byte, if it fails there. -/
  failure : Option String := none

def Source.ofString (s : String) : Source := { bytes := s.toUTF8.data.toList }

inductive ReadError where
  | invalidUTF8
  | failed (message : String)

def ReadError.message : ReadError → String
  | invalidUTF8 => "stream did not contain valid UTF-8"
  | failed m => m

def splitLines : List UInt8 → List (List UInt8) × List UInt8
  | [] => ([], [])
  | b :: bs =>
      let (lines, last) := splitLines bs
      if b = 10 then ([] :: lines, last)
      else match lines with
        | [] => ([], b :: last)
        | line :: lines => ((b :: line) :: lines, last)

def dropReturn (line : List UInt8) : List UInt8 :=
  if line.getLast? = some 13 then line.dropLast else line

def decodeLine (line : List UInt8) : Except ReadError String :=
  match String.fromUTF8? ⟨line.toArray⟩ with
  | some s => .ok s
  | none => .error .invalidUTF8

def Source.lines (s : Source) : Except ReadError (List String) := do
  let (ended, last) := splitLines s.bytes
  let lines ← ended.mapM fun line => decodeLine (dropReturn line)
  match s.failure with
  | some m => throw (.failed m)
  | none =>
      if last.isEmpty then return lines
      else return lines ++ [← decodeLine last]

end ShaderDialects.Text
