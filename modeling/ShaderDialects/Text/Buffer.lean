namespace ShaderDialects.Text

structure Buffer where
  held : String
  room : Nat

structure Overflow where
  held : String

def Overflow.message (_ : Overflow) : String := "formatting cancelled"

namespace Buffer

def ofRoom (room : Nat) : Buffer := ⟨"", room⟩

def write (b : Buffer) (piece : String) : Except Overflow Buffer :=
  if piece.length ≤ b.room then .ok ⟨b.held ++ piece, b.room - piece.length⟩
  else .error ⟨b.held ++ String.ofList (piece.toList.take b.room)⟩

/-- Writes to the buffer at hand; nothing that would come after an overflow is done. -/
def put (piece : String) : StateT Buffer (Except Overflow) Unit := fun b =>
  (b.write piece).map fun b => ((), b)

end Buffer

end ShaderDialects.Text
