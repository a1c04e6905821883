import ShaderDialects.Identifier.Supply
import ShaderDialects.Lowering.Error

namespace ShaderDialects.Lowering

open Dialect (Stmt)
open Identifier (Supply)

structure Scope where
  supply : Supply
  /-- The identifiers of locals, the latest binding of a local first. -/
  locals : List (Nat × String) := []

structure Emitted (α : Type) where
  value : α
  stmts : List Stmt
  scope : Scope

structure Emit (α : Type) where
  run : Scope → Except Error (Emitted α)

namespace Emit

variable {α β : Type}

def pure (a : α) : Emit α := ⟨fun scope => .ok ⟨a, [], scope⟩⟩

def bind (m : Emit α) (f : α → Emit β) : Emit β :=
  ⟨fun scope => do
    let first ← m.run scope
    let second ← (f first.value).run first.scope
    return ⟨second.value, first.stmts ++ second.stmts, second.scope⟩⟩

instance : Monad Emit where
  pure := pure
  bind := bind

def ofExcept (r : Except Error α) : Emit α := ⟨fun scope => r.map fun a => ⟨a, [], scope⟩⟩

def emit (s : Stmt) : Emit Unit := ⟨fun scope => .ok ⟨(), [s], scope⟩⟩

/-- Gives the statements of a computation in place of emitting them. What it named and bound
stays. -/
def capture (m : Emit Unit) : Emit (List Stmt) :=
  ⟨fun scope => do
    let inner ← m.run scope
    return ⟨inner.stmts, [], inner.scope⟩⟩

def fresh (label : String) : Emit String :=
  ⟨fun scope =>
    let (name, supply) := scope.supply.fresh label
    .ok ⟨name, [], { scope with supply := supply }⟩⟩

def temporary : Emit String :=
  ⟨fun scope =>
    let (name, supply) := scope.supply.temporary
    .ok ⟨name, [], { scope with supply := supply }⟩⟩

def bindLocal (id : Nat) (name : String) : Emit Unit :=
  ⟨fun scope => .ok ⟨(), [], { scope with locals := (id, name) :: scope.locals }⟩⟩

def local? (id : Nat) : Emit (Option String) :=
  ⟨fun scope => .ok ⟨scope.locals.lookup id, [], scope⟩⟩

end Emit

end ShaderDialects.Lowering
