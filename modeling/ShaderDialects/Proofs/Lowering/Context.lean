import ShaderDialects.Lowering.Expr
import ShaderDialects.Proofs.Except
import ShaderDialects.Proofs.Identifier.Fresh
import ShaderDialects.Proofs.Source.Linearization
import ShaderDialects.Proofs.Source.Typing

namespace ShaderDialects

open Identifier (Supply)

theorem lookup_cons_eq_some {β : Type} {i j : Nat} {b b' : β} {bs : List (Nat × β)}
    (h : List.lookup j ((i, b) :: bs) = some b') : (j = i ∧ b' = b) ∨ bs.lookup j = some b' := by
  by_cases hj : j = i
  · subst hj
    exact .inl ⟨rfl, by simpa [eq_comm] using h⟩
  · rw [List.lookup_cons, beq_false_of_ne hj] at h
    exact .inr h

def Program.fieldNames (p : Program) (i : Nat) : List String :=
  match p.records[i]? with
  | some r => Supply.forFields.names Field.name r.fields
  | none => []

namespace Program

variable {p : Program} {i : Nat}

theorem nodup_fieldNames (p : Program) (i : Nat) : (p.fieldNames i).Nodup := by
  rw [fieldNames]
  split
  · exact Supply.nodup_names _ _
  · exact List.nodup_nil

theorem fieldNames_not_reserved (p : Program) (i : Nat) :
    ∀ n ∈ p.fieldNames i, n ∉ Identifier.reserved := by
  rw [fieldNames]
  split
  · exact fun n hn => Supply.not_mem_used_of_mem_names hn
  · exact nofun

theorem length_fieldNames_of_record {r : Record} (h : p.records[i]? = some r) :
    (p.fieldNames i).length = r.fields.length := by
  simp [fieldNames, h]

theorem length_fieldNames {tys : List Ty} (h : p.fieldTys? i = some tys) :
    (p.fieldNames i).length = tys.length := by
  obtain ⟨r, hr, rfl⟩ := Option.map_eq_some_iff.mp h
  rw [length_fieldNames_of_record hr, List.length_map]

end Program

/-- The expression that a native form makes of arguments; operators take as many as they have
operands. -/
def Form.build? (args : List Dialect.Expr) : Form → Option Dialect.Expr
  | call name => some (.native name args)
  | binary op =>
      match args with
      | [left, right] => some (.binary op left right)
      | _ => none
  | unary op =>
      match args with
      | [operand] => some (.unary op operand)
      | _ => none
  | var _ => none

theorem Form.build?_binary {op : Dialect.BinaryOp} {args : List Dialect.Expr} {x : Dialect.Expr} :
    (Form.binary op).build? args = some x ↔ ∃ l r, args = [l, r] ∧ x = .binary op l r := by
  match args with
  | [] | [_] | _ :: _ :: _ :: _ => simp [build?]
  | [l, r] => simp [build?, eq_comm]

theorem Form.build?_unary {op : Dialect.UnaryOp} {args : List Dialect.Expr} {x : Dialect.Expr} :
    (Form.unary op).build? args = some x ↔ ∃ operand, args = [operand] ∧ x = .unary op operand := by
  match args with
  | [] | _ :: _ :: _ => simp [build?]
  | [operand] => simp [build?, eq_comm]

namespace Lowering

def TermForm.read? : TermForm → Option Dialect.Expr
  | value name => some (.user name [])
  | emulatedConstant name => some (.var name)
  | native (.var name) => some (.builtin name)
  | _ => none

def TermForm.applied? (args : List Dialect.Expr) : TermForm → Option Dialect.Expr
  | function name | emulatedFunction name => some (.user name args)
  | native form => form.build? args
  | value _ | emulatedConstant _ => none

namespace Context

variable {c : Context}

theorem malformed_ne_ok {α : Type} {reason : Malformation} {a : α} :
    c.malformed reason ≠ .ok a := by
  simp [malformed]

theorem structNames_eq_ok {i : Nat} {names : StructNames} :
    c.structNames i = .ok names ↔ c.structs.lookup i = some names := by
  rw [structNames]
  cases c.structs.lookup i with
  | some names' => simp
  | none =>
      refine iff_of_false (fun h => ?_) (by simp)
      obtain ⟨_, _, h⟩ := Except.bind_eq_ok.mp h
      cases h

theorem termForm_eq_ok {i : Nat} {form : TermForm} :
    c.termForm i = .ok form ↔ c.terms.lookup i = some form := by
  rw [termForm]
  cases c.terms.lookup i with
  | some form' => simp
  | none =>
      refine iff_of_false (fun h => ?_) (by simp)
      obtain ⟨_, _, h⟩ := Except.bind_eq_ok.mp h
      cases h

theorem fieldName_eq_ok {ty : Ty} {i : Nat} {name : String} :
    c.fieldName ty i = .ok name ↔
      ∃ r names, ty = .record r ∧ c.structs.lookup r = some names ∧ names.fields[i]? = some name := by
  cases ty with
  | leaf t => simp [fieldName, malformed]
  | record r =>
      rw [fieldName, Except.bind_eq_ok]
      constructor
      · rintro ⟨names, hn, h⟩
        refine ⟨r, names, rfl, structNames_eq_ok.mp hn, ?_⟩
        split at h
        next hf =>
          cases h
          exact hf
        next => exact absurd h malformed_ne_ok
      · rintro ⟨_, names, ⟨⟩, hn, hf⟩
        refine ⟨names, structNames_eq_ok.mpr hn, ?_⟩
        rw [hf]
        rfl

theorem malformed_term_ne_ok {α : Type} {i : Nat} {reason : Term → Malformation} {a : α} :
    (c.term i >>= fun t => c.malformed (reason t)) ≠ .ok a := by
  intro h
  obtain ⟨_, _, h⟩ := Except.bind_eq_ok.mp h
  exact malformed_ne_ok h

theorem readTerm_eq_ok {i : Nat} {x : Dialect.Expr} :
    c.readTerm i = .ok x ↔ ∃ form, c.terms.lookup i = some form ∧ form.read? = some x := by
  rw [readTerm, Except.bind_eq_ok]
  refine exists_congr fun form => and_congr termForm_eq_ok ?_
  cases form with
  | value name | emulatedConstant name => simp [TermForm.read?, Except.pure_eq_ok]
  | function name | emulatedFunction name =>
      exact iff_of_false malformed_term_ne_ok (by simp [TermForm.read?])
  | native form =>
      cases form with
      | var name => simp [TermForm.read?, Except.pure_eq_ok]
      | call name | binary op | unary op =>
          exact iff_of_false malformed_term_ne_ok (by simp [TermForm.read?])

theorem applyTerm_eq_ok {i : Nat} {args : List Dialect.Expr} {x : Dialect.Expr} :
    c.applyTerm i args = .ok x ↔
      ∃ form, c.terms.lookup i = some form ∧ form.applied? args = some x := by
  rw [applyTerm, Except.bind_eq_ok]
  refine exists_congr fun form => and_congr termForm_eq_ok ?_
  cases form with
  | function name | emulatedFunction name => simp [TermForm.applied?, Except.pure_eq_ok]
  | value name | emulatedConstant name =>
      exact iff_of_false malformed_term_ne_ok (by simp [TermForm.applied?])
  | native form =>
      cases form with
      | call name => simp [TermForm.applied?, Form.build?, Except.pure_eq_ok]
      | var name => exact iff_of_false malformed_term_ne_ok (by simp [TermForm.applied?, Form.build?])
      | binary op =>
          simp only [TermForm.applied?, Form.build?]
          split
          · simp [Except.pure_eq_ok]
          · exact iff_of_false malformed_term_ne_ok (by simp)
      | unary op =>
          simp only [TermForm.applied?, Form.build?]
          split
          · simp [Except.pure_eq_ok]
          · exact iff_of_false malformed_term_ne_ok (by simp)

theorem ty_leaf_eq_ok {t : Leaf} {ty : Dialect.Ty} : c.ty (.leaf t) = .ok ty ↔ .leaf t = ty := by
  simp [Context.ty]

theorem ty_record_eq_ok {i : Nat} {ty : Dialect.Ty} :
    c.ty (.record i) = .ok ty ↔
      ∃ names, c.structs.lookup i = some names ∧ .struct names.name = ty := by
  simp only [Context.ty, Except.map_eq_ok, structNames_eq_ok]

theorem record_eq_ok {i : Nat} {r : Record} :
    c.record i = .ok r ↔ c.program.records[i]? = some r := by
  rw [record, Except.mapError_eq_ok, Program.record_eq_ok]

theorem constructible_eq_ok {i : Nat} {u : Unit} :
    c.constructible i = .ok u ↔ c.program.holdsSampler (.record i) = .ok false := by
  rw [constructible, Except.bind_eq_ok]
  simp only [Except.mapError_eq_ok]
  constructor
  · rintro ⟨b, hb, h⟩
    cases b with
    | false => exact hb
    | true =>
        obtain ⟨r, _, h⟩ := Except.bind_eq_ok.mp h
        exact absurd h malformed_ne_ok
  · exact fun h => ⟨false, h, rfl⟩

theorem rebuildWithin_leaf {depth q : Nat} {path : List Nat} {t : Leaf} {x : Dialect.Expr} :
    c.rebuildWithin depth q path (.leaf t) = .ok x ↔
      ∃ u, c.uniform? q path = some u ∧ .var u.ident = x := by
  rw [rebuildWithin]
  cases c.uniform? q path with
  | some u => simp
  | none => simp [malformed]

theorem rebuildWithin_record {depth q : Nat} {path : List Nat} {i : Nat} {x : Dialect.Expr} :
    c.rebuildWithin depth q path (.record i) = .ok x ↔
      c.constructible i = .ok () ∧ ∃ r, c.program.records[i]? = some r ∧
        ∃ d, depth = d + 1 ∧ ∃ args,
          List.Forall₂ (fun fk y => c.rebuildWithin d q (path ++ [fk.2]) fk.1.ty = .ok y)
            r.fields.zipIdx args ∧
          ∃ names, c.structs.lookup i = some names ∧ .user names.name args = x := by
  cases depth with
  | zero =>
      rw [rebuildWithin, Except.bind_eq_ok]
      simp [Except.bind_eq_ok]
  | succ d =>
      rw [rebuildWithin]
      simp only [Except.bind_eq_ok, Except.mapM_eq_ok, Except.pure_eq_ok, structNames_eq_ok,
        record_eq_ok]
      constructor
      · rintro ⟨⟨⟩, hc, r, hr, args, hargs, h⟩
        exact ⟨hc, r, hr, d, rfl, args, hargs, h⟩
      · rintro ⟨hc, r, hr, _, ⟨⟩, args, hargs, h⟩
        exact ⟨(), hc, r, hr, args, hargs, h⟩

/-- What is rebuilt from uniforms is made of their variables and of constructors. -/
theorem rebuildWithin_induct {P : Dialect.Expr → Prop} {depth q : Nat} {path : List Nat} {ty : Ty}
    {x : Dialect.Expr} (h : c.rebuildWithin depth q path ty = .ok x)
    (var : ∀ path u, c.uniform? q path = some u → P (.var u.ident))
    (user : ∀ i names args, c.structs.lookup i = some names → (∀ y ∈ args, P y) →
      P (.user names.name args)) : P x := by
  induction depth using Nat.strongRecOn generalizing path ty x with
  | ind depth ih =>
      cases ty with
      | leaf t =>
          obtain ⟨u, hu, rfl⟩ := rebuildWithin_leaf.mp h
          exact var path u hu
      | record i =>
          obtain ⟨-, r, -, d, rfl, args, hargs, names, hn, rfl⟩ := rebuildWithin_record.mp h
          refine user i names args hn fun y hy => ?_
          obtain ⟨k, hk⟩ := List.mem_iff_getElem?.mp hy
          obtain ⟨_, _, hbuilt⟩ := hargs.getElem?_left hk
          exact ih d (Nat.lt_succ_self d) hbuilt

end Context

end Lowering

end ShaderDialects
