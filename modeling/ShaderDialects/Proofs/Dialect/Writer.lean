import ShaderDialects.Dialect.Text
import ShaderDialects.Package.Compacted
import ShaderDialects.Proofs.Dialect.Path

namespace ShaderDialects

open Package (joinLines)

namespace Text

variable {m : Type → Type} [Monad m] {put : String → m Unit}

/-- It makes no difference to the sink in which pieces it is given a text. -/
structure Seamless (put : String → m Unit) : Prop where
  empty : put "" = pure ()
  append : ∀ x y, put (x ++ y) = (put x >>= fun _ => put y)

namespace Seamless

variable (h : Seamless put)
include h

theorem forM {α : Type} (as : List α) {write : α → m Unit} {text : α → String}
    (hw : ∀ a, write a = put (text a)) : as.forM write = put (String.join (as.map text)) := by
  induction as with
  | nil => exact h.empty.symm
  | cons a as ih =>
      rw [List.map_cons, String.join_cons, h.append, ← hw, ← ih]
      rfl

theorem putAll (pieces : List String) : Dialect.putAll put pieces = put (String.join pieces) := by
  have hall := h.forM pieces (fun piece => congrArg put (id_eq piece).symm)
  rwa [List.map_id] at hall

theorem putIf (c : Bool) (pieces : List String) :
    Dialect.putIf put c pieces = put (if c then String.join pieces else "") := by
  cases c with
  | true => exact h.putAll pieces
  | false => exact h.empty.symm

theorem putIndent (level : Nat) : Dialect.putIndent put level = put (Dialect.indent level) := by
  induction level with
  | zero => exact h.empty.symm
  | succ level ih =>
      have hindent : Dialect.indent (level + 1) = "    " ++ Dialect.indent level := by
        rw [← String.toList_inj]
        simp [Dialect.indent, Nat.mul_succ, Nat.add_comm, List.replicate_add]
      rw [Dialect.putIndent, ih, hindent, h.append]

end Seamless

end Text

namespace Package

@[simp]
theorem joinLines_nil : joinLines [] = "" := rfl

@[simp]
theorem joinLines_cons (line : String) (lines : List String) :
    joinLines (line :: lines) = line ++ "\n" ++ joinLines lines := by
  simp [joinLines]

@[simp]
theorem joinLines_append (lines lines' : List String) :
    joinLines (lines ++ lines') = joinLines lines ++ joinLines lines' := by
  simp [joinLines]

theorem joinLines_map {α : Type} (line : α → String) (as : List α) :
    joinLines (as.map line) = String.join (as.map fun a => line a ++ "\n") := by
  simp [joinLines, Function.comp_def]

theorem joinLines_flatMap {α : Type} (lines : α → List String) (as : List α) :
    joinLines (as.flatMap lines) = String.join (as.map fun a => joinLines (lines a)) := by
  induction as with
  | nil => rfl
  | cons a as ih => simp [ih]

end Package

namespace Dialect

open Text (Seamless)

variable {m : Type → Type} [Monad m] {put : String → m Unit} (h : Seamless put)
include h

theorem writeLiteral_eq (v : Literal) : writeLiteral put v = put v.text := by
  cases v with
  | bool b => cases b <;> rfl
  | int n =>
      rw [writeLiteral, Literal.text]
      split
      next hn =>
        subst hn
        exact h.putAll _
      · rfl
  | uint n =>
      rw [writeLiteral, h.putAll]
      simp [Literal.text]
  | float x => rfl

theorem writeComponents_eq (s : Swizzle) : writeComponents put s = put s.text := by
  have htext : String.join (s.components.map fun c => c.letter.toString) = s.text := by
    rw [← String.toList_inj]
    simp [Swizzle.text, List.flatMap_map, ← List.map_eq_flatMap]
  rw [writeComponents, h.forM s.components fun _ => rfl, htext]

namespace Expr

theorem writeMoreArgs_eq {es : List Expr} (hes : ∀ e ∈ es, e.write put = put e.text) :
    writeMoreArgs put es = put (moreArgsText es) := by
  induction es with
  | nil => exact h.empty.symm
  | cons e es ih =>
      obtain ⟨he, hes⟩ := List.forall_mem_cons.mp hes
      rw [writeMoreArgs, he, ih hes, moreArgsText, String.append_assoc, h.append, h.append]

theorem writeArgs_eq {es : List Expr} (hes : ∀ e ∈ es, e.write put = put e.text) :
    writeArgs put es = put (argsText es) := by
  cases es with
  | nil => exact h.empty.symm
  | cons e es =>
      obtain ⟨he, hes⟩ := List.forall_mem_cons.mp hes
      rw [writeArgs, he, writeMoreArgs_eq h hes, argsText, h.append]

theorem write_eq (e : Expr) : e.write put = put e.text := by
  induction e with
  | literal v => exact writeLiteral_eq h v
  | var n | builtin n => rfl
  | call c args ih =>
      simp [write, text, h.putAll, writeArgs_eq h ih, ← h.append, String.append_assoc]
  | binary op l r ihl ihr =>
      simp [write, text, h.putAll, ihl, ihr, ← h.append, String.append_assoc]
  | unary op x ih | field x n ih | index x i ih =>
      simp [write, text, h.putAll, ih, ← h.append, String.append_assoc]
  | swizzle x s ih =>
      simp [write, text, writeComponents_eq h, ih, ← h.append, String.append_assoc]

end Expr

namespace Stmt

theorem writeBlock_cons {level : Nat} {s : Stmt} {ss : List Stmt}
    (hs : write put level s = put (joinLines (lines level s)))
    (hss : writeBlock put level ss = put (joinLines (linesOf level ss))) :
    writeBlock put level (s :: ss) = put (joinLines (linesOf level (s :: ss))) := by
  rw [writeBlock, hs, hss, linesOf, Package.joinLines_append, h.append]

theorem writeElse_eq {level : Nat} {reject : List Stmt}
    (hr : writeBlock put (level + 1) reject = put (joinLines (linesOf (level + 1) reject))) :
    writeElse put level reject =
      put (joinLines (if reject.isEmpty then []
        else [indent level ++ "\x7d else \x7b"] ++ linesOf (level + 1) reject)) := by
  cases reject with
  | nil => exact h.empty.symm
  | cons s ss =>
      rw [writeBlock] at hr
      simp [writeElse, h.putIndent, hr, ← h.append, String.append_assoc]

theorem writeBlock_eq (level : Nat) (ss : List Stmt) :
    writeBlock put level ss = put (joinLines (linesOf level ss)) := by
  induction ss using inductOf generalizing level with
  | nil => exact h.empty.symm
  | declare n ty init ss ih =>
      refine writeBlock_cons h ?_ (ih level)
      cases init with
      | none =>
          simp [write, lines, Expr.writeInit, h.putIndent, h.putAll, ← h.empty, ← h.append,
            String.append_assoc]
      | some e =>
          simp [write, lines, Expr.writeInit, h.putIndent, h.putAll, e.write_eq h, ← h.append,
            String.append_assoc]
  | assign n value ss ih | ret value ss ih =>
      refine writeBlock_cons h ?_ (ih level)
      simp [write, lines, h.putIndent, h.putAll, value.write_eq h, ← h.append, String.append_assoc]
  | cond c accept reject ss iha ihr ih =>
      refine writeBlock_cons h ?_ (ih level)
      simp [write, lines, h.putIndent, c.write_eq h, iha (level + 1),
        writeElse_eq h (ihr (level + 1)), ← h.append, String.append_assoc]
  | block body ss ihb ih =>
      refine writeBlock_cons h ?_ (ih level)
      simp [write, lines, h.putIndent, ihb (level + 1), ← h.append, String.append_assoc]

end Stmt

namespace Storage

theorem writeLocation_eq (location : Option Nat) :
    writeLocation put location =
      put (location.elim "" fun n => "layout(location = " ++ toString n ++ ") ") := by
  cases location with
  | none => exact h.empty.symm
  | some n => simp [writeLocation, h.putAll, String.append_assoc]

theorem write_eq (s : Storage) : s.write put = put s.text := by
  cases s with
  | «attribute» | varying => rfl
  | input flat =>
      rw [write, h.putIf, ← h.append]
      rfl
  | output flat location =>
      rw [write, writeLocation_eq h, h.putIf, ← h.append, ← h.append, ← String.append_assoc]
      cases location <;> rfl

end Storage

theorem InterfaceVar.write_eq (v : InterfaceVar) : v.write put = put (v.line ++ "\n") := by
  simp [write, line, v.storage.write_eq h, h.putAll, ← h.append, String.append_assoc]

theorem UniformVar.write_eq (u : UniformVar) : u.write put = put (u.line ++ "\n") := by
  simp [write, line, h.putAll, String.append_assoc]

namespace Variable

theorem writeField_eq (v : Variable) :
    v.writeField put = put (indent 1 ++ v.text ++ ";" ++ "\n") := by
  simp [writeField, text, h.putIndent, h.putAll, ← h.append, String.append_assoc]

theorem writeParam_eq (v : Variable) : v.writeParam put = put v.text := by
  simp [writeParam, text, h.putAll, String.append_assoc]

theorem writeParams_eq (vs : List Variable) :
    writeParams put vs = put (String.intercalate ", " (vs.map text)) := by
  have hrest (vs : List Variable) (v : Variable) :
      String.intercalate ", " ((v :: vs).map text) =
        v.text ++ String.join (vs.map fun w => ", " ++ w.text) := by
    induction vs generalizing v with
    | nil => simp
    | cons w vs ih =>
        have hw := ih w
        simp only [List.map_cons] at hw
        simp [String.intercalate_cons_cons, hw, String.append_assoc]
  cases vs with
  | nil => exact h.empty.symm
  | cons v vs =>
      have hmore (w : Variable) : (do put ", "; w.writeParam put) = put (", " ++ w.text) := by
        rw [w.writeParam_eq h, h.append]
      rw [writeParams, v.writeParam_eq h, h.forM vs hmore, ← h.append, hrest]

end Variable

namespace Decl

theorem writeKind_eq (d : Decl) : d.writeKind put = put (joinLines d.kindLines) := by
  rw [writeKind, kindLines]
  cases d.kind with
  | struct fields =>
      simp [h.putAll, h.forM fields fun v => v.writeField_eq h, Package.joinLines_map, ← h.append,
        String.append_assoc]
  | function params result body =>
      simp [h.putAll, Variable.writeParams_eq h, Stmt.writeBlock_eq h, ← h.append,
        String.append_assoc]
  | constant ty value =>
      simp [h.putAll, value.write_eq h, ← h.append, String.append_assoc]

theorem write_eq (config : Config) (d : Decl) :
    d.write put config = put (joinLines (d.lines config)) := by
  simp [write, lines, d.writeKind_eq h, h.putIf, apply_ite joinLines, ← h.append,
    String.append_assoc]

end Decl

theorem Sink.write_eq (s : Sink) : s.write put = put s.text := by
  cases s with
  | var | position | fragColor | fragDepth => rfl
  | fragData n => simp [write, text, h.putAll, String.append_assoc]

namespace Main

theorem writeDiscard_eq (condition : Expr) :
    writeDiscard put condition = put (joinLines (discardLines condition)) := by
  simp [writeDiscard, discardLines, h.putIndent, condition.write_eq h, ← h.append,
    String.append_assoc]

theorem writeOutput_eq (o : OutputWrite) : writeOutput put o = put (outputLine o ++ "\n") := by
  simp [writeOutput, outputLine, h.putIndent, o.sink.write_eq h, o.value.write_eq h, ← h.append,
    String.append_assoc]

theorem write_eq (b : Main) : b.write put = put (joinLines b.lines) := by
  simp [write, lines, Stmt.writeBlock_eq h, h.forM b.discards (writeDiscard_eq h),
    h.forM b.outputs (writeOutput_eq h), Package.joinLines_flatMap, Package.joinLines_map,
    ← h.append]

end Main

namespace Shader

variable (config : Config) (s : Shader)

omit h in
theorem headerLines_eq_nil : s.headerLines config = [] ↔ s.hasHeader config = false := by
  simp [headerLines, hasHeader, and_assoc]

omit h in
theorem text_eq_joinLines :
    s.text config = joinLines (s.headerLines config) ++ (if s.hasHeader config then "\n" else "") ++
      joinLines (s.decls.flatMap (Decl.lines config)) ++ joinLines s.main.lines := by
  have htext : s.text config = joinLines (s.lines config) := rfl
  rw [htext, lines]
  cases hh : s.hasHeader config with
  | true =>
      have hne : ¬ s.headerLines config = [] := by simp [headerLines_eq_nil, hh]
      simp [hne, String.append_assoc]
  | false =>
      have hnil : s.headerLines config = [] := (s.headerLines_eq_nil config).mpr hh
      simp [hnil]

theorem write_eq : s.write put config = put (s.text config) := by
  simp [text_eq_joinLines, write, headerLines, h.putIf, h.forM s.uniforms fun u => u.write_eq h,
    h.forM (s.inputs ++ s.outputs) fun v => v.write_eq h, h.forM s.decls (Decl.write_eq h config),
    s.main.write_eq h, Package.joinLines_flatMap, Package.joinLines_map, apply_ite joinLines,
    ← h.append, String.append_assoc]

end Shader

end Dialect

namespace Text

theorem seamless_append : Seamless fun piece => (modify (· ++ piece) : StateM String Unit) where
  empty := by
    funext s
    exact congrArg (Prod.mk ()) String.append_empty
  append x y := by
    funext s
    exact congrArg (Prod.mk ()) String.append_assoc.symm

namespace Buffer

variable (b : Buffer) {x : String}

theorem write_of_le (h : x.length ≤ b.room) : b.write x = .ok ⟨b.held ++ x, b.room - x.length⟩ :=
  if_pos h

theorem write_of_lt (h : b.room < x.length) :
    b.write x = .error ⟨b.held ++ String.ofList (x.toList.take b.room)⟩ :=
  if_neg (Nat.not_le.mpr h)

/-- Two pieces fill a buffer as their text does, also if it is full within the first of them. -/
theorem write_append (x y : String) :
    b.write (x ++ y) = (b.write x >>= fun b => b.write y) := by
  have hlen : (x ++ y).length = x.length + y.length := String.length_append x y
  rcases Nat.lt_or_ge b.room x.length with hx | hx
  · have htake : (x ++ y).toList.take b.room = x.toList.take b.room := by
      rw [String.toList_append, List.take_append_of_le_length]
      exact Nat.le_of_lt hx
    rw [Except.bind_of_error (b.write_of_lt hx), b.write_of_lt (by omega), htake]
  · rw [Except.bind_of_ok (b.write_of_le hx)]
    rcases Nat.lt_or_ge b.room (x ++ y).length with hxy | hxy
    · have htake : (x ++ y).toList.take b.room = x.toList ++ y.toList.take (b.room - x.length) := by
        rw [String.toList_append, List.take_append, List.take_of_length_le hx]
        rfl
      rw [b.write_of_lt hxy, write_of_lt _ (by simp only; omega), htake]
      simp [String.append_assoc]
    · rw [b.write_of_le hxy, write_of_le _ (by simp only; omega), hlen, String.append_assoc,
        Nat.sub_sub]

theorem seamless_put : Seamless put where
  empty := by
    funext b
    rw [put, b.write_of_le (Nat.zero_le _), String.append_empty]
    rfl
  append x y := by
    funext b
    rw [put, b.write_append]
    change _ = (b.write x).map (fun b => ((), b)) >>= fun p => put y p.2
    cases b.write x <;> rfl

end Buffer

end Text

namespace Dialect.Shader

variable (config : Config) (s : Shader)

theorem writeString_eq_text : s.writeString config = s.text config := by
  rw [writeString, s.write_eq Text.seamless_append config]
  exact String.empty_append

theorem writeTo_eq_write (b : Text.Buffer) : s.writeTo config b = b.write (s.text config) := by
  rw [writeTo, s.write_eq Text.Buffer.seamless_put config]
  change ((b.write (s.text config)).map fun b => ((), b)).map Prod.snd = _
  cases b.write (s.text config) <;> rfl

/-- Writing to a buffer with room for `n` characters succeeds exactly if the text is no longer than
that, and the buffer then holds the text; otherwise it fails, and the buffer holds the first `n`
characters. -/
theorem writeTo_exact (n : Nat) :
    s.writeString config = s.text config ∧
      (∀ b, s.writeTo config (.ofRoom n) = .ok b ↔
        (s.writeString config).length ≤ n ∧
          b = ⟨s.writeString config, n - (s.writeString config).length⟩) ∧
      ∀ o, s.writeTo config (.ofRoom n) = .error o ↔
        n < (s.writeString config).length ∧
          o = ⟨String.ofList ((s.writeString config).toList.take n)⟩ := by
  rw [writeString_eq_text, writeTo_eq_write]
  rcases Nat.lt_or_ge n (s.text config).length with hn | hn
  · rw [Text.Buffer.write_of_lt _ hn]
    simp [hn, Text.Buffer.ofRoom, eq_comm]
  · rw [Text.Buffer.write_of_le _ hn]
    simp [hn, Text.Buffer.ofRoom, eq_comm]

end Dialect.Shader

end ShaderDialects
