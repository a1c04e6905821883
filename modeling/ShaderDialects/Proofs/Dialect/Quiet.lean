import ShaderDialects.Dialect.Text
import ShaderDialects.Proofs.Identifier.Legal

namespace ShaderDialects

namespace Text

def isPlain (c : Char) : Bool := c ≠ '/' && c ≠ '\n' && c ≠ '\r'

/-- Every slash has a space after it, and no line ends. -/
def isQuiet : List Char → Bool
  | [] => true
  | '/' :: ' ' :: cs => isQuiet cs
  | c :: cs => isPlain c && isQuiet cs

def Quiet (s : String) : Prop := isQuiet s.toList = true

instance (s : String) : Decidable (Quiet s) := inferInstanceAs (Decidable (_ = true))

theorem isQuiet_append {cs ds : List Char} (hc : isQuiet cs = true) (hd : isQuiet ds = true) :
    isQuiet (cs ++ ds) = true := by
  fun_induction isQuiet cs with
  | case1 => exact hd
  | case2 cs ih => exact ih hc
  | case3 c cs hslash ih =>
      rw [Bool.and_eq_true] at hc
      rw [List.cons_append, isQuiet]
      · rw [Bool.and_eq_true]
        exact ⟨hc.1, ih hc.2⟩
      · rintro rest rfl
        simp [isPlain] at hc

theorem isQuiet_of_isPlain {cs : List Char} (h : ∀ c ∈ cs, isPlain c = true) :
    isQuiet cs = true := by
  fun_induction isQuiet cs with
  | case1 => rfl
  | case2 cs ih => exact absurd (h '/' List.mem_cons_self) (by decide)
  | case3 c cs _ ih =>
      obtain ⟨hc, hcs⟩ := List.forall_mem_cons.mp h
      rw [Bool.and_eq_true]
      exact ⟨hc, ih hcs⟩

theorem isPlain_of {P : Char → Prop} (hslash : ¬ P '/') (hfeed : ¬ P '\n') (hreturn : ¬ P '\r')
    {c : Char} (h : P c) : isPlain c = true := by
  by_contra hc
  obtain rfl | rfl | rfl : c = '/' ∨ c = '\n' ∨ c = '\r' := by
    simpa [isPlain, or_assoc, imp_iff_not_or] using hc
  · exact hslash h
  · exact hfeed h
  · exact hreturn h

theorem isPlain_of_isDigit {c : Char} (h : c.isDigit = true) : isPlain c = true :=
  isPlain_of (P := fun c => c.isDigit = true) (by decide) (by decide) (by decide) h

theorem Quiet.append {s t : String} (hs : Quiet s) (ht : Quiet t) : Quiet (s ++ t) := by
  rw [Quiet, String.toList_append]
  exact isQuiet_append hs ht

theorem quiet_of_isPlain {s : String} (h : ∀ c ∈ s.toList, isPlain c = true) : Quiet s :=
  isQuiet_of_isPlain h

theorem quiet_repr (n : Nat) : Quiet n.repr := by
  refine quiet_of_isPlain fun c hc => isPlain_of_isDigit ?_
  rw [Nat.toList_repr] at hc
  exact Nat.isDigit_of_mem_toDigits (by decide) (by decide) hc

theorem quiet_toString_int (k : Int) : Quiet (toString k) := by
  rw [Int.toString_eq_repr, Int.repr_eq_if]
  split
  · exact quiet_repr _
  · exact Quiet.append (by decide) (quiet_repr _)

theorem quiet_intercalate {sep : String} (hs : Quiet sep) {ts : List String}
    (h : ∀ t ∈ ts, Quiet t) : Quiet (sep.intercalate ts) := by
  induction ts with
  | nil => exact (by decide : Quiet "")
  | cons t ts ih =>
      obtain ⟨ht, hts⟩ := List.forall_mem_cons.mp h
      cases ts with
      | nil => rwa [String.intercalate_singleton]
      | cons u us =>
          rw [String.intercalate_cons_cons]
          exact (ht.append hs).append (ih hts)

def OneLine (s : String) : Prop := '\n' ∉ s.toList

instance (s : String) : Decidable (OneLine s) := inferInstanceAs (Decidable (¬ _))

theorem OneLine.append {s t : String} (hs : OneLine s) (ht : OneLine t) : OneLine (s ++ t) := by
  rw [OneLine, String.toList_append, List.mem_append, not_or]
  exact ⟨hs, ht⟩

theorem not_mem_of_isQuiet {d : Char} (hd : isPlain d = false) (hslash : d ≠ '/') {cs : List Char}
    (h : isQuiet cs = true) : d ∉ cs := by
  fun_induction isQuiet cs with
  | case1 => exact List.not_mem_nil
  | case2 cs ih =>
      rw [List.mem_cons, List.mem_cons, not_or, not_or]
      refine ⟨hslash, ?_, ih h⟩
      rintro rfl
      exact absurd hd (by decide)
  | case3 c cs _ ih =>
      rw [Bool.and_eq_true] at h
      rw [List.mem_cons, not_or]
      refine ⟨?_, ih h.2⟩
      rintro rfl
      exact Bool.false_ne_true (hd.symm.trans h.1)

theorem Quiet.oneLine {s : String} (h : Quiet s) : OneLine s :=
  not_mem_of_isQuiet (by decide) (by decide) h

end Text

open Text (Quiet)

namespace Identifier.Supply

theorem quiet_fresh (s : Supply) (label : String) : Quiet (s.fresh label).1 := by
  refine Text.quiet_of_isPlain fun c hc => ?_
  exact Text.isPlain_of (P := fun c => c.isAlphanum ∨ c = '_') (by decide) (by decide) (by decide)
    ((wellFormed_fresh label).chars c hc)

theorem quiet_temporary (s : Supply) : Quiet s.temporary.1 :=
  Quiet.append (by decide) (Text.quiet_repr s.temporaries)

theorem Gives.quiet {s s' : Supply} {names : List String} (h : s.Gives names s') :
    ∀ n ∈ names, Quiet n := by
  induction h with
  | nil => exact nofun
  | @fresh s _ _ label _ ih => exact List.forall_mem_cons.mpr ⟨s.quiet_fresh label, ih⟩
  | @temporary s _ _ _ ih => exact List.forall_mem_cons.mpr ⟨s.quiet_temporary, ih⟩
  | perm _ hp ih => exact fun n hn => ih n (hp.mem_iff.mpr hn)

end Identifier.Supply

section Literals

theorem quiet_positionalText {digits : List Char} (h : ∀ c ∈ digits, Text.isPlain c = true)
    (exponent : Int) : Quiet (positionalText digits exponent) := by
  have hzeros (n : Nat) : ∀ c ∈ List.replicate n '0', Text.isPlain c = true := by
    intro c hc
    rw [List.eq_of_mem_replicate hc]
    decide
  rw [positionalText]
  split
  · refine Quiet.append (Text.quiet_of_isPlain ?_) (by decide)
    rw [String.toList_ofList]
    exact List.forall_mem_append.mpr ⟨h, hzeros _⟩
  · have hpadded := fun n => List.forall_mem_append.mpr ⟨hzeros n, h⟩
    refine Quiet.append (Quiet.append (Text.quiet_of_isPlain ?_) (by decide))
      (Text.quiet_of_isPlain ?_)
    · rw [String.toList_ofList]
      exact fun c hc => hpadded _ c (List.mem_of_mem_take hc)
    · rw [String.toList_ofList]
      exact fun c hc => hpadded _ c (List.mem_of_mem_drop hc)

theorem quiet_scientificText {digits : List Char} (h : ∀ c ∈ digits, Text.isPlain c = true)
    (leading : Int) : Quiet (scientificText digits leading) := by
  refine Quiet.append (Quiet.append (Text.quiet_of_isPlain ?_) (by decide))
    (Text.quiet_toString_int leading)
  rw [String.toList_ofList]
  split
  · rw [List.forall_mem_cons] at h
    exact List.forall_mem_cons.mpr ⟨h.1, List.forall_mem_cons.mpr ⟨by decide, h.2⟩⟩
  · exact h

theorem Single.Decimal.quiet_text (d : Single.Decimal) : Quiet d.text := by
  have hdigits : ∀ c ∈ (toString d.digits).toList, Text.isPlain c = true := by
    intro c hc
    rw [Nat.toString_eq_repr, Nat.toList_repr] at hc
    exact Text.isPlain_of_isDigit (Nat.isDigit_of_mem_toDigits (by decide) (by decide) hc)
  rw [Single.Decimal.text]
  split
  · exact quiet_positionalText hdigits _
  · exact quiet_scientificText hdigits _

theorem Single.quiet_text (x : Single) : Quiet x.text := by
  have hmagnitude : Quiet x.magnitudeText := by
    rw [Single.magnitudeText]
    split
    · decide
    · split
      · decide
      · exact Single.Decimal.quiet_text _
  rw [Single.text]
  split
  · decide
  · split
    · exact Quiet.append (by decide) hmagnitude
    · exact hmagnitude

theorem Literal.quiet_text (v : Literal) : Quiet v.text := by
  cases v with
  | bool b => cases b <;> decide
  | int n =>
      rw [Literal.text]
      split
      · decide
      · exact Text.quiet_toString_int _
  | uint n => exact Quiet.append (Text.quiet_repr n.toNat) (by decide)
  | float x => exact x.quiet_text

theorem Swizzle.quiet_text (s : Swizzle) : Quiet s.text := by
  refine Text.quiet_of_isPlain fun c hc => ?_
  rw [Swizzle.text, String.toList_ofList] at hc
  obtain ⟨component, -, rfl⟩ := List.mem_map.mp hc
  cases component <;> decide

theorem Leaf.quiet_name (t : Leaf) : Quiet t.name := by
  have h : ∀ t ∈ Leaf.all, Quiet t.name := by decide
  exact h t t.mem_all

end Literals

namespace Dialect

theorem BinaryOp.quiet_spaced (op : BinaryOp) : Quiet (" " ++ op.symbol ++ " ") := by
  cases op <;> decide

theorem UnaryOp.quiet_symbol (op : UnaryOp) : Quiet op.symbol := by
  cases op <;> decide

theorem quiet_indent (level : Nat) : Quiet (indent level) := by
  refine Text.quiet_of_isPlain fun c hc => ?_
  rw [indent, String.toList_ofList] at hc
  rw [List.eq_of_mem_replicate hc]
  decide

namespace Expr

def Quiet (e : Expr) : Prop := Text.Quiet e.text

instance (e : Expr) : Decidable e.Quiet := inferInstanceAs (Decidable (Text.Quiet e.text))

theorem quiet_literal (v : Literal) : (literal v).Quiet := v.quiet_text

theorem quiet_var {n : String} (h : Text.Quiet n) : (var n).Quiet := h

theorem quiet_index {e : Expr} (h : e.Quiet) (i : Nat) : (index e i).Quiet :=
  ((h.append (by decide)).append (Text.quiet_repr i)).append (by decide)

theorem quiet_swizzle {e : Expr} (h : e.Quiet) (s : Swizzle) : (swizzle e s).Quiet :=
  (h.append (by decide)).append s.quiet_text

theorem quiet_field {e : Expr} (h : e.Quiet) {n : String} (hn : Text.Quiet n) :
    (field e n).Quiet :=
  (h.append (by decide)).append hn

theorem quiet_unary (op : UnaryOp) {e : Expr} (h : e.Quiet) : (unary op e).Quiet :=
  ((Text.Quiet.append (by decide) op.quiet_symbol).append h).append (by decide)

theorem quiet_binary (op : BinaryOp) {l r : Expr} (hl : l.Quiet) (hr : r.Quiet) :
    (binary op l r).Quiet := by
  have htext :
      (binary op l r).text = "(" ++ l.text ++ (" " ++ op.symbol ++ " ") ++ r.text ++ ")" := by
    simp only [text, String.append_assoc]
  rw [Quiet, htext]
  exact (((Text.Quiet.append (by decide) hl).append op.quiet_spaced).append hr).append (by decide)

theorem quiet_call {f : Callee} (hf : Text.Quiet f.name) {args : List Expr}
    (h : ∀ x ∈ args, x.Quiet) : (call f args).Quiet := by
  have hmore {es : List Expr} (h : ∀ x ∈ es, x.Quiet) : Text.Quiet (moreArgsText es) := by
    induction es with
    | nil => exact (by decide : Text.Quiet "")
    | cons e es ih =>
        obtain ⟨he, hes⟩ := List.forall_mem_cons.mp h
        exact (Text.Quiet.append (by decide) he).append (ih hes)
  have hargs : Text.Quiet (argsText args) := by
    cases args with
    | nil => exact (by decide : Text.Quiet "")
    | cons e es =>
        obtain ⟨he, hes⟩ := List.forall_mem_cons.mp h
        exact Text.Quiet.append he (hmore hes)
  exact ((hf.append (by decide)).append hargs).append (by decide)

theorem quiet_native {n : String} (hn : Text.Quiet n) {args : List Expr}
    (h : ∀ x ∈ args, x.Quiet) : (native n args).Quiet :=
  quiet_call (f := .native n) hn h

theorem quiet_user {n : String} (hn : Text.Quiet n) {args : List Expr}
    (h : ∀ x ∈ args, x.Quiet) : (user n args).Quiet :=
  quiet_call (f := .user n) hn h

end Expr

def Ty.Quiet (t : Ty) : Prop := Text.Quiet t.name

theorem Ty.quiet_leaf (t : Leaf) : (Ty.leaf t).Quiet := t.quiet_name

namespace Stmt

def Quiet (ss : List Stmt) : Prop := ∀ level, ∀ line ∈ linesOf level ss, Text.Quiet line

theorem quiet_nil : Quiet [] := nofun

theorem Quiet.cons {s : Stmt} {ss : List Stmt}
    (hs : ∀ level, ∀ line ∈ s.lines level, Text.Quiet line) (h : Quiet ss) : Quiet (s :: ss) :=
  fun level => List.forall_mem_append.mpr ⟨hs level, h level⟩

theorem Quiet.append {ss ss' : List Stmt} (h : Quiet ss) (h' : Quiet ss') : Quiet (ss ++ ss') := by
  induction ss with
  | nil => exact h'
  | cons s ss ih =>
      refine .cons (fun level => (List.forall_mem_append.mp (h level)).1) (ih fun level => ?_)
      exact (List.forall_mem_append.mp (h level)).2

variable {n : String} {ss : List Stmt}

theorem Quiet.declare (hn : Text.Quiet n) {ty : Ty} (ht : ty.Quiet) (h : Quiet ss) :
    Quiet (.declare n ty none :: ss) := by
  refine .cons (fun level => List.forall_mem_singleton.mpr ?_) h
  exact ((((quiet_indent level).append ht).append (by decide)).append hn).append (by decide)

theorem quiet_init (hn : Text.Quiet n) {ty : Ty} (ht : ty.Quiet) {e : Expr} (he : e.Quiet)
    (h : Quiet ss) : Quiet (.declare n ty (some e) :: ss) := by
  refine .cons (fun level => List.forall_mem_singleton.mpr ?_) h
  exact ((((((quiet_indent level).append ht).append (by decide)).append hn).append
    (by decide)).append he).append (by decide)

theorem quiet_assign (hn : Text.Quiet n) {e : Expr} (he : e.Quiet) : Quiet [.assign n e] := by
  refine .cons (fun level => List.forall_mem_singleton.mpr ?_) quiet_nil
  exact ((((quiet_indent level).append hn).append (by decide)).append he).append (by decide)

theorem quiet_return {e : Expr} (he : e.Quiet) : Quiet [.return e] := by
  refine .cons (fun level => List.forall_mem_singleton.mpr ?_) quiet_nil
  exact (((quiet_indent level).append (by decide)).append he).append (by decide)

theorem quiet_cond {c : Expr} (hc : c.Quiet) {accept reject : List Stmt} (ha : Quiet accept)
    (hr : Quiet reject) : Quiet [.cond c accept reject] := by
  refine .cons (fun level => ?_) quiet_nil
  have hopen : Text.Quiet (indent level ++ "if (" ++ c.text ++ ") \x7b") :=
    (((quiet_indent level).append (by decide)).append hc).append (by decide)
  have helse : Text.Quiet (indent level ++ "\x7d else \x7b") :=
    (quiet_indent level).append (by decide)
  have hclose : Text.Quiet (indent level ++ "\x7d") := (quiet_indent level).append (by decide)
  simp only [lines, List.forall_mem_append, List.forall_mem_singleton]
  refine ⟨⟨⟨hopen, ha (level + 1)⟩, ?_⟩, hclose⟩
  split
  · exact nofun
  · exact List.forall_mem_append.mpr ⟨List.forall_mem_singleton.mpr helse, hr (level + 1)⟩

theorem quiet_block {body : List Stmt} (h : Quiet body) : Quiet [.block body] := by
  refine .cons (fun level => ?_) quiet_nil
  simp only [lines, List.forall_mem_append, List.forall_mem_singleton]
  exact ⟨⟨(quiet_indent level).append (by decide), h (level + 1)⟩,
    (quiet_indent level).append (by decide)⟩

end Stmt

namespace Decl

def Quiet (d : Decl) : Prop := ∀ line ∈ d.kindLines, Text.Quiet line

variable {d : Decl} (hd : Text.Quiet d.name)
include hd

theorem quiet_struct {fields : List Variable} (hk : d.kind = .struct fields)
    (hf : ∀ f ∈ fields, f.ty.Quiet ∧ Text.Quiet f.name) : d.Quiet := by
  rw [Quiet, kindLines, hk]
  simp only [List.forall_mem_append, List.forall_mem_singleton, List.forall_mem_map]
  refine ⟨⟨(Text.Quiet.append (by decide) hd).append (by decide), fun f hmem => ?_⟩, by decide⟩
  obtain ⟨ht, hn⟩ := hf f hmem
  exact ((quiet_indent 1).append ((ht.append (by decide)).append hn)).append (by decide)

theorem quiet_function {params : List Variable} {result : Ty} {body : List Stmt}
    (hk : d.kind = .function params result body)
    (hp : ∀ q ∈ params, q.ty.Quiet ∧ Text.Quiet q.name) (hr : result.Quiet)
    (hb : Stmt.Quiet body) : d.Quiet := by
  have hparams : Text.Quiet (String.intercalate ", " (params.map Variable.text)) := by
    refine Text.quiet_intercalate (by decide) (List.forall_mem_map.mpr fun q hq => ?_)
    exact ((hp q hq).1.append (by decide)).append (hp q hq).2
  rw [Quiet, kindLines, hk]
  simp only [List.forall_mem_append, List.forall_mem_singleton]
  refine ⟨⟨?_, hb 1⟩, by decide⟩
  exact ((((hr.append (by decide)).append hd).append (by decide)).append hparams).append (by decide)

theorem quiet_constant {ty : Ty} {value : Expr} (hk : d.kind = .constant ty value)
    (ht : ty.Quiet) (hv : value.Quiet) : d.Quiet := by
  rw [Quiet, kindLines, hk]
  refine List.forall_mem_singleton.mpr ?_
  exact (((((Text.Quiet.append (by decide) ht).append (by decide)).append hd).append
    (by decide)).append hv).append (by decide)

end Decl

structure Main.Quiet (m : Main) : Prop where
  statements : Stmt.Quiet m.statements
  discards : ∀ e ∈ m.discards, e.Quiet
  values : ∀ o ∈ m.outputs, o.value.Quiet
  sinks : ∀ o ∈ m.outputs, Text.Quiet o.sink.text

theorem Main.Quiet.lines {m : Main} (h : m.Quiet) : ∀ line ∈ m.lines, Text.Quiet line := by
  rw [Main.lines]
  simp only [List.forall_mem_append, List.forall_mem_singleton, List.forall_mem_flatMap,
    List.forall_mem_map]
  refine ⟨⟨⟨⟨by decide, h.statements 1⟩, fun e he => ?_⟩, fun o ho => ?_⟩, by decide⟩
  · simp only [Main.discardLines, List.forall_mem_cons]
    refine ⟨?_, by decide, by decide, nofun⟩
    exact Text.Quiet.append (Text.Quiet.append (by decide) (h.discards e he)) (by decide)
  · exact (((Text.Quiet.append (by decide) (h.sinks o ho)).append (by decide)).append
      (h.values o ho)).append (by decide)

/-- The shader is made of quiet pieces, apart from its comments. -/
structure Shader.Quiet (s : Shader) : Prop where
  uniforms : ∀ u ∈ s.uniforms, Text.Quiet u.name
  inputs : ∀ x ∈ s.inputs, Text.Quiet x.name
  outputs : ∀ x ∈ s.outputs, Text.Quiet x.name
  decls : ∀ d ∈ s.decls, d.Quiet
  main : s.main.Quiet

theorem Storage.quiet_text (storage : Storage) : Text.Quiet storage.text := by
  have hflat (flat : Bool) : Text.Quiet (if flat then "flat " else "") := by
    cases flat <;> decide
  cases storage with
  | «attribute» | varying => decide
  | input flat => exact (hflat flat).append (by decide)
  | output flat location =>
      refine Text.Quiet.append (Text.Quiet.append ?_ (hflat flat)) (by decide)
      cases location with
      | none => exact (by decide : Text.Quiet "")
      | some n => exact (Text.Quiet.append (by decide) (Text.quiet_repr n)).append (by decide)

theorem quiet_directive (v : Version) : Text.Quiet v.directive := by
  cases v with
  | embedded v => cases v <;> decide
  | full v => exact Text.Quiet.append (by decide) (Text.quiet_repr v.number)

theorem Shader.Quiet.headerLines {s : Shader} (h : s.Quiet) {config : Config}
    (hc : config.sourceComments = false) : ∀ line ∈ s.headerLines config, Text.Quiet line := by
  have hvar (x : InterfaceVar) (hx : Text.Quiet x.name) : Text.Quiet x.line :=
    (((x.storage.quiet_text.append x.leaf.quiet_name).append (by decide)).append hx).append
      (by decide)
  simp only [Shader.headerLines, hc, List.forall_mem_append, List.forall_mem_map]
  refine ⟨⟨⟨⟨?_, nofun⟩, ?_⟩, fun u hu => ?_⟩, fun x hx => hvar x (h.inputs x hx),
    fun x hx => hvar x (h.outputs x hx)⟩
  · split
    · exact List.forall_mem_singleton.mpr (quiet_directive s.version)
    · exact nofun
  · split
    · refine List.forall_mem_singleton.mpr ?_
      cases config.precision <;> decide
    · exact nofun
  · exact (((Text.Quiet.append (by decide) u.leaf.quiet_name).append (by decide)).append
      (h.uniforms u hu)).append (by decide)

theorem Shader.Quiet.lines {s : Shader} (h : s.Quiet) {config : Config}
    (hc : config.sourceComments = false) : ∀ line ∈ s.lines config, Text.Quiet line := by
  have hempty : ∀ line ∈ [""], Text.Quiet line := by decide
  simp only [Shader.lines, List.forall_mem_append, List.forall_mem_flatMap]
  refine ⟨⟨?_, fun d hd => ?_⟩, h.main.lines⟩
  · split
    · exact nofun
    · exact List.forall_mem_append.mpr ⟨h.headerLines hc, hempty⟩
  · rw [Decl.lines, hc, List.forall_mem_append]
    exact ⟨h.decls d hd, hempty⟩

end Dialect

end ShaderDialects
