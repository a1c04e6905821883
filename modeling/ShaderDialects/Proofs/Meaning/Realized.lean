import ShaderDialects.Proofs.Lowering.Context
import ShaderDialects.Proofs.Meaning.Soundness

namespace ShaderDialects

open Dialect (Env)
open Identifier (Supply)
open Value (HasTys)

variable {α : Type}

def World.image (w : World α) (v : Val α) : Dialect.Val α := v.retag w.program.fieldNames

@[simp]
theorem World.image_leaf (w : World α) (a : α) : w.image (.leaf a) = .leaf a := rfl

@[simp]
theorem World.image_record (w : World α) (i : Nat) (vs : List (Val α)) :
    w.image (.record i vs) = .record (w.program.fieldNames i) (vs.map w.image) := by
  rw [image, Value.retag, Value.retagAll_eq_map]
  rfl

@[simp]
theorem World.leaf?_image (w : World α) (v : Val α) : (w.image v).leaf? = v.leaf? :=
  Value.leaf?_retag _ v

@[simp]
theorem World.map_image_leaf (w : World α) (as : List α) :
    (as.map Value.leaf).map w.image = as.map Value.leaf := by
  simp

/-- Nothing that was named by `base` is hidden or changed. -/
def Dialect.Env.Above (env : Env α) (base : Supply) (globals : Env α) : Prop :=
  ∀ n, base.Knows n → env.lookup n = globals.lookup n

theorem Dialect.Env.Above.read {base : Supply} {globals env : Env α} (h : env.Above base globals)
    {n : String} (hn : base.Knows n) : env.read n = globals.read n := by
  rw [Env.read, Env.read, h n hn]

theorem Dialect.Env.Above.call {base : Supply} {globals env : Env α} (h : env.Above base globals)
    {n : String} (hn : base.Knows n) : env.call n = globals.call n := by
  funext args
  rw [Env.call, Env.call, h n hn]

namespace Lowering

variable (c : Context) (w : World α) (m : Meaning α) (base : Supply) (globals : Env α)

/-- What a form refers to does what the term means. -/
def TermForm.Means (i : Nat) : TermForm → Prop
  | function name | emulatedFunction name =>
      base.Knows name ∧ ∃ f, globals.lookup name = some (.function f) ∧
        ∀ tys ty args, w.program.functionTy? i = some (tys, ty) → HasTys w.program args tys →
          f (args.map w.image) = (m.apply i args).map w.image
  | value name =>
      base.Knows name ∧ ∃ f, globals.lookup name = some (.function f) ∧
        f [] = (m.read i).map w.image
  | emulatedConstant name =>
      base.Knows name ∧ globals.lookup name = some (.constant ((m.read i).map w.image))
  | native form =>
      m.read i = some (.leaf (w.interpretation.native form [])) ∧
        ∀ tys ty args, w.program.functionTy? i = some (tys, ty) → HasTys w.program args tys →
          ∃ as, args = as.map .leaf ∧
            m.apply i args = some (.leaf (w.interpretation.native form as))

/-- All identifiers of the context were named by `base`, and stand in `globals` for what they
were made from. -/
structure Realized : Prop where
  program : c.program = w.program
  inputs : ∀ (i : Nat) (item : Item), c.interface.inputs[i]? = some item → base.Knows item.ident ∧
    ∃ a, w.inputs[i]? = some a ∧ globals.lookup item.ident = some (.constant (some (.leaf a)))
  uniforms : ∀ i path u, c.uniform? i path = some u → base.Knows u.ident ∧
    ∃ v a, w.parameters[i]? = some v ∧ v.part? path = some (.leaf a) ∧
      globals.lookup u.ident = some (.constant (some (.leaf a)))
  structs : ∀ i names, c.structs.lookup i = some names → base.Knows names.name ∧
    names.fields = w.program.fieldNames i ∧
      globals.lookup names.name = some (.struct (w.program.fieldNames i))
  terms : ∀ i form, c.terms.lookup i = some form → form.Means w m base globals i

variable {c w m base globals} {env : Env α}

theorem lookup_zip {κ β : Type} [BEq κ] [LawfulBEq κ] {names : List κ} {vs : List β}
    (hn : names.Nodup) (hl : names.length = vs.length) {i : Nat} {name : κ}
    (hi : names[i]? = some name) : (names.zip vs).lookup name = vs[i]? := by
  induction names generalizing vs i with
  | nil => simp at hi
  | cons n names ih =>
      obtain ⟨hmem, hn⟩ := List.nodup_cons.mp hn
      cases vs with
      | nil => simp at hl
      | cons v vs =>
          cases i with
          | zero =>
              obtain rfl : n = name := by simpa using hi
              simp
          | succ i =>
              rw [List.getElem?_cons_succ] at hi
              have hne : name ≠ n := fun h => hmem (h ▸ List.mem_of_getElem? hi)
              rw [List.zip_cons_cons, List.lookup_cons, beq_false_of_ne hne]
              exact ih hn (by simpa using hl) hi

theorem select_image {r i : Nat} {vs : List (Val α)} {tys : List Ty} {name : String}
    (ht : w.program.fieldTys? r = some tys) (hl : vs.length = tys.length)
    (hn : (w.program.fieldNames r)[i]? = some name) :
    Dialect.select name (w.image (.record r vs)) = (vs[i]?).map w.image := by
  rw [World.image_record, Dialect.select]
  have hlen : (w.program.fieldNames r).length = (vs.map w.image).length := by
    rw [Program.length_fieldNames ht, List.length_map, hl]
  rw [← List.getElem?_map]
  exact lookup_zip (Program.nodup_fieldNames _ _) hlen hn

section Extend

variable {base' : Supply} {globals' : Env α} (hk : ∀ n, base.Knows n → base'.Knows n)
  (ha : globals'.Above base globals)
include hk ha

theorem TermForm.Means.above {i : Nat} {form : TermForm} (h : form.Means w m base globals i) :
    form.Means w m base' globals' i := by
  cases form with
  | function name | emulatedFunction name =>
      obtain ⟨hn, f, hl, hf⟩ := h
      exact ⟨hk _ hn, f, by rw [ha _ hn, hl], hf⟩
  | value name =>
      obtain ⟨hn, f, hl, hf⟩ := h
      exact ⟨hk _ hn, f, by rw [ha _ hn, hl], hf⟩
  | emulatedConstant name =>
      obtain ⟨hn, hl⟩ := h
      exact ⟨hk _ hn, by rw [ha _ hn, hl]⟩
  | native form => exact h

theorem Realized.above (R : Realized c w m base globals) : Realized c w m base' globals' where
  program := R.program
  inputs i item hi := by
    obtain ⟨hn, a, hv, hl⟩ := R.inputs i item hi
    exact ⟨hk _ hn, a, hv, by rw [ha _ hn, hl]⟩
  uniforms i path u hu := by
    obtain ⟨hn, v, a, hv, hp, hl⟩ := R.uniforms i path u hu
    exact ⟨hk _ hn, v, a, hv, hp, by rw [ha _ hn, hl]⟩
  structs i names hs := by
    obtain ⟨hn, hf, hl⟩ := R.structs i names hs
    exact ⟨hk _ hn, hf, by rw [ha _ hn, hl]⟩
  terms i form hf := (R.terms i form hf).above hk ha

end Extend

theorem Realized.addStruct (R : Realized c w m base globals) {i : Nat} {names : StructNames}
    (hn : base.Knows names.name) (hf : names.fields = w.program.fieldNames i)
    (hl : globals.lookup names.name = some (.struct (w.program.fieldNames i))) :
    Realized { c with structs := (i, names) :: c.structs } w m base globals where
  __ := R
  structs j names' h := by
    rcases lookup_cons_eq_some h with ⟨rfl, rfl⟩ | h
    · exact ⟨hn, hf, hl⟩
    · exact R.structs j names' h

theorem Realized.addTerm (R : Realized c w m base globals) {i : Nat} {form : TermForm}
    (hm : form.Means w m base globals i) :
    Realized { c with terms := (i, form) :: c.terms } w m base globals where
  __ := R
  terms j form' h := by
    rcases lookup_cons_eq_some h with ⟨rfl, rfl⟩ | h
    · exact hm
    · exact R.terms j form' h

namespace Realized

variable (R : Realized c w m base globals) (he : env.Above base globals)
include R he

theorem eval_readTerm {t : Nat} {x : Dialect.Expr} (hx : c.readTerm t = .ok x) :
    x.eval w.interpretation env = (m.read t).map w.image := by
  obtain ⟨form, hf, hx⟩ := Context.readTerm_eq_ok.mp hx
  have hm := R.terms t form hf
  cases form with
  | value name =>
      cases hx
      obtain ⟨hn, f, hl, hv⟩ := hm
      simp [Dialect.Expr.user, Dialect.Expr.eval, Dialect.Expr.evalAll, he.call hn, Env.call, hl, hv]
  | emulatedConstant name =>
      cases hx
      obtain ⟨hn, hl⟩ := hm
      rw [Dialect.Expr.eval, he.read hn, Env.read, hl]
  | function name | emulatedFunction name => simp [TermForm.read?] at hx
  | native form =>
      cases form with
      | var name =>
          cases hx
          rw [hm.1]
          rfl
      | _ => simp [TermForm.read?] at hx

omit R he in
theorem eval_build {form : Form} {xs : List Dialect.Expr} {x : Dialect.Expr}
    (hx : form.build? xs = some x) :
    x.eval w.interpretation env = (Dialect.Expr.evalAll w.interpretation env xs).bind
      (Dialect.applyNative w.interpretation form) := by
  cases form with
  | call name =>
      cases hx
      rfl
  | binary op =>
      obtain ⟨l, r, rfl, rfl⟩ := Form.build?_binary.mp hx
      simp [Dialect.Expr.eval, Dialect.Expr.evalAll, Option.bind_assoc, Option.map_eq_bind]
  | unary op =>
      obtain ⟨operand, rfl, rfl⟩ := Form.build?_unary.mp hx
      simp [Dialect.Expr.eval, Dialect.Expr.evalAll, Option.map_eq_bind, Option.bind_assoc]
  | var name => cases hx

theorem eval_applyTerm {f : Nat} {xs : List Dialect.Expr} {x : Dialect.Expr}
    (hx : c.applyTerm f xs = .ok x) {tys : List Ty} {ty : Ty}
    (hf : w.program.functionTy? f = some (tys, ty)) {args : Option (List (Val α))}
    (ht : ∀ vs, args = some vs → HasTys w.program vs tys)
    (hxs : Dialect.Expr.evalAll w.interpretation env xs = args.map (List.map w.image)) :
    x.eval w.interpretation env = (args.bind (m.apply f)).map w.image := by
  obtain ⟨form, hform, hx⟩ := Context.applyTerm_eq_ok.mp hx
  have hm := R.terms f form hform
  cases form with
  | function name | emulatedFunction name =>
      cases hx
      obtain ⟨hn, g, hl, hg⟩ := hm
      rw [Dialect.Expr.user, Dialect.Expr.eval, hxs, he.call hn]
      cases args with
      | none => rfl
      | some vs => simp [Env.call, hl, hg tys ty vs hf (ht vs rfl)]
  | value name | emulatedConstant name => cases hx
  | native form =>
      rw [eval_build hx, hxs]
      cases args with
      | none => rfl
      | some vs =>
          obtain ⟨as, rfl, hv⟩ := hm.2 tys ty vs hf (ht vs rfl)
          rw [Option.map_some, World.map_image_leaf]
          simp [Dialect.applyNative, Value.leaves?_map_leaf, hv]

theorem eval_construct {r : Nat} {names : StructNames} (hn : c.structNames r = .ok names)
    {tys : List Ty} (hr : w.program.fieldTys? r = some tys) {xs : List Dialect.Expr}
    {args : Option (List (Val α))} (ht : ∀ vs, args = some vs → HasTys w.program vs tys)
    (hxs : Dialect.Expr.evalAll w.interpretation env xs = args.map (List.map w.image)) :
    (Dialect.Expr.user names.name xs).eval w.interpretation env
      = (args.map (Value.record r)).map w.image := by
  obtain ⟨hk, _, hl⟩ := R.structs r names (Context.structNames_eq_ok.mp hn)
  rw [Dialect.Expr.user, Dialect.Expr.eval, hxs, he.call hk]
  cases args with
  | none => rfl
  | some vs =>
      have hlen : (w.program.fieldNames r).length = vs.length := by
        rw [Program.length_fieldNames hr, (ht vs rfl).length_eq]
      simp [Env.call, hl, hlen]

omit he in
theorem eval_field {base' : Ty} {i : Nat} {name : String} (hn : c.fieldName base' i = .ok name)
    {x : Dialect.Expr} {value : Option (Val α)}
    (ht : ∀ v, value = some v → v.HasTy w.program base')
    (hx : x.eval w.interpretation env = value.map w.image) :
    (x.field name).eval w.interpretation env
      = (value.bind fun v => v.field? i).map w.image := by
  obtain ⟨r, names, rfl, hs, hi⟩ := Context.fieldName_eq_ok.mp hn
  obtain ⟨_, hfields, _⟩ := R.structs r names hs
  rw [Dialect.Expr.eval, hx]
  cases value with
  | none => rfl
  | some v =>
      obtain ⟨vs, tys, rfl, htys, hvs⟩ := (ht v rfl).record
      exact select_image htys hvs.length_eq (hfields ▸ hi)

omit R he in
theorem evalAll_rebuilt {depth parameter : Nat} {root : Val α} {path : List Nat}
    (ih : ∀ k ty x v, c.rebuildWithin depth parameter (path ++ [k]) ty = .ok x →
      root.part? (path ++ [k]) = some v → v.HasTy w.program ty →
        x.eval w.interpretation env = some (w.image v))
    {fields : List Field} {start : Nat} {args : List Dialect.Expr} {vs : List (Val α)}
    (hargs : List.Forall₂ (fun fk y =>
      c.rebuildWithin depth parameter (path ++ [fk.2]) fk.1.ty = .ok y)
      (fields.zipIdx start) args)
    (hvs : HasTys w.program vs (fields.map Field.ty))
    (hpart : ∀ k v, vs[k]? = some v → root.part? (path ++ [start + k]) = some v) :
    Dialect.Expr.evalAll w.interpretation env args = some (vs.map w.image) := by
  induction fields generalizing start args vs with
  | nil =>
      cases hargs
      cases vs with
      | nil => rfl
      | cons v vs => simp [HasTys] at hvs
  | cons f fields ihf =>
      cases vs with
      | nil => simp [HasTys] at hvs
      | cons v vs =>
          rw [List.zipIdx_cons] at hargs
          obtain ⟨y, ys, hy, hys, rfl⟩ := List.forall₂_cons_left_iff.mp hargs
          have hv := ih start f.ty y v hy (hpart 0 v rfl) hvs.1
          have hrest := ihf hys hvs.2 fun k u hu => by
            rw [Nat.add_assoc, Nat.add_comm 1 k]
            exact hpart (k + 1) u hu
          rw [Dialect.Expr.evalAll, hv, hrest]
          rfl

/-- What is rebuilt from uniforms is the part of the parameter that they are the leaves of. -/
theorem eval_rebuildWithin {depth parameter : Nat} {root : Val α}
    (hroot : w.parameters[parameter]? = some root) {path : List Nat} {ty : Ty} {x : Dialect.Expr}
    (hx : c.rebuildWithin depth parameter path ty = .ok x) {v : Val α}
    (hv : root.part? path = some v) (ht : v.HasTy w.program ty) :
    x.eval w.interpretation env = some (w.image v) := by
  induction depth using Nat.strongRecOn generalizing path ty x v with
  | ind depth ih =>
      cases ty with
      | leaf t =>
          obtain ⟨u, hu, rfl⟩ := Context.rebuildWithin_leaf.mp hx
          obtain ⟨hk, root', a, hroot', hpart, hl⟩ := R.uniforms parameter path u hu
          cases hroot.symm.trans hroot'
          cases hv.symm.trans hpart
          rw [Dialect.Expr.eval, he.read hk, Env.read, hl]
          rfl
      | record i =>
          obtain ⟨_, r, hr, d, rfl, args, hargs, names, hn, rfl⟩ :=
            Context.rebuildWithin_record.mp hx
          obtain ⟨vs, tys, rfl, htys, hvs⟩ := ht.record
          have htys' : r.fields.map Field.ty = tys := by
            simpa [Program.fieldTys?, ← R.program, hr] using htys
          have hpart (k : Nat) (u : Val α) (hu : vs[k]? = some u) :
              root.part? (path ++ [0 + k]) = some u := by
            rw [Value.part?_append, hv]
            simpa [Value.part?, Value.field?] using hu
          have hxs : Dialect.Expr.evalAll w.interpretation env args = some (vs.map w.image) :=
            evalAll_rebuilt (fun k ty x v hx hv ht => ih d (Nat.lt_succ_self d) hx hv ht) hargs
              (htys' ▸ hvs) hpart
          have hargs (us : List (Val α)) (h : some vs = some us) : HasTys w.program us tys :=
            Option.some.inj h ▸ hvs
          exact R.eval_construct he (Context.structNames_eq_ok.mpr hn) htys hargs hxs

end Realized

end Lowering

end ShaderDialects
