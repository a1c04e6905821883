import Mathlib.Data.List.Lex
import Mathlib.Order.Lattice
import ShaderDialects.Proofs.Dialect.Piece
import ShaderDialects.Proofs.Lowering.Outputs

namespace ShaderDialects.Legality

open Dialect (InterfaceVar OutputWrite Piece Sink Storage)

section Finds

variable {ι κ α β : Type} [LT ι] [LT κ]

/-- `Finds V r`: of all that `V` has at places, `r` is what it has at the first place. -/
inductive Finds (V : ι → α → Prop) : Option α → Prop where
  | none (h : ∀ p a, ¬ V p a) : Finds V none
  | some {p a} (h : V p a) (first : ∀ p' a', V p' a' → p' = p ∧ a' = a ∨ p < p') :
      Finds V (some a)

namespace Finds

variable {V V' : ι → α → Prop} {r r' : Option α}

theorem congr (h : Finds V r) (hV : ∀ p a, V' p a ↔ V p a) : Finds V' r := by
  obtain rfl : V' = V := funext fun p => funext fun a => propext (hV p a)
  exact h

theorem empty : Finds (fun (_ : ι) (_ : α) => False) .none := .none fun _ _ => not_false

theorem single {P : α → Prop} (h : ∀ a, r = .some a ↔ P a) (p : ι) :
    Finds (fun p' a => p' = p ∧ P a) r := by
  cases r with
  | none =>
      refine .none ?_
      rintro p' a ⟨-, ha⟩
      cases (h a).mpr ha
  | some a =>
      refine .some ⟨rfl, (h a).mp rfl⟩ ?_
      rintro p' a' ⟨rfl, ha'⟩
      exact .inl ⟨rfl, (Option.some.inj ((h a').mpr ha')).symm⟩

theorem orElse (h : Finds V r) (h' : Finds V' r')
    (hlt : ∀ p a p' a', V p a → V' p' a' → p < p') :
    Finds (fun p a => V p a ∨ V' p a) (r <|> r') := by
  cases h with
  | none hV => exact h'.congr fun p a => or_iff_right (hV p a)
  | @some p a ha first =>
      refine .some (.inl ha) ?_
      rintro p' a' (ha' | ha')
      · exact first p' a' ha'
      · exact .inr (hlt p a p' a' ha ha')

theorem ite {c : Prop} [Decidable c] {p : ι} {a : α} (h : Finds V r)
    (hlt : ∀ p' a', V p' a' → p < p') :
    Finds (fun p' a' => (c ∧ p' = p ∧ a' = a) ∨ V p' a') (if c then .some a else r) := by
  split
  next hc =>
    refine .some (.inl ⟨hc, rfl, rfl⟩) ?_
    rintro p' a' (⟨-, ha⟩ | ha)
    · exact .inl ha
    · exact .inr (hlt p' a' ha)
  next hc => exact h.congr fun p' a' => or_iff_right fun h => hc h.1

/-- Moving the places without changing their order changes nothing. -/
theorem image {g : ι → κ} (hg : ∀ p q, p < q → g p < g q) (h : Finds V r) :
    Finds (fun p a => ∃ q, p = g q ∧ V q a) r := by
  cases h with
  | none hV =>
      refine .none ?_
      rintro _ a ⟨q, rfl, ha⟩
      exact hV q a ha
  | @some p a ha first =>
      refine .some ⟨p, rfl, ha⟩ ?_
      rintro _ a' ⟨q, rfl, ha'⟩
      rcases first q a' ha' with ⟨rfl, rfl⟩ | hlt
      · exact .inl ⟨rfl, rfl⟩
      · exact .inr (hg p q hlt)

theorem map (f : α → β) (h : Finds V r) : Finds (fun p b => ∃ a, V p a ∧ f a = b) (r.map f) := by
  cases h with
  | none hV =>
      refine .none ?_
      rintro p _ ⟨a, ha, -⟩
      exact hV p a ha
  | @some p a ha first =>
      refine .some ⟨a, ha, rfl⟩ ?_
      rintro p' _ ⟨a', ha', rfl⟩
      rcases first p' a' ha' with ⟨rfl, rfl⟩ | hlt
      · exact .inl ⟨rfl, rfl⟩
      · exact .inr hlt

theorem eq_none_iff (h : Finds V r) : r = .none ↔ ∀ p a, ¬ V p a := by
  cases h with
  | none hV => exact iff_of_true rfl hV
  | @some p a ha first => exact iff_of_false (Option.some_ne_none a) fun hV => hV p a ha

theorem eq_some_iff {ι : Type} [LinearOrder ι] {V : ι → α → Prop} {a : α} (h : Finds V r) :
    r = .some a ↔ ∃ p, V p a ∧ ∀ p' a', V p' a' → p ≤ p' := by
  cases h with
  | none hV =>
      refine iff_of_false (Option.some_ne_none a).symm ?_
      rintro ⟨p, ha, -⟩
      exact hV p a ha
  | @some p b hb first =>
      constructor
      · rintro ⟨⟩
        refine ⟨p, hb, fun p' a' ha' => ?_⟩
        rcases first p' a' ha' with ⟨rfl, -⟩ | hlt
        · exact le_refl p'
        · exact hlt.le
      · rintro ⟨p', ha, hleast⟩
        rcases first p' a ha with ⟨-, rfl⟩ | hlt
        · rfl
        · exact absurd hlt (not_lt.mpr (hleast p b hb))

end Finds

theorem cons_lt_cons {k : Nat} {p q : List Nat} (h : p < q) : k :: p < k :: q :=
  List.cons_lt_cons_iff.mpr (.inr ⟨rfl, h⟩)

theorem findSome?_cons_orElse (f : β → Option α) (x : β) (xs : List β) :
    (x :: xs).findSome? f = (f x <|> xs.findSome? f) := by
  rw [List.findSome?_cons]
  cases f x <;> rfl

theorem finds_findSome? {V : List Nat → α → Prop} {f : β → Option α} {xs : List β}
    (hnil : ∀ a, ¬ V [] a) (hout : ∀ k q a, xs[k]? = none → ¬ V (k :: q) a)
    (h : ∀ k x, xs[k]? = some x → Finds (fun q a => V (k :: q) a) (f x)) :
    Finds V (xs.findSome? f) := by
  induction xs generalizing V with
  | nil =>
      refine .none fun p a ha => ?_
      cases p with
      | nil => exact hnil a ha
      | cons k q => exact hout k q a rfl ha
  | cons x xs ih =>
      -- What is found in the tail is one place further on.
      let next : List Nat → List Nat := List.modifyHead (· + 1)
      have hnext (p q : List Nat) (hlt : p < q) : next p < next q := by
        cases p <;> cases q <;> simp_all [next, List.cons_lt_cons_iff]
      have hhead := (h 0 x rfl).image fun p q => cons_lt_cons (k := 0)
      have htail : Finds (fun p a => p ≠ [] ∧ V (next p) a) (xs.findSome? f) := by
        refine ih (fun a ha => ha.1 rfl) (fun k q a hk ha => hout (k + 1) q a hk ha.2) ?_
        intro k y hy
        exact (h (k + 1) y hy).congr fun q a => and_iff_right (List.cons_ne_nil k q)
      rw [findSome?_cons_orElse]
      refine (hhead.orElse (htail.image hnext) ?_).congr fun p a => ?_
      · rintro _ a _ a' ⟨q, rfl, -⟩ ⟨_ | ⟨k, q'⟩, rfl, hne, -⟩
        · exact absurd rfl hne
        · exact List.cons_lt_cons_iff.mpr (.inl (Nat.succ_pos k))
      · constructor
        · intro ha
          rcases p with _ | ⟨_ | k, q⟩
          · exact absurd ha (hnil a)
          · exact .inl ⟨q, rfl, ha⟩
          · exact .inr ⟨k :: q, rfl, List.cons_ne_nil k q, ha⟩
        · rintro (⟨q, rfl, ha⟩ | ⟨q, rfl, -, ha⟩) <;> exact ha

theorem findSome?_flatMap {γ : Type} (xs : List β) (g : β → List γ) (f : γ → Option α) :
    (xs.flatMap g).findSome? f = xs.findSome? fun x => (g x).findSome? f := by
  simp only [← List.head?_filterMap, List.filterMap_flatMap, List.head?_flatMap]

/-- A search through all that is inside a piece, in the order it is written, finds what is at the
first place. -/
theorem finds_inside {own : Piece → Option β} {inside : Piece → List β}
    (h : ∀ x, inside x = (own x).toList ++ x.pieces.flatMap inside) (f : β → Option α) (x : Piece) :
    Finds (fun p a => ∃ y b, x.at? p = some y ∧ own y = some b ∧ f b = some a)
      ((inside x).findSome? f) := by
  induction x using Piece.induct with
  | step x ih =>
      have hown : Finds (fun (p : List Nat) a => p = [] ∧ ∃ b, own x = some b ∧ f b = some a)
          ((own x).bind f) :=
        Finds.single (fun a => Option.bind_eq_some_iff) []
      have hpieces : Finds (fun p a => p ≠ [] ∧
          ∃ y b, x.at? p = some y ∧ own y = some b ∧ f b = some a)
          (x.pieces.findSome? fun y => (inside y).findSome? f) := by
        refine finds_findSome? (fun a ha => ha.1 rfl) (fun k q a hk => ?_) fun k y hy => ?_
        · simp [Piece.at?, hk]
        · refine (ih y (List.mem_of_getElem? hy)).congr fun q a => ?_
          simp [Piece.at?, hy]
      have hsearch : (inside x).findSome? f =
          ((own x).bind f <|> x.pieces.findSome? fun y => (inside y).findSome? f) := by
        rw [h, List.findSome?_append, findSome?_flatMap]
        cases own x <;> simp
      rw [hsearch]
      refine (hown.orElse hpieces ?_).congr fun p a => ?_
      · rintro _ a (_ | ⟨k, q⟩) a' ⟨rfl, -⟩ ⟨hne, -⟩
        · exact absurd rfl hne
        · exact List.nil_lt_cons k q
      · cases p <;> simp [Piece.at?]

end Finds

section Rules

/-! What is wrong with a part of a shader, and the rank of the rule among those for such a part. -/

inductive LeafFault (v : Version) (t : Leaf) : Objection → Prop where
  | unsigned (ht : t.isUnsigned = true) (hv : v.isSince .v300 .v130 = false) :
      LeafFault v t .unsignedInteger
  | nonSquare (ht : t.isNonSquare = true) (hv : v.isSince .v300 .v120 = false) :
      LeafFault v t .nonSquareMatrix

inductive InterfaceFault (t : Leaf) : Objection → Prop where
  | boolean (ht : t.isBoolean = true) : InterfaceFault t .booleanInterface
  | sampler (ht : t.isSampler = true) : InterfaceFault t .samplerInterface

inductive StorageFault (v : Version) (interpolated : Prop) (t : Leaf) (s : Storage) :
    Nat → Objection → Prop where
  | removed (hs : s.isLegacy = true) (hv : v.isLegacy = false) :
      StorageFault v interpolated t s 2 .storageRemoved
  | integer (hs : s.isLegacy = true) (hv : v.isLegacy = true) (ht : t.isInteger = true) :
      StorageFault v interpolated t s 2 .integerInterface
  | missing (hs : s.isLegacy = false) (hv : v.isLegacy = true) :
      StorageFault v interpolated t s 2 .storageMissing
  | location {flat n} (hs : s = .output flat (some n)) (hv : v.hasLocations = false) :
      StorageFault v interpolated t s 3 .locationMissing
  | flat (hs : s.isLegacy = false) (hf : s.isFlat = false) (hi : interpolated)
      (ht : t.isInteger = true) : StorageFault v interpolated t s 4 .notFlat

inductive VariableFault (v : Version) (interpolated : Prop) (x : InterfaceVar) :
    Nat → Objection → Prop where
  | interface {o} (h : InterfaceFault x.leaf o) : VariableFault v interpolated x 0 o
  | leaf {o} (h : LeafFault v x.leaf o) : VariableFault v interpolated x 1 o
  | storage {n o} (h : StorageFault v interpolated x.leaf x.storage n o) :
      VariableFault v interpolated x n o

inductive SinkFault (v : Version) (t : Leaf) : Sink → Nat → Objection → Prop where
  | position (ht : t ≠ .vec4) : SinkFault v t .position 0 .positionNotVec4
  | removed {sink} (hs : sink.isColor = true) (hv : v.isLegacy = false) :
      SinkFault v t sink 0 .colorSinkRemoved
  | attachment {n} (hn : n ≠ 0) (hv : v = .embedded .v100) :
      SinkFault v t (.fragData n) 1 .attachmentNotZero
  | color {sink} (hs : sink.isColor = true) (hv : v.isLegacy = true) (ht : t ≠ .vec4) :
      SinkFault v t sink 2 .colorNotVec4
  | depthType (ht : t ≠ .float) : SinkFault v t .fragDepth 0 .depthNotFloat
  | depth (hv : v = .embedded .v100) : SinkFault v t .fragDepth 1 .noDepth

/-- The node is of a form that a version may lack. -/
inductive HasForm : Dialect.Expr → Form → Prop where
  | call (name : String) (args : List Dialect.Expr) : HasForm (.native name args) (.call name)
  | var (name : String) : HasForm (.builtin name) (.var name)
  | binary (op : Dialect.BinaryOp) (l r : Dialect.Expr) : HasForm (.binary op l r) (.binary op)
  | unary (op : Dialect.UnaryOp) (e : Dialect.Expr) : HasForm (.unary op e) (.unary op)

variable {v : Version} {t : Leaf} {o : Objection}

theorem leafRule_eq_some : leafRule t v = some o ↔ LeafFault v t o := by
  have hexclusive : t.isNonSquare = true → t.isUnsigned = false := by
    cases t <;> simp [Leaf.isNonSquare, Leaf.isUnsigned, Leaf.scalarKind]
  rw [leafRule]
  constructor
  · intro h
    split at h
    next hu =>
      cases h
      simp only [Bool.and_eq_true, Bool.not_eq_true'] at hu
      exact .unsigned hu.1 hu.2
    next =>
      split at h
      next hn =>
        cases h
        simp only [Bool.and_eq_true, Bool.not_eq_true'] at hn
        exact .nonSquare hn.1 hn.2
      next => cases h
  · rintro (⟨ht, hv⟩ | ⟨ht, hv⟩)
    · simp [ht, hv]
    · simp [ht, hv, hexclusive ht]

theorem interfaceRule_eq_some : interfaceRule t = some o ↔ InterfaceFault t o := by
  have hexclusive : t.isSampler = true → t.isBoolean = false := by
    cases t <;> simp [Leaf.isSampler, Leaf.isBoolean, Leaf.scalarKind]
  rw [interfaceRule]
  constructor
  · intro h
    split at h
    next hb =>
      cases h
      exact .boolean hb
    next =>
      split at h
      next hs =>
        cases h
        exact .sampler hs
      next => cases h
  · rintro (ht | ht)
    · simp [ht]
    · simp [ht, hexclusive ht]

theorem finds_storage (interpolated : Prop) [Decidable interpolated] (s : Storage) :
    Finds (StorageFault v interpolated t s) (storageRule v interpolated t s) := by
  cases s with
  | «attribute» | varying =>
      rw [storageRule, integerRule]
      cases hv : v.isLegacy with
      | false =>
          refine .some (.removed rfl hv) ?_
          rintro n o (_ | _ | _ | _ | _) <;> simp_all [Storage.isLegacy]
      | true =>
          refine Finds.congr (Finds.ite (p := 2) Finds.empty (by simp)) fun n o => ?_
          constructor
          · rintro (_ | _ | _ | _ | _) <;> simp_all [Storage.isLegacy]
          · rintro (⟨ht, rfl, rfl⟩ | ⟨⟨⟩⟩)
            exact .integer rfl hv (by simpa using ht)
  | input flat =>
      refine Finds.congr (Finds.ite (p := 2) (Finds.ite (p := 4) Finds.empty (by simp))
        (by simp; omega)) fun n o => ?_
      constructor
      · rintro (_ | _ | _ | _ | _) <;> simp_all [Storage.isLegacy, Storage.isFlat]
      · rintro (⟨hv, rfl, rfl⟩ | ⟨h, rfl, rfl⟩ | ⟨⟨⟩⟩)
        · exact .missing rfl hv
        · simp only [Bool.and_eq_true, decide_eq_true_eq, Bool.not_eq_true'] at h
          exact .flat rfl h.2 h.1.1 h.1.2
  | output flat location =>
      refine Finds.congr (Finds.ite (p := 2) (Finds.ite (p := 3)
        (Finds.ite (p := 4) Finds.empty (by simp)) (by simp; omega)) (by simp; omega)) fun n o => ?_
      constructor
      · rintro (_ | _ | _ | ⟨hs, hv⟩ | _) <;> simp_all [Storage.isLegacy, Storage.isFlat]
      · rintro (⟨hv, rfl, rfl⟩ | ⟨h, rfl, rfl⟩ | ⟨h, rfl, rfl⟩ | ⟨⟨⟩⟩)
        · exact .missing rfl hv
        · simp only [Bool.and_eq_true, Bool.not_eq_true', Option.isSome_iff_exists] at h
          obtain ⟨⟨n, rfl⟩, hv⟩ := h
          exact .location rfl hv
        · simp only [Bool.and_eq_true, decide_eq_true_eq, Bool.not_eq_true'] at h
          exact .flat rfl h.2 h.1.1 h.1.2

theorem finds_variable (interpolated : Prop) [Decidable interpolated] (x : InterfaceVar) :
    Finds (VariableFault v interpolated x) (variableRule v interpolated x) := by
  have hinterface := Finds.single (r := interfaceRule x.leaf) (fun _ => interfaceRule_eq_some) 0
  have hleaf := Finds.single (r := leafRule x.leaf v) (fun _ => leafRule_eq_some) 1
  have hstorage := finds_storage (v := v) (t := x.leaf) interpolated x.storage
  refine (hinterface.orElse (hleaf.orElse hstorage ?_) ?_).congr fun n o => ?_
  · rintro _ o n' o' ⟨rfl, -⟩ (_ | _ | _ | _ | _) <;> omega
  · rintro _ o n' o' ⟨rfl, -⟩ (⟨rfl, -⟩ | (_ | _ | _ | _ | _)) <;> omega
  · constructor
    · rintro (h | h | h)
      exacts [.inl ⟨rfl, h⟩, .inr (.inl ⟨rfl, h⟩), .inr (.inr h)]
    · rintro (⟨rfl, h⟩ | ⟨rfl, h⟩ | h)
      exacts [.interface h, .leaf h, .storage h]

theorem finds_attachment (k : Nat) :
    Finds (fun n o => (n = 1 ∧ k ≠ 0 ∧ v = .embedded .v100 ∧ o = .attachmentNotZero) ∨
      n = 2 ∧ v.isLegacy = true ∧ t ≠ .vec4 ∧ o = .colorNotVec4) (attachmentRule k t v) := by
  refine Finds.congr (Finds.ite (p := 1) (Finds.ite (p := 2) Finds.empty (by simp))
    (by simp; omega)) fun n o => ?_
  grind

theorem finds_sink (sink : Sink) : Finds (SinkFault v t sink) (sinkRule v t sink) := by
  have hremoved : Finds (fun n o => n = 0 ∧ v.isLegacy = false ∧ o = .colorSinkRemoved)
      (colorSinkRule v) := Finds.single (by grind [colorSinkRule]) 0
  cases sink with
  | var name =>
      refine .none ?_
      rintro n o (_ | _ | _ | _ | _ | _) <;> simp_all [Sink.isColor]
  | position =>
      refine Finds.congr (Finds.ite (p := 0) Finds.empty (by simp)) fun n o => ?_
      constructor
      · rintro (_ | _ | _ | _ | _ | _) <;> simp_all [Sink.isColor]
      · rintro (⟨ht, rfl, rfl⟩ | ⟨⟨⟩⟩)
        exact .position ht
  | fragColor =>
      refine (hremoved.orElse (finds_attachment 0) ?_).congr fun n o => ?_
      · rintro _ o n' o' ⟨rfl, -⟩ (⟨rfl, -⟩ | ⟨rfl, -⟩) <;> omega
      · constructor
        · rintro (_ | _ | _ | _ | _ | _) <;> simp_all [Sink.isColor]
        · rintro (⟨rfl, hv, rfl⟩ | ⟨rfl, hn, -⟩ | ⟨rfl, hv, ht, rfl⟩)
          exacts [.removed rfl hv, absurd rfl hn, .color rfl hv ht]
  | fragData k =>
      refine (hremoved.orElse (finds_attachment k) ?_).congr fun n o => ?_
      · rintro _ o n' o' ⟨rfl, -⟩ (⟨rfl, -⟩ | ⟨rfl, -⟩) <;> omega
      · constructor
        · rintro (_ | _ | _ | _ | _ | _) <;> simp_all [Sink.isColor]
        · rintro (⟨rfl, hv, rfl⟩ | ⟨rfl, hn, hv, rfl⟩ | ⟨rfl, hv, ht, rfl⟩)
          exacts [.removed rfl hv, .attachment hn hv, .color rfl hv ht]
  | fragDepth =>
      refine Finds.congr (Finds.ite (p := 0) (Finds.ite (p := 1) Finds.empty (by simp))
        (by simp; omega)) fun n o => ?_
      constructor
      · rintro (_ | _ | _ | _ | _ | _) <;> simp_all [Sink.isColor]
      · rintro (⟨ht, rfl, rfl⟩ | ⟨hv, rfl, rfl⟩ | ⟨⟨⟩⟩)
        exacts [.depthType ht, .depth hv]

theorem form?_eq_some {e : Dialect.Expr} {form : Form} : e.form? = some form ↔ HasForm e form := by
  constructor
  · intro h
    cases e with
    | call callee args => cases callee <;> cases h; exact .call _ _
    | builtin | binary | unary => cases h; constructor
    | _ => cases h
  · rintro (_ | _ | _ | _) <;> rfl

end Rules

/-- What is wrong with a lowered shader, and where. A place is given by the group it belongs to, of
which there are inputs, outputs, uniforms, output writes, types and expressions, and by where it is
in the group. The first place is the least in lexicographic order. -/
inductive Violates (table : Table) (d : Dialect.Shader) :
    List Nat → Subject → Objection → Prop where
  | input {k x n o} (hx : d.inputs[k]? = some x)
      (h : VariableFault d.version (d.stage = .fragment) x n o) :
      Violates table d [0, k, n] (.input x.name) o
  | output {k x n o} (hx : d.outputs[k]? = some x)
      (h : VariableFault d.version (d.stage = .vertex) x n o) :
      Violates table d [1, k, n] (.output x.name) o
  | uniform {k u o} (hu : d.uniforms[k]? = some u) (h : LeafFault d.version u.leaf o) :
      Violates table d [2, k] (.uniform u.wireName) o
  | write {k w n o} (hw : d.main.outputs[k]? = some w)
      (h : SinkFault d.version w.leaf w.sink n o) : Violates table d [3, k, n] (.write w.sink) o
  | type {place t o} (ht : d.pieceAt? place = some (.ty (.leaf t))) (h : LeafFault d.version t o) :
      Violates table d (4 :: place) (.type t) o
  | literal {place n} (hl : d.pieceAt? place = some (.expr (.literal (.uint n))))
      (hv : d.version.isSince .v300 .v130 = false) :
      Violates table d (5 :: place) .unsignedLiteral .unsignedInteger
  | native {place e form} (he : d.pieceAt? place = some (.expr e)) (hf : HasForm e form)
      (ha : ¬ Available table d.stage d.version form) :
      Violates table d (5 :: place) (.native form) .builtinUnavailable

section Groups

variable {table : Table} {d : Dialect.Shader}

theorem typeViolation?_eq_some {v : Version} {ty : Dialect.Ty} {a : Violation} :
    typeViolation? v ty = some a ↔ ∃ t o, ty = .leaf t ∧ LeafFault v t o ∧ (.type t, o) = a := by
  cases ty with
  | leaf t =>
      simp only [← leafRule_eq_some]
      cases h : leafRule t v <;> simp [typeViolation?, Dialect.Ty.leaf?, h]
  | struct name => simp [typeViolation?, Dialect.Ty.leaf?]

theorem nodeViolation?_eq_some {stage : Stage} {v : Version} {e : Dialect.Expr} {a : Violation} :
    nodeViolation? table stage v e = some a ↔
      (∃ n, e = .literal (.uint n) ∧ v.isSince .v300 .v130 = false ∧
        (.unsignedLiteral, .unsignedInteger) = a) ∨
      ∃ form, HasForm e form ∧ ¬ Available table stage v form ∧
        (.native form, .builtinUnavailable) = a := by
  rw [nodeViolation?.eq_def]
  split
  next n =>
    have hform (form : Form) : ¬ HasForm (.literal (.uint n)) form := fun h => by cases h
    simp only [hform, false_and, exists_false, or_false, Option.map_eq_some_iff, leafRule_eq_some]
    constructor
    · rintro ⟨_, ⟨-, hv⟩ | ⟨ht, -⟩, rfl⟩
      · exact ⟨n, rfl, hv, rfl⟩
      · cases ht
    · rintro ⟨_, -, hv, rfl⟩
      exact ⟨_, .unsigned rfl hv, rfl⟩
  next hliteral =>
    simp only [← form?_eq_some, Available]
    constructor
    · intro h
      split at h
      next form hform =>
        split at h
        next => cases h
        next ha => exact .inr ⟨form, hform, ha, Option.some.inj h⟩
      next => cases h
    · rintro (⟨n, rfl, -⟩ | ⟨form, hform, ha, rfl⟩)
      · exact absurd rfl (hliteral n)
      · simp [hform, ha]

theorem finds_pieces {α β : Type} {own : Piece → Option β} {inside : Piece → List β}
    (h : ∀ x, inside x = (own x).toList ++ x.pieces.flatMap inside) (f : β → Option α) :
    Finds (fun p a => ∃ y b, d.pieceAt? p = some y ∧ own y = some b ∧ f b = some a)
      ((d.roots.flatMap inside).findSome? f) := by
  rw [findSome?_flatMap]
  refine finds_findSome? (fun a => ?_) (fun k q a hk => ?_) fun k x hx => ?_
  · simp [Dialect.Shader.pieceAt?]
  · simp [Dialect.Shader.pieceAt?, hk]
  · refine (finds_inside h f x).congr fun q a => ?_
    simp [Dialect.Shader.pieceAt?, hx]

theorem finds_group {β : Type} {xs : List β} {rule : β → Option Objection} {subject : β → Subject}
    {F : β → List Nat → Objection → Prop} {V : List Nat → Violation → Prop}
    (hF : ∀ x, Finds (F x) (rule x))
    (hV : ∀ p s o, V p (s, o) ↔ ∃ k x q, xs[k]? = some x ∧ p = k :: q ∧ F x q o ∧ subject x = s) :
    Finds V (xs.findSome? fun x => (rule x).map fun o => (subject x, o)) := by
  refine finds_findSome? ?_ ?_ fun k x hx => ((hF x).map fun o => (subject x, o)).congr ?_
  · rintro ⟨s, o⟩ ha
    obtain ⟨k, x, q, -, hp, -⟩ := (hV [] s o).mp ha
    cases hp
  · rintro k q ⟨s, o⟩ hk ha
    obtain ⟨_, x, _, hx, ⟨⟩, -⟩ := (hV (k :: q) s o).mp ha
    cases hk.symm.trans hx
  · rintro q ⟨s, o⟩
    rw [hV]
    constructor
    · rintro ⟨_, x', _, hx', ⟨⟩, ho, rfl⟩
      cases hx.symm.trans hx'
      exact ⟨o, ho, rfl⟩
    · rintro ⟨_, ho, ⟨⟩⟩
      exact ⟨k, x, q, hx, rfl, ho, rfl⟩

theorem singleton_lt {n m : Nat} (h : n < m) : [n] < [m] := List.cons_lt_cons_iff.mpr (.inl h)

theorem finds_inputs : Finds (fun q a => Violates table d (0 :: q) a.1 a.2)
    (d.inputs.findSome? (inputViolation? d.stage d.version)) := by
  refine finds_group
    (fun x => (finds_variable (d.stage = .fragment) x).image fun _ _ => singleton_lt)
    fun p s o => ⟨?_, ?_⟩
  · intro h
    cases h with
    | input hx h => exact ⟨_, _, _, hx, rfl, ⟨_, rfl, h⟩, rfl⟩
  · rintro ⟨k, x, _, hx, rfl, ⟨n, rfl, h⟩, rfl⟩
    exact .input hx h

theorem finds_outputs : Finds (fun q a => Violates table d (1 :: q) a.1 a.2)
    (d.outputs.findSome? (outputViolation? d.stage d.version)) := by
  refine finds_group (fun x => (finds_variable (d.stage = .vertex) x).image fun _ _ => singleton_lt)
    fun p s o => ⟨?_, ?_⟩
  · intro h
    cases h with
    | output hx h => exact ⟨_, _, _, hx, rfl, ⟨_, rfl, h⟩, rfl⟩
  · rintro ⟨k, x, _, hx, rfl, ⟨n, rfl, h⟩, rfl⟩
    exact .output hx h

theorem finds_uniforms : Finds (fun q a => Violates table d (2 :: q) a.1 a.2)
    (d.uniforms.findSome? (uniformViolation? d.version)) := by
  refine finds_group (fun u => Finds.single (fun _ => leafRule_eq_some) []) fun p s o => ⟨?_, ?_⟩
  · intro h
    cases h with
    | uniform hu h => exact ⟨_, _, _, hu, rfl, ⟨rfl, h⟩, rfl⟩
  · rintro ⟨k, u, _, hu, rfl, ⟨rfl, h⟩, rfl⟩
    exact .uniform hu h

theorem finds_writes : Finds (fun q a => Violates table d (3 :: q) a.1 a.2)
    (d.main.outputs.findSome? (writeViolation? d.version)) := by
  refine finds_group (fun w => (finds_sink w.sink).image fun _ _ => singleton_lt)
    fun p s o => ⟨?_, ?_⟩
  · intro h
    cases h with
    | write hw h => exact ⟨_, _, _, hw, rfl, ⟨_, rfl, h⟩, rfl⟩
  · rintro ⟨k, w, _, hw, rfl, ⟨n, rfl, h⟩, rfl⟩
    exact .write hw h

theorem finds_types : Finds (fun q a => Violates table d (4 :: q) a.1 a.2)
    (d.types.findSome? (typeViolation? d.version)) := by
  rw [Dialect.Shader.types_eq]
  refine (finds_pieces Piece.types_eq _).congr ?_
  rintro place ⟨s, o⟩
  simp only [typeViolation?_eq_some]
  constructor
  · intro h
    cases h with
    | type ht h => exact ⟨_, _, ht, rfl, _, _, rfl, h, rfl⟩
  · rintro ⟨y, _, hy, hty, t, _, rfl, h, ⟨⟩⟩
    cases y with
    | ty t' =>
        cases hty
        exact .type hy h
    | _ => cases hty

theorem finds_nodes : Finds (fun q a => Violates table d (5 :: q) a.1 a.2)
    (d.nodes.findSome? (nodeViolation? table d.stage d.version)) := by
  rw [Dialect.Shader.nodes_eq]
  refine (finds_pieces Piece.nodes_eq _).congr ?_
  rintro place ⟨s, o⟩
  simp only [nodeViolation?_eq_some]
  constructor
  · intro h
    cases h with
    | literal hl hv => exact ⟨_, _, hl, rfl, .inl ⟨_, rfl, hv, rfl⟩⟩
    | native he hf ha => exact ⟨_, _, he, rfl, .inr ⟨_, hf, ha, rfl⟩⟩
  · rintro ⟨y, e, hy, he, h⟩
    cases y with
    | expr e' =>
        cases he
        rcases h with ⟨n, rfl, hv, ⟨⟩⟩ | ⟨form, hf, ha, ⟨⟩⟩
        · exact .literal hy hv
        · exact .native hy hf ha
    | _ => cases he

theorem finds_violation (table : Table) (d : Dialect.Shader) :
    Finds (fun p a => Violates table d p a.1 a.2) (violation? table d) := by
  let groups : List (Option Violation) := [d.inputs.findSome? (inputViolation? d.stage d.version),
    d.outputs.findSome? (outputViolation? d.stage d.version),
    d.uniforms.findSome? (uniformViolation? d.version),
    d.main.outputs.findSome? (writeViolation? d.version),
    d.types.findSome? (typeViolation? d.version),
    d.nodes.findSome? (nodeViolation? table d.stage d.version)]
  have hsearch : violation? table d = groups.findSome? id := by
    simp [violation?, groups, findSome?_cons_orElse]
  rw [hsearch]
  refine finds_findSome? ?_ ?_ ?_
  · rintro ⟨s, o⟩ h
    cases h
  · rintro k q ⟨s, o⟩ hk h
    cases h <;> simp [groups] at hk
  · intro k r hk
    rcases k with _ | _ | _ | _ | _ | _ | k <;> cases hk
    exacts [finds_inputs, finds_outputs, finds_uniforms, finds_writes, finds_types, finds_nodes]

theorem checkLowered_eq_error {e : Error} :
    checkLowered table d = .error e ↔ ∃ subject o, violation? table d = some (subject, o) ∧
      e = .unsupported d.name d.version subject (some o) := by
  rw [checkLowered]
  split
  next subject o h =>
    rw [h]
    constructor
    · rintro ⟨⟩
      exact ⟨subject, o, rfl, rfl⟩
    · rintro ⟨_, _, ⟨⟩, rfl⟩
      rfl
  next h => simp [h]

end Groups

/-- The check succeeds if nothing is wrong, and otherwise reports what is wrong at the first place:
nothing is missed, and nothing is reported before its turn. -/
theorem checkLowered_reports_first (table : Table) (d : Dialect.Shader) :
    (checkLowered table d = .ok () ↔ ∀ place subject o, ¬ Violates table d place subject o) ∧
    ∀ e, checkLowered table d = .error e ↔ ∃ place subject o, Violates table d place subject o ∧
      (∀ place' subject' o', Violates table d place' subject' o' → place ≤ place') ∧
      e = .unsupported d.name d.version subject (some o) := by
  have hfinds := finds_violation table d
  constructor
  · rw [checkLowered_eq_ok, ← violation?_eq_none, hfinds.eq_none_iff]
    simp only [Prod.forall]
  · intro e
    simp only [checkLowered_eq_error, hfinds.eq_some_iff, Prod.forall]
    constructor
    · rintro ⟨subject, o, ⟨place, h, hleast⟩, rfl⟩
      exact ⟨place, subject, o, h, hleast, rfl⟩
    · rintro ⟨place, subject, o, h, hleast, rfl⟩
      exact ⟨subject, o, ⟨place, h, hleast⟩, rfl⟩

namespace Masked

/-! A depth is computed by a bitwise operation on unsigned literals, none of which there is in the
oldest version. -/

def shader : Dialect.Shader where
  name := "masked"
  version := .full .v110
  inputs := []
  outputs := []
  uniforms := []
  decls := []
  main := .fragment [] []
    [⟨.fragDepth, .float, .binary .bitAnd (.literal (.uint 1)) (.literal (.uint 2))⟩]

end Masked

open Masked in
/-- Literals have no turn of their own before the native forms: the operation is reported though
there are unsigned literals. -/
theorem checkLowered_reports_operator_before_literal :
    Violates .standard shader [5, 0, 0] .unsignedLiteral .unsignedInteger ∧
      checkLowered .standard shader = .error (.unsupported "masked" (.full .v110)
        (.native (.binary .bitAnd)) (some .builtinUnavailable)) :=
  ⟨.literal rfl rfl, checkLowered_eq_error.mpr ⟨_, _, by decide +kernel, rfl⟩⟩

end ShaderDialects.Legality
