import ShaderDialects.Proofs.Legality.Declaration
import ShaderDialects.Proofs.Lowering.Shader

namespace ShaderDialects

open Dialect (Decl Variable)
open Identifier (Supply)

namespace Lowering

/-- How a type is written: a leaf by itself, a record by the name of a struct declared for it. -/
inductive Writes (decls : List Decl) : Ty → Dialect.Ty → Prop where
  | leaf (t : Leaf) : Writes decls (.leaf t) (.leaf t)
  | record {i name label fields} (h : ⟨name, .record i label, .struct fields⟩ ∈ decls) :
      Writes decls (.record i) (.struct name)

section Represents

variable (p : Program) (stage : Stage) (v : Version) (table : Table) (decls : List Decl)

/-- What is declared for a record or a term of a closure, if anything is: the name is made from that
in the program, the origin tells what it was made from, and members and parameters are in order. -/
inductive Represents : DeclId → Option Decl → Prop where
  | record {i r fields} {supply : Supply} (hr : p.records[i]? = some r)
      (names : fields.map Variable.name = p.fieldNames i)
      (types : List.Forall₂ (fun f x => Writes decls f.ty x.ty) r.fields fields) :
      Represents (.record i)
        (some ⟨(supply.fresh r.name).1, .record i r.name, .struct fields⟩)
  | function {i t params result body xs rt ss} {supply : Supply} (ht : p.terms[i]? = some t)
      (hk : t.kind = .function params result body)
      (names : xs.map Variable.name = (supply.fresh t.name).2.names Binding.name params)
      (types : List.Forall₂ (fun b x => Writes decls b.ty x.ty) params xs)
      (hr : Writes decls result rt) :
      Represents (.term i) (some ⟨(supply.fresh t.name).1, .term i t.name, .function xs rt ss⟩)
  | value {i t ty body rt ss} {supply : Supply} (ht : p.terms[i]? = some t)
      (hk : t.kind = .value ty body) (hr : Writes decls ty rt) :
      Represents (.term i) (some ⟨(supply.fresh t.name).1, .term i t.name, .function [] rt ss⟩)
  | emulation {i t symbol signature e} {supply : Supply} (ht : p.terms[i]? = some t)
      (hk : t.kind = .external symbol signature)
      (hd : table.resolve symbol signature.kind v stage = .ok (.emulated e)) :
      Represents (.term i) (some ⟨(supply.fresh (t.name ++ "_emulated")).1, .emulation symbol,
        (e.build signature).kind⟩)
  | native {i t symbol signature form} (ht : p.terms[i]? = some t)
      (hk : t.kind = .external symbol signature)
      (hd : table.resolve symbol signature.kind v stage = .ok (.native form)) :
      Represents (.term i) none

end Represents

section Mono

variable {p : Program} {stage : Stage} {v : Version} {table : Table} {decls decls' : List Decl}

theorem Writes.mono {ty : Ty} {t : Dialect.Ty} (h : Writes decls ty t) (hs : decls ⊆ decls') :
    Writes decls' ty t := by
  cases h with
  | leaf t => exact .leaf t
  | record h => exact .record (hs h)

theorem Represents.mono {id : DeclId} {part : Option Decl}
    (h : Represents p stage v table decls id part) (hs : decls ⊆ decls') :
    Represents p stage v table decls' id part := by
  cases h with
  | record hr names types => exact .record hr names (types.imp fun _ _ h => h.mono hs)
  | function ht hk names types hr =>
      exact .function ht hk names (types.imp fun _ _ h => h.mono hs) (hr.mono hs)
  | value ht hk hr => exact .value ht hk (hr.mono hs)
  | emulation ht hk hd => exact .emulation ht hk hd
  | native ht hk hd => exact .native ht hk hd

end Mono

variable {g : Setting} {s s' : Progress}

def Progress.StructsDeclared (s : Progress) : Prop :=
  ∀ i names, s.structs.lookup i = some names →
    ∃ label fields, ⟨names.name, .record i label, .struct fields⟩ ∈ s.decls

theorem writes_of_ty (hs : s.StructsDeclared) {ty : Ty} {t : Dialect.Ty}
    (h : (g.context s).ty ty = .ok t) : Writes s.decls ty t := by
  cases ty with
  | leaf leaf =>
      obtain rfl := Context.ty_leaf_eq_ok.mp h
      exact .leaf leaf
  | record i =>
      obtain ⟨names, hn, rfl⟩ := Context.ty_record_eq_ok.mp h
      obtain ⟨label, fields, hmem⟩ := hs i names hn
      exact .record hmem

theorem writes_zipWith {α : Type} {ty : α → Ty} (hs : s.StructsDeclared) {xs : List α}
    {tys : List Dialect.Ty} {names : List String}
    (h : List.Forall₂ (fun x t => (g.context s).ty (ty x) = .ok t) xs tys)
    (hl : names.length = xs.length) :
    List.Forall₂ (fun x y => Writes s.decls (ty x) y.ty) xs
      (List.zipWith Variable.mk names tys) := by
  induction h generalizing names with
  | nil => simp
  | cons hx _ ih =>
      cases names with
      | nil => cases hl
      | cons name names => exact .cons (writes_of_ty hs hx) (ih (by simpa using hl))

theorem Declares.structsDeclared {d : DeclId} (h : Declares g s d s') (hs : s.StructsDeclared) :
    s'.StructsDeclared := by
  have hsub := h.decls_subset
  cases h with
  | @record i r tys hr ht =>
      intro j names hj
      rcases lookup_cons_eq_some hj with ⟨rfl, rfl⟩ | hj
      · exact ⟨_, _, List.mem_append_right _ List.mem_cons_self⟩
      · obtain ⟨label, fields, hmem⟩ := hs j names hj
        exact ⟨label, fields, hsub hmem⟩
  | routine | native | emulation =>
      intro j names hj
      obtain ⟨label, fields, hmem⟩ := hs j names hj
      exact ⟨label, fields, hsub hmem⟩

theorem Declares.represents {d : DeclId} (h : Declares g s d s') (hs : s.StructsDeclared) :
    ∃ part, Represents g.program g.shader.stage g.version g.table s'.decls d part ∧
      s'.decls = s.decls ++ part.toList := by
  have hsub := h.decls_subset
  cases h with
  | @record i r tys hr ht =>
      have hl : (g.program.fieldNames i).length = r.fields.length :=
        Program.length_fieldNames_of_record hr
      refine ⟨some _, .record hr (map_name_zipWith (hl.trans ht.length_eq)) ?_, rfl⟩
      exact (writes_zipWith hs ht hl).imp fun _ _ h => h.mono hsub
  | @routine i t r tys rt ss σ ht hr hp hres hb =>
      have hl := length_routineScope s t r
      have hparams := (writes_zipWith hs hp hl).imp fun _ _ h => Writes.mono h hsub
      have hresult := (writes_of_ty hs hres).mono hsub
      have hnames := map_name_zipWith (hl.trans hp.length_eq)
      cases hk : t.kind with
      | function params result body =>
          rw [hk] at hr
          cases hr
          refine ⟨some _, .function ht hk ?_ hparams hresult, rfl⟩
          rw [hnames, Progress.routineScope, Scope.bindParams_names]
      | value ty body =>
          rw [hk] at hr
          cases hr
          cases hp
          exact ⟨some _, .value ht hk hresult, rfl⟩
      | external symbol signature =>
          rw [hk] at hr
          cases hr
  | native ht hk hd => exact ⟨none, .native ht hk hd, (List.append_nil _).symm⟩
  | emulation ht hk hd => exact ⟨some _, .emulation ht hk hd, declareEmulation_decls _ _ _ _ _⟩

theorem represents_of_declareAll {supply : Supply} {closure : Closure}
    (h : g.declareAll supply closure = .ok s) :
    ∃ parts, List.Forall₂ (Represents g.program g.shader.stage g.version g.table s.decls)
      closure.order parts ∧ s.decls = parts.filterMap id := by
  refine (declareAll_induct (motive := fun ds s => s.StructsDeclared ∧
    ∃ parts, List.Forall₂ (Represents g.program g.shader.stage g.version g.table s.decls) ds parts ∧
      s.decls = parts.filterMap id) h ⟨nofun, [], .nil, rfl⟩ ?_).2
  rintro pre d post s s' - ⟨hs, parts, hparts, hdecls⟩ hd
  obtain ⟨part, hpart, happend⟩ := hd.represents hs
  refine ⟨hd.structsDeclared hs, parts ++ [part], ?_, ?_⟩
  · exact List.rel_append (hparts.imp fun _ _ h => h.mono hd.decls_subset) (.cons hpart .nil)
  · rw [happend, hdecls, List.filterMap_append]
    cases part <;> rfl

/-- The declarations of a lowered shader are those of its closure, in order: one for each record,
each user term and each external that the version lacks and that is emulated, and none for an
external that is native. -/
theorem decls_of_lower {p : Program} {s : Shader} {closure : Closure} {v : Version} {table : Table}
    {d : Dialect.Shader} (h : lower p s closure v table = .ok d) :
    ∃ parts, List.Forall₂ (Represents p s.stage v table d.decls) closure.order parts ∧
      d.decls = parts.filterMap id := by
  obtain ⟨_, _, -, progress, hp, -, -, -, -, hd⟩ := lower_eq_ok.mp h
  rw [hd]
  exact represents_of_declareAll hp

namespace Weighed

/-! A function that takes a pair adds natively, and rounds by an emulation. -/

abbrev float : Ty := .leaf .float

def half : Expr := .literal ⟨float, {}⟩ (.float ⟨0x3f000000⟩)

def call (f : Nat) (args : List Expr) : Expr := .apply ⟨float, {}⟩ f args

def sum : Expr :=
  call 1 [call 0 [.field ⟨float, {}⟩ (.bound ⟨.record 0, {}⟩ 0) 1, .bound ⟨float, {}⟩ 1]]

def program : Program where
  records := [⟨"Pair", [⟨"left", float⟩, ⟨"right", float⟩], {}⟩]
  terms := [⟨"plus", .external "add" (.function [.float, .float] .float), {}⟩,
    ⟨"near", .external "round" (.function [.float] .float), {}⟩,
    ⟨"sum", .function [⟨0, "pair", .record 0⟩, ⟨1, "bias", float⟩] float sum, {}⟩,
    ⟨"unit", .value float half, {}⟩]

def table : Table :=
  TableBuilder.build ⟨[⟨.function, "add", [⟨.universal, .both, .native (.binary .add)⟩]⟩,
    ⟨.function, "round", [⟨.universal, .both, .emulated .round⟩]⟩]⟩

def shader : Shader where
  name := "weighed"
  stage := .fragment
  outputs := [⟨⟨"depth", float, {}⟩, .depth⟩]
  assignments := [⟨0, call 2 [.construct ⟨.record 0, {}⟩ 0 [half, .term ⟨float, {}⟩ 3], half]⟩]

def closure : Closure := .placed [.record 0, .term 0, .term 1, .term 2, .term 3]

end Weighed

open Weighed in
theorem decls_of_lower_weighed :
    ∃ d, lower program shader closure (.full .v110) table = .ok d ∧
      d.decls.map (fun decl => decl.origin.text) =
        ["record Pair", "emulation of round", "term sum", "term unit"] ∧
      ∃ parts, List.Forall₂ (Represents program .fragment (.full .v110) table d.decls) closure.order
        parts ∧ d.decls = parts.filterMap id := by
  have horigins : (lower program shader closure (.full .v110) table).toOption.map
      (fun d => d.decls.map fun decl => decl.origin.text) =
      some ["record Pair", "emulation of round", "term sum", "term unit"] := by
    decide +kernel
  obtain ⟨d, hd, h⟩ := Except.exists_eq_ok_of_toOption_map horigins
  exact ⟨d, hd, h, decls_of_lower hd⟩

end Lowering

end ShaderDialects
