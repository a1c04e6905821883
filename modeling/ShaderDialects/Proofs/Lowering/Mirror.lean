import ShaderDialects.Proofs.Identifier.WireNames
import ShaderDialects.Proofs.Legality.Lowered
import ShaderDialects.Proofs.Lowering.Derivation
import ShaderDialects.Proofs.Lowering.Rebuilding
import ShaderDialects.Proofs.Source.SamplerSearch

namespace ShaderDialects

namespace Dialect.Expr

def varNames (e : Expr) : List String :=
  e.nodes.filterMap fun
    | var n => some n
    | _ => none

theorem varNames_var (n : String) : (var n).varNames = [n] := rfl

theorem varNames_user (n : String) (args : List Expr) :
    (user n args).varNames = (args.map varNames).flatten := by
  rw [varNames, nodes_eq, List.filterMap_cons, List.filterMap_flatMap, ← List.flatMap_def]
  rfl

end Dialect.Expr

namespace Program

variable {p : Program} {ty target : Ty}

def SamplerFree (p : Program) (ty : Ty) : Prop :=
  ∀ path names t, p.Leads ty path names (.leaf t) → t.isSampler = false

theorem SamplerFree.field {i : Nat} {r : Record} {f : Field} (h : p.SamplerFree (.record i))
    (hr : p.records[i]? = some r) (hf : f ∈ r.fields) : p.SamplerFree f.ty := by
  obtain ⟨k, hk⟩ := List.mem_iff_getElem?.mp hf
  exact fun path names t hleads => h _ _ t (.field hr hk hleads)

theorem holdsSamplerWithin_of_samplerFree {depth : Nat} (h : p.Within depth ty)
    (hs : p.SamplerFree ty) : p.holdsSamplerWithin depth ty = .ok false := by
  obtain ⟨found, hfound⟩ := h.exists_holdsSamplerWithin
  cases found with
  | false => exact hfound
  | true =>
      obtain ⟨path, names, texture, hleads⟩ := exists_leads_sampler hfound
      cases hs path names _ hleads

theorem Leads.declared {path : List Nat} {names : List String}
    (h : p.Leads ty path names target) (hty : ty.Declared p) : target.Declared p := by
  induction h with
  | refl ty => exact hty
  | field hr hf _ ih => exact ih (hty.field hr (List.mem_of_getElem? hf))

theorem intercalate_intercalate (name : String) (names below : List String) :
    ".".intercalate (".".intercalate (name :: names) :: below) =
      ".".intercalate (name :: (names ++ below)) := by
  induction names generalizing name with
  | nil => rfl
  | cons n names ih => exact ih (name ++ "." ++ n)

theorem eq_of_sorted {us vs : List Uniform} (hu : us.Pairwise fun u v => u.path < v.path)
    (hv : vs.Pairwise fun u v => u.path < v.path) (h : ∀ u, u ∈ us ↔ u ∈ vs) : us = vs := by
  have : Std.Irrefl fun u v : Uniform => u.path < v.path := ⟨fun u => List.lt_irrefl u.path⟩
  have : Std.Antisymm fun u v : Uniform => u.path < v.path :=
    ⟨fun u v huv hvu => absurd hvu (List.lt_asymm huv)⟩
  exact hu.eq_of_mem_iff hv h

/-- The uniforms below a path are those of the part that it leads to. -/
theorem Flattened.filter_prefix {name : String} {path : List Nat} {names : List String}
    {us below : List Uniform} (h : p.Flattened name [] ty us) (hl : p.Leads ty path names target)
    (hb : p.Flattened (".".intercalate (name :: names)) path target below) :
    us.filter (fun u => path <+: u.path) = below := by
  refine eq_of_sorted (h.sorted.filter _) hb.sorted fun u => ?_
  rw [List.mem_filter, h.mem, hb.mem, decide_eq_true_iff]
  constructor
  · rintro ⟨⟨_, _, hleads, rfl, hname⟩, rest, hrest⟩
    rw [← hrest] at hleads
    obtain ⟨names', hbelow, rfl⟩ := hl.append_iff.mp hleads
    exact ⟨rest, names', hbelow, hrest.symm, by rw [hname, intercalate_intercalate]⟩
  · rintro ⟨rest, names', hbelow, hpath, hname⟩
    refine ⟨⟨path ++ rest, names ++ names', hl.append_iff.mpr ⟨names', hbelow, rfl⟩, hpath, ?_⟩,
      rest, hpath.symm⟩
    rw [hname, intercalate_intercalate]

end Program

namespace Lowering

open Identifier (Supply)

variable {c : Context}

/-- The expression is a tree of constructors of the shape of the type, with a variable for each of
its leaves. -/
inductive Mirrors (c : Context) : Ty → Dialect.Expr → Prop
  | leaf (t : Leaf) (ident : String) : Mirrors c (.leaf t) (.var ident)
  | record {i : Nat} {r : Record} {names : StructNames} {args : List Dialect.Expr}
      (hr : c.program.records[i]? = some r) (hn : c.structs.lookup i = some names)
      (hargs : List.Forall₂ (fun f x => Mirrors c f.ty x) r.fields args) :
      Mirrors c (.record i) (.user names.name args)

def Context.Declares (c : Context) (ty : Ty) : Prop :=
  ∀ path names i, c.program.Leads ty path names (.record i) → ∃ s, c.structs.lookup i = some s

theorem Context.Declares.field {i : Nat} {r : Record} {f : Field} (h : c.Declares (.record i))
    (hr : c.program.records[i]? = some r) (hf : f ∈ r.fields) : c.Declares f.ty := by
  obtain ⟨k, hk⟩ := List.mem_iff_getElem?.mp hf
  exact fun path names j hleads => h _ _ j (.field hr hk hleads)

theorem exists_mirror (hp : c.program.AcyclicRecords) {depth q : Nat} {name : String}
    {path : List Nat} {ty : Ty} {us : List Uniform} (hw : c.program.Within depth ty)
    (hflat : c.program.flattenWithin depth name path ty = .ok us)
    (hu : ∀ u ∈ us, ∃ b, c.uniform? q u.path = some b) (hty : ty.Declared c.program)
    (hs : (∃ t, ty = .leaf t) ∨ c.program.SamplerFree ty) (hd : c.Declares ty) :
    ∃ x, c.rebuildWithin depth q path ty = .ok x ∧ Mirrors c ty x ∧
      List.Forall₂ (fun u n => (c.uniform? q u.path).map BoundUniform.ident = some n) us
        x.varNames := by
  induction hw generalizing name path us with
  | leaf depth t =>
      obtain rfl := Program.flattenWithin_leaf.mp hflat
      obtain ⟨b, hb⟩ := hu _ (List.mem_singleton_self _)
      refine ⟨_, Context.rebuildWithin_leaf.mpr ⟨b, hb, rfl⟩, .leaf t b.ident, ?_⟩
      rw [Dialect.Expr.varNames_var]
      exact .cons (by rw [hb]; rfl) .nil
  | @record depth i r hr hw ih =>
      obtain ⟨r', hr', d, hdepth, parts, hparts, rfl⟩ := Program.flattenWithin_record.mp hflat
      cases hr.symm.trans hr'
      cases hdepth
      obtain ⟨hlen, hzip⟩ := List.forall₂_iff_zip.mp hparts
      have hfree : c.program.SamplerFree (.record i) := hs.resolve_left (by simp)
      have hfield (z : (Field × Nat) × List Uniform) (hz : z ∈ r.fields.zipIdx.zip parts) :
          ∃ y, c.rebuildWithin depth q (path ++ [z.1.2]) z.1.1.ty = .ok y ∧ Mirrors c z.1.1.ty y ∧
            List.Forall₂ (fun u n => (c.uniform? q u.path).map BoundUniform.ident = some n) z.2
              y.varNames := by
        obtain ⟨hfk, hpart⟩ := List.of_mem_zip hz
        have hf := List.fst_mem_of_mem_zipIdx hfk
        exact ih z.1.1 hf (hzip hz) (fun u h => hu u (List.mem_flatten.mpr ⟨z.2, hpart, h⟩))
          (hty.field hr hf) (.inr (hfree.field hr hf)) (hd.field hr hf)
      obtain ⟨args, hargs⟩ := List.exists_forall₂ hfield
      obtain ⟨names, hnames⟩ := hd [] [] i (.refl _)
      have hleft := List.map_fst_zip (Nat.le_of_eq hlen)
      have hright := List.map_snd_zip (Nat.le_of_eq hlen.symm)
      have hconstructible : c.constructible i = .ok () := Context.constructible_eq_ok.mpr
        (Program.holdsSamplerWithin_of_samplerFree (Program.within_length hp hty) hfree)
      refine ⟨_, Context.rebuildWithin_record.mpr ⟨hconstructible, r, hr, depth, rfl, args, ?_,
        names, hnames, rfl⟩, .record hr hnames ?_, ?_⟩
      · rw [← hleft, List.forall₂_map_left_iff]
        exact hargs.imp fun _ _ h => h.1
      · rw [← List.zipIdx_map_fst 0 r.fields, ← hleft, List.forall₂_map_left_iff,
          List.forall₂_map_left_iff]
        exact hargs.imp fun _ _ h => h.2.1
      · rw [Dialect.Expr.varNames_user, ← hright]
        refine List.rel_flatten (List.forall₂_map_right_iff.mpr (List.forall₂_map_left_iff.mpr ?_))
        exact hargs.imp fun _ _ h => h.2.2

theorem uniform?_of_mem {q : Nat} {bound : List BoundUniform}
    (hb : c.interface.parameters[q]? = some bound)
    (hsorted : (bound.map BoundUniform.uniform).Pairwise fun u v => u.path < v.path)
    {b : BoundUniform} (hmem : b ∈ bound) : c.uniform? q b.uniform.path = some b := by
  obtain ⟨b', hb'⟩ := exists_uniform hb (List.mem_map_of_mem hmem)
  have hfind : (bound.find? fun u => u.uniform.path = b.uniform.path) = some b' := by
    rwa [Context.uniform?, hb] at hb'
  have hnodup : (bound.map fun u => u.uniform.path).Nodup := by
    refine List.pairwise_map.mpr ((List.pairwise_map.mp hsorted).imp fun {u v} hlt heq => ?_)
    exact List.lt_irrefl _ (heq ▸ hlt)
  have hpath : b'.uniform.path = b.uniform.path := by simpa using List.find?_some hfind
  rw [hb', List.inj_on_of_nodup_map hnodup (List.mem_of_find?_eq_some hfind) hmem hpath]

theorem eq_idents_of_found {q : Nat} {part : List BoundUniform} {ns : List String}
    (hfound : ∀ b ∈ part, c.uniform? q b.uniform.path = some b)
    (h : List.Forall₂ (fun u n => (c.uniform? q u.path).map BoundUniform.ident = some n)
      (part.map BoundUniform.uniform) ns) : ns = part.map BoundUniform.ident := by
  have hboth := (List.forall₂_and_left _ _).mpr ⟨hfound, List.forall₂_map_left_iff.mp h⟩
  have heq : List.Forall₂ Eq (part.map BoundUniform.ident) ns :=
    List.forall₂_map_left_iff.mpr (hboth.imp fun b n ⟨hb, hn⟩ => by simpa [hb] using hn)
  rw [List.forall₂_eq_eq_eq] at heq
  exact heq.symm

theorem nodup_filter_idents {p : Program} {s : Shader} {i : Interface} {supply : Supply}
    (A : Interface.Assigned p s i supply) {q : Nat} {bound : List BoundUniform}
    (hb : i.parameters[q]? = some bound) (f : BoundUniform → Bool) :
    ((bound.filter f).map BoundUniform.ident).Nodup := by
  have hall : (i.uniforms.map BoundUniform.ident).Nodup := (List.nodup_append.mp A.nodup).2.1
  refine List.Nodup.sublist (List.Sublist.map _ (List.Sublist.trans List.filter_sublist ?_)) hall
  exact List.sublist_flatten_of_mem (List.mem_of_getElem? hb)

/-- If no record holds itself, a shader has an interface, and lowering a chain of field accesses on
a parameter rebuilds what the chain reads: a tree of constructors of the shape of its type, over the
identifiers of those uniforms of the parameter whose path goes on from that of the chain. -/
theorem ofExpr_chain_exact {p : Program} {s : Shader} (hp : p.AcyclicRecords)
    (hs : ∀ q ∈ s.parameters, q.ty.Declared p) (supply : Supply) :
    ∃ i supply', Interface.assign p s supply = .ok (i, supply') ∧
      ∀ c : Context, c.program = p → c.shader = s → c.interface = i →
        ∀ (e : Expr) (q : Nat) (path : List Nat) (slot : Slot) (names : List String),
          e.parameterPath? = some (q, path) → s.parameters[q]? = some slot →
          p.Leads slot.ty path names e.ty →
          ((∃ t, e.ty = .leaf t) ∨ p.SamplerFree e.ty) → c.Declares e.ty →
            ∃ bound x, i.parameters[q]? = some bound ∧
              p.flatten slot.name slot.ty = .ok (bound.map BoundUniform.uniform) ∧
              (∀ σ, (Code.ofExpr c e).value.run σ = .ok ⟨x, [], σ⟩) ∧ Mirrors c e.ty x ∧
              x.varNames = (bound.filter fun b => path <+: b.uniform.path).map BoundUniform.ident ∧
              x.varNames.Nodup := by
  obtain ⟨⟨i, supply'⟩, hi, hflats⟩ := Interface.exists_assign hp hs supply
  have A := Interface.assigned_of_assign hi
  refine ⟨i, supply', hi, ?_⟩
  rintro c rfl rfl rfl e q path slot names he hslot hleads hsampler hdecl
  obtain ⟨bound, hbound, hok⟩ := A.parameters.getElem?_right hslot
  obtain ⟨bound', hbound', hflat⟩ := hflats.getElem?_right hslot
  cases hbound.symm.trans hbound'
  have hty := hleads.declared (hs slot (List.mem_of_getElem? hslot))
  have hw := Program.within_length hp hty
  obtain ⟨us, hus, hbelow⟩ :=
    Program.exists_flattenWithin hw (".".intercalate (slot.name :: names)) path
  obtain rfl : ((bound.filter fun b => path <+: b.uniform.path).map BoundUniform.uniform) = us := by
    rw [← hflat.filter_prefix hleads hbelow, List.filter_map]
    rfl
  have hfound : ∀ b ∈ bound.filter fun b => path <+: b.uniform.path,
      c.uniform? q b.uniform.path = some b :=
    fun b hb => uniform?_of_mem hbound hflat.sorted (List.mem_filter.mp hb).1
  obtain ⟨x, hx, hmirror, hvars⟩ := exists_mirror hp hw hus
    (List.forall_mem_map.mpr fun b hb => ⟨b, hfound b hb⟩) hty hsampler hdecl
  have hnames := eq_idents_of_found hfound hvars
  refine ⟨bound, x, hbound, hok, fun σ => (Lowers.path he hx).runs, hmirror, hnames, ?_⟩
  rw [hnames]
  exact nodup_filter_idents A hbound _

/-! A parameter that holds the same record twice, next to a sampler; the second of them is read. -/
namespace Layered

def program : Program where
  records := [
    ⟨"Layer", [⟨"tint", .leaf .vec4⟩, ⟨"depth", .leaf .float⟩], {}⟩,
    ⟨"Layers", [⟨"map", .leaf (.sampler .flat)⟩, ⟨"near", .record 0⟩, ⟨"far", .record 0⟩], {}⟩]

def shader : Shader where
  name := "layered"
  stage := .fragment
  parameters := [⟨"sky", .record 1, {}⟩]

def chain : Expr := .field ⟨.record 0, {}⟩ (.parameter ⟨.record 1, {}⟩ 0) 2

def context (i : Interface) : Context :=
  ⟨program, shader, i, [(0, ⟨"Layer", ["tint", "depth"]⟩)], []⟩

theorem leads_far : program.Leads (.record 1) [2] ["far"] (.record 0) :=
  .field (f := ⟨"far", .record 0⟩) rfl rfl (.refl _)

theorem leads_layer {path : List Nat} {names : List String} {ty : Ty}
    (h : program.Leads (.record 0) path names ty) :
    ty = .record 0 ∨ ty = .leaf .vec4 ∨ ty = .leaf .float := by
  rcases h with _ | ⟨hr, hf, hrest⟩
  · exact .inl rfl
  · cases hr
    have hfield := List.mem_of_getElem? hf
    simp only [List.mem_cons, List.not_mem_nil, or_false] at hfield
    rcases hfield with rfl | rfl
    · exact .inr (.inl (Program.leads_leaf.mp hrest).2.2)
    · exact .inr (.inr (Program.leads_leaf.mp hrest).2.2)

theorem samplerFree : program.SamplerFree (.record 0) := by
  intro path names t h
  rcases leads_layer h with h | h | h
  · cases h
  · cases h
    rfl
  · cases h
    rfl

theorem declares (i : Interface) : (context i).Declares (.record 0) := by
  intro path names j h
  rcases leads_layer h with h | h | h
  · cases h
    exact ⟨_, rfl⟩
  · cases h
  · cases h

end Layered

open Layered in
theorem ofExpr_chain_layered :
    ∃ i supply', Interface.assign program shader (.forShader []) = .ok (i, supply') ∧
      ∃ x, (∀ σ, (Code.ofExpr (context i) chain).value.run σ = .ok ⟨x, [], σ⟩) ∧
        Mirrors (context i) (.record 0) x ∧ x.varNames = ["sky_far_tint", "sky_far_depth"] := by
  have hp : program.AcyclicRecords := Program.acyclicRecords_of_earlier (by decide)
  have hrange : ∀ q ∈ shader.parameters, ∀ d ∈ q.ty.mentions, d ∈ program.declIds := by decide
  obtain ⟨i, supply', hi, h⟩ := ofExpr_chain_exact hp
    (fun q hq => Ty.declared_of_inRange (by decide) (hrange q hq)) (.forShader [])
  obtain ⟨bound, x, hbound, -, hx, hmirror, hnames, -⟩ := h (context i) rfl rfl rfl chain 0 [2]
    ⟨"sky", .record 1, {}⟩ ["far"] rfl rfl leads_far (.inr samplerFree) (declares i)
  refine ⟨i, supply', hi, x, hx, hmirror, hnames.trans ?_⟩
  cases hi
  cases hbound
  decide +kernel

end Lowering

end ShaderDialects
