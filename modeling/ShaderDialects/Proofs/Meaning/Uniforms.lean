import ShaderDialects.Proofs.Identifier.Interface
import ShaderDialects.Proofs.Lowering.Shader
import ShaderDialects.Proofs.Meaning.Realized
import ShaderDialects.Proofs.Source.Flattening

namespace ShaderDialects

open Dialect (Entity Env InterfaceVar)
open Identifier (Supply)
open Value (HasTys)

variable {α : Type}

namespace Interface

def leaves (i : Interface) (params : List (Val α)) : List (BoundUniform × Val α) :=
  (i.parameters.zip params).flatMap fun (us, v) => us.map fun u => (u, v)

/-- The values of the uniforms: of each, the leaf of its parameter at its path. -/
def uniformValues (i : Interface) (params : List (Val α)) : Option (List α) :=
  (i.leaves params).mapM fun (u, v) => (v.part? u.uniform.path).bind Value.leaf?

variable {i : Interface} {params : List (Val α)}

theorem map_fst_leaves (h : i.parameters.length = params.length) :
    (i.leaves params).map Prod.fst = i.uniforms := by
  have hmap : (i.leaves params).map Prod.fst = ((i.parameters.zip params).map Prod.fst).flatten := by
    simp [leaves, List.flatMap_def, Function.comp_def]
  rw [hmap, List.map_fst_zip (Nat.le_of_eq h), uniforms]

theorem mem_leaves {k : Nat} {us : List BoundUniform} {v : Val α}
    (hus : i.parameters[k]? = some us) (hv : params[k]? = some v) {u : BoundUniform}
    (hu : u ∈ us) : (u, v) ∈ i.leaves params := by
  have hz : (i.parameters.zip params)[k]? = some (us, v) :=
    List.getElem?_zip_eq_some.mpr ⟨hus, hv⟩
  exact List.mem_flatMap.mpr ⟨_, List.mem_of_getElem? hz, List.mem_map_of_mem hu⟩

end Interface

theorem Program.part?_flattenWithin {p : Program} {depth : Nat} {name : String} {path : List Nat}
    {ty : Ty} {us : List Uniform} (h : p.flattenWithin depth name path ty = .ok us)
    {root v : Val α} (hv : root.part? path = some v) (ht : v.HasTy p ty) {u : Uniform}
    (hu : u ∈ us) : ∃ a, root.part? u.path = some (.leaf a) := by
  induction depth using Nat.strongRecOn generalizing name path ty us v with
  | ind depth ih =>
      cases ty with
      | leaf t =>
          obtain rfl := flattenWithin_leaf.mp h
          obtain rfl := List.mem_singleton.mp hu
          obtain ⟨a, rfl⟩ := ht.leaf
          exact ⟨a, hv⟩
      | record i =>
          obtain ⟨r, hr, d, rfl, parts, hparts, rfl⟩ := flattenWithin_record.mp h
          obtain ⟨part, hpart, hu⟩ := List.mem_flatten.mp hu
          obtain ⟨k, hk⟩ := List.mem_iff_getElem?.mp hpart
          obtain ⟨⟨f, _⟩, hf, hflat⟩ := hparts.getElem?_left hk
          obtain ⟨hfield, rfl⟩ : r.fields[k]? = some f ∧ k = _ := by simpa [and_comm] using hf
          obtain ⟨vs, tys, rfl, htys, hvs⟩ := ht.record
          obtain rfl : r.fields.map Field.ty = tys := by simpa [fieldTys?, hr] using htys
          have hty : (r.fields.map Field.ty)[k]? = some f.ty := by simp [hfield]
          obtain ⟨w, hw, hty⟩ := hvs.getElem? hty
          refine ih d (Nat.lt_succ_self d) hflat ?_ hty hu
          rw [Value.part?_append, hv]
          simpa [Value.part?, Value.field?] using hw

theorem Dialect.Env.lookup_of_mem {env : Env α} (hn : env.names.Nodup) {name : String}
    {x : Entity α} (h : (name, x) ∈ env) : env.lookup name = some x := by
  induction env with
  | nil => simp at h
  | cons entry env ih =>
      obtain ⟨hne, hn⟩ := List.nodup_cons.mp hn
      rcases List.mem_cons.mp h with rfl | h
      · exact List.lookup_cons_self
      · have hname : name ∈ Env.names env := List.mem_map_of_mem h
        rw [Env.lookup_cons_of_ne (fun heq : name = entry.1 => hne (heq ▸ hname)), ih hn h]

namespace Lowering

variable {p : Program} {s : Shader} {v : Version} {table : Table} {i : Interface} {supply : Supply}
  {d : Dialect.Shader} {inputs us : List α} {params : List (Val α)}

section Start

variable (A : Interface.Assigned p s i supply) (hp : HasTys p params (s.parameters.map Slot.ty))
include A hp

theorem exists_uniformValues : ∃ us, i.uniformValues params = some us := by
  refine Option.exists_mapM_eq_some fun ⟨u, v⟩ h => ?_
  obtain ⟨⟨bound, _⟩, hz, h⟩ := List.mem_flatMap.mp h
  obtain ⟨_, hu, ⟨⟩⟩ := List.mem_map.mp h
  obtain ⟨k, hk⟩ := List.mem_iff_getElem?.mp hz
  obtain ⟨hbound, hv⟩ := List.getElem?_zip_eq_some.mp hk
  obtain ⟨q, hq, hflat⟩ := A.parameters.getElem?_left hbound
  have hty : (s.parameters.map Slot.ty)[k]? = some q.ty := by simp [hq]
  obtain ⟨_, hv', hty⟩ := hp.getElem? hty
  cases hv.symm.trans hv'
  obtain ⟨a, ha⟩ := p.part?_flattenWithin hflat rfl hty (List.mem_map_of_mem hu)
  exact ⟨a, by simp [ha, Value.leaf?]⟩

theorem uniforms_eq_leaves : i.uniforms = (i.leaves params).map Prod.fst := by
  rw [Interface.map_fst_leaves]
  rw [← A.parameters.length_eq, hp.length_eq, List.length_map]

variable (P : Presents ⟨p, s, v, table, i⟩ d) (hin : inputs.length = s.inputs.length)
  (hus : i.uniformValues params = some us)
include P hin hus

theorem baseEnv_names :
    (d.baseEnv inputs us).names.Nodup ∧ ∀ n ∈ (d.baseEnv inputs us).names, supply.Knows n := by
  have hins := inputVars_names P.inputs A.inputs
  have houts := outputVars_names P.outputs A.outputs
  have hlen : d.inputs.length = inputs.length := by
    rw [hin, ← A.inputs]
    simpa using congrArg List.length hins
  have hlenu : d.uniforms.length = us.length := by
    rw [P.uniforms, Setting.uniformVars, List.length_map, uniforms_eq_leaves A hp,
      List.length_map, (Option.mapM_eq_some.mp hus).length_eq]
  have hunif : d.uniforms.map (fun u => u.name) = i.uniforms.map BoundUniform.ident := by
    simp [P.uniforms, Setting.uniformVars]
  have hnames : (d.baseEnv inputs us).names = ((d.inputs.zip inputs).map Prod.fst).map (fun x => x.name)
      ++ d.outputs.map (fun x => x.name)
      ++ ((d.uniforms.zip us).map Prod.fst).map (fun u => u.name) := by
    simp [Dialect.Shader.baseEnv, Env.names, Function.comp_def]
  have hsub : (d.baseEnv inputs us).names.Sublist i.idents := by
    rw [hnames, List.map_fst_zip (Nat.le_of_eq hlen), List.map_fst_zip (Nat.le_of_eq hlenu), hunif,
      hins]
    exact ((List.Sublist.refl _).append houts).append (List.Sublist.refl _)
  exact ⟨hsub.nodup A.nodup, fun n hn => A.known n (hsub.subset hn)⟩

theorem realized_baseEnv (w : World α) (hw : w.program = p) (hi : w.inputs = inputs)
    (hq : w.parameters = params) :
    Realized ((Setting.mk p s v table i).context ⟨supply, [], [], []⟩) w w.meaning supply
      (d.baseEnv inputs us) := by
  obtain ⟨hnodup, hknown⟩ := baseEnv_names A hp P hin hus
  have hlookup {n : String} {x : Entity α} (h : (n, x) ∈ d.baseEnv inputs us) :
      supply.Knows n ∧ (d.baseEnv inputs us).lookup n = some x :=
    ⟨hknown n (List.mem_map_of_mem h), Env.lookup_of_mem hnodup h⟩
  subst hw hi hq
  refine ⟨rfl, ?_, ?_, by simp [Setting.context], by simp [Setting.context]⟩
  · intro k item hk
    have hname : (d.inputs.map InterfaceVar.name)[k]? = some item.ident := by
      rw [inputVars_names P.inputs A.inputs, List.getElem?_map, show i.inputs[k]? = _ from hk]
      rfl
    obtain ⟨x, hx, hxn⟩ : ∃ x, d.inputs[k]? = some x ∧ x.name = item.ident := by
      simpa using hname
    have hlt : k < w.inputs.length := by
      rw [hin, ← A.inputs]
      exact (List.getElem?_eq_some_iff.mp hk).1
    have ha := List.getElem?_eq_getElem hlt
    have hmem : (item.ident, Entity.constant (some (.leaf w.inputs[k]))) ∈ d.baseEnv w.inputs us := by
      refine List.mem_append_left _ (List.mem_append_left _ (List.mem_map.mpr
        ⟨(x, w.inputs[k]), ?_, ?_⟩))
      · exact List.mem_of_getElem? (List.getElem?_zip_eq_some.mpr ⟨hx, ha⟩)
      · simp [hxn]
    exact ⟨(hlookup hmem).1, _, ha, (hlookup hmem).2⟩
  · intro k path u hu
    obtain ⟨bound, hbound, hfind⟩ : ∃ bound, i.parameters[k]? = some bound ∧ _ :=
      Option.bind_eq_some_iff.mp hu
    obtain rfl : u.uniform.path = path := by simpa using List.find?_some hfind
    obtain ⟨q, hq, _⟩ := A.parameters.getElem?_left hbound
    have hty : (s.parameters.map Slot.ty)[k]? = some q.ty := by simp [hq]
    obtain ⟨root, hroot, _⟩ := hp.getElem? hty
    have hleaf := Interface.mem_leaves hbound hroot (List.mem_of_find?_eq_some hfind)
    obtain ⟨j, hj⟩ := List.mem_iff_getElem?.mp hleaf
    obtain ⟨a, ha, hpart⟩ := (Option.mapM_eq_some.mp hus).getElem?_right hj
    have hmem : (u.ident, Entity.constant (some (.leaf a))) ∈ d.baseEnv w.inputs us := by
      refine List.mem_append_right _ (List.mem_map.mpr ⟨(⟨u.ident, u.uniform.name, u.uniform.leaf⟩, a),
        List.mem_of_getElem? (List.getElem?_zip_eq_some.mpr ⟨?_, ha⟩), rfl⟩)
      rw [P.uniforms, Setting.uniformVars, uniforms_eq_leaves A hp, List.map_map,
        List.getElem?_map, hj]
      rfl
    exact ⟨(hlookup hmem).1, root, a, hroot, Value.eq_leaf_of_bind hpart, (hlookup hmem).2⟩

end Start

end Lowering

end ShaderDialects
