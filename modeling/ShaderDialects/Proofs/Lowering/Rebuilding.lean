import ShaderDialects.Proofs.Identifier.Interface
import ShaderDialects.Proofs.Lowering.Context
import ShaderDialects.Proofs.Source.Flattening
import ShaderDialects.Proofs.Source.Notes

namespace ShaderDialects

namespace Program

variable {p : Program} {depth i : Nat} {ty : Ty}

theorem holdsSamplerWithin_record :
    p.holdsSamplerWithin depth (.record i) = .ok false ↔
      ∃ r, p.records[i]? = some r ∧ ∃ d, depth = d + 1 ∧
        ∀ f ∈ r.fields, p.holdsSamplerWithin d f.ty = .ok false := by
  cases depth with
  | zero =>
      rw [holdsSamplerWithin, Except.bind_eq_ok]
      simp
  | succ d =>
      rw [holdsSamplerWithin]
      simp only [Except.bind_eq_ok, record_eq_ok, Except.anyM_eq_false]
      constructor
      · rintro ⟨r, hr, h⟩
        exact ⟨r, hr, d, rfl, h⟩
      · rintro ⟨r, hr, _, ⟨⟩, h⟩
        exact ⟨r, hr, h⟩

theorem holdsSamplerWithin_mono {d d' : Nat} (hd : d ≤ d')
    (h : p.holdsSamplerWithin d ty = .ok false) : p.holdsSamplerWithin d' ty = .ok false := by
  induction d generalizing d' ty with
  | zero =>
      cases ty with
      | leaf t => cases d' <;> exact h
      | record i => obtain ⟨_, _, _, ⟨⟩, _⟩ := holdsSamplerWithin_record.mp h
  | succ d ih =>
      cases ty with
      | leaf t => cases d' <;> exact h
      | record i =>
          obtain ⟨r, hr, _, ⟨⟩, hf⟩ := holdsSamplerWithin_record.mp h
          obtain ⟨k, rfl⟩ := Nat.exists_eq_add_of_le' hd
          refine holdsSamplerWithin_record.mpr ⟨r, hr, d + k, by omega, fun f hmem => ?_⟩
          exact ih (by omega) (hf f hmem)

theorem holdsSampler_field {r : Record} {f : Field} (h : p.holdsSampler (.record i) = .ok false)
    (hr : p.records[i]? = some r) (hf : f ∈ r.fields) : p.holdsSampler f.ty = .ok false := by
  obtain ⟨r', hr', d, hd, hall⟩ := holdsSamplerWithin_record.mp h
  cases hr.symm.trans hr'
  exact holdsSamplerWithin_mono (by omega) (hall f hf)

end Program

namespace Lowering

variable {c : Context} {ds : List DeclId} {q : Nat}

structure Structured (c : Context) (ds : List DeclId) : Prop where
  declared : ∀ i, .record i ∈ ds → ∃ name, c.structs.lookup i = some ⟨name, c.program.fieldNames i⟩
  nested : ∀ i r, .record i ∈ ds → c.program.records[i]? = some r → ∀ d ∈ r.mentions, d ∈ ds

theorem Structured.ty (S : Structured c ds) {ty : Ty} (h : ∀ d ∈ ty.mentions, d ∈ ds) :
    ∃ t, c.ty ty = .ok t := by
  cases ty with
  | leaf t => exact ⟨_, rfl⟩
  | record i =>
      obtain ⟨name, hname⟩ := S.declared i (h _ (by simp [Ty.mentions]))
      exact ⟨_, Context.ty_record_eq_ok.mpr ⟨_, hname, rfl⟩⟩

/-- What has been flattened can be rebuilt, if each of its uniforms is there. -/
theorem exists_rebuildWithin (S : Structured c ds) {d D : Nat} {name : String} {path : List Nat}
    {ty : Ty} {us : List Uniform} (h : c.program.flattenWithin d name path ty = .ok us) (hd : d ≤ D)
    (hu : ∀ u ∈ us, ∃ b, c.uniform? q u.path = some b) (hm : ∀ d ∈ ty.mentions, d ∈ ds)
    (hs : ∀ i, ty = .record i → c.program.holdsSampler ty = .ok false) :
    ∃ x, c.rebuildWithin D q path ty = .ok x := by
  induction d using Nat.strongRecOn generalizing D name path ty us with
  | ind d ih =>
      cases ty with
      | leaf t =>
          obtain rfl := Program.flattenWithin_leaf.mp h
          obtain ⟨b, hb⟩ := hu _ (List.mem_singleton_self _)
          exact ⟨_, Context.rebuildWithin_leaf.mpr ⟨b, hb, rfl⟩⟩
      | record i =>
          obtain ⟨r, hr, d, rfl, parts, hparts, rfl⟩ := Program.flattenWithin_record.mp h
          obtain ⟨D, rfl⟩ : ∃ D', D = D' + 1 := ⟨D - 1, by omega⟩
          have hmem : DeclId.record i ∈ ds := hm _ (by simp [Ty.mentions])
          have hsampler := hs i rfl
          have hfield (fk : Field × Nat) (hfk : fk ∈ r.fields.zipIdx) :
              ∃ y, c.rebuildWithin D q (path ++ [fk.2]) fk.1.ty = .ok y := by
            obtain ⟨k, hk⟩ := List.mem_iff_getElem?.mp hfk
            obtain ⟨part, hpart, hflat⟩ := hparts.getElem?_right hk
            have hf : fk.1 ∈ r.fields := List.fst_mem_of_mem_zipIdx hfk
            refine ih d (Nat.lt_succ_self d) hflat (by omega) (fun u huu => ?_) (fun x hx => ?_) ?_
            · exact hu u (List.mem_flatten.mpr ⟨part, List.mem_of_getElem? hpart, huu⟩)
            · exact S.nested i r hmem hr x (List.mem_flatMap.mpr ⟨fk.1, hf, hx⟩)
            · exact fun j hj => Program.holdsSampler_field hsampler hr hf
          obtain ⟨args, hargs⟩ := List.exists_forall₂ hfield
          obtain ⟨name, hname⟩ := S.declared i hmem
          exact ⟨_, Context.rebuildWithin_record.mpr ⟨Context.constructible_eq_ok.mpr hsampler, r, hr,
            D, rfl, args, hargs, _, hname, rfl⟩⟩

theorem exists_flattened {p : Program} {s : Shader} {params : List (List BoundUniform)}
    (hparams : List.Forall₂
      (fun q us => p.flatten q.name q.ty = .ok (us.map BoundUniform.uniform)) s.parameters params)
    {Γ : List (Nat × Ty)} {e : Expr} (hn : e.Noted p s Γ) {path : List Nat}
    (hp : e.parameterPath? = some (q, path)) :
    ∃ bound, params[q]? = some bound ∧ ∃ d ≤ p.records.length, ∃ name us,
      p.flattenWithin d name path e.ty = .ok us ∧ ∀ u ∈ us, u ∈ bound.map BoundUniform.uniform := by
  induction e generalizing path with
  | parameter n i =>
      obtain ⟨rfl, rfl⟩ : i = q ∧ [] = path := by simpa [Expr.parameterPath?] using hp
      obtain ⟨slot, hs, hty⟩ := Option.map_eq_some_iff.mp hn
      obtain ⟨bound, hb, hflat⟩ := hparams.getElem?_right hs
      rw [hty] at hflat
      exact ⟨bound, hb, _, Nat.le_refl _, _, _, hflat, fun u hu => hu⟩
  | field n base k ih =>
      obtain ⟨⟨q', path'⟩, hbase, hpath⟩ := Option.map_eq_some_iff.mp hp
      obtain ⟨rfl, rfl⟩ : q' = q ∧ path' ++ [k] = path := by simpa using hpath
      obtain ⟨bound, hb, d, hd, name, us, hflat, hus⟩ := ih hn.1 hbase
      refine ⟨bound, hb, ?_⟩
      have hfield : p.fieldTy? base.ty k = some n.ty := hn.2
      cases hty : base.ty with
      | leaf t => simp [hty, Program.fieldTy?] at hfield
      | record i =>
          rw [hty] at hflat
          obtain ⟨r, hr, d, rfl, parts, hparts, rfl⟩ := Program.flattenWithin_record.mp hflat
          obtain ⟨f, hf, hfty⟩ : ∃ f, r.fields[k]? = some f ∧ f.ty = n.ty := by
            simpa [hty, Program.fieldTy?, Program.fieldTys?, hr] using hfield
          have hk : r.fields.zipIdx[k]? = some (f, k) := by simp [hf]
          obtain ⟨part, hpart, hflat⟩ := hparts.getElem?_right hk
          rw [hfty] at hflat
          refine ⟨d, by omega, _, part, hflat, fun u hu => hus u ?_⟩
          exact List.mem_flatten.mpr ⟨part, List.mem_of_getElem? hpart, hu⟩
  | _ => simp [Expr.parameterPath?] at hp

theorem exists_uniform {bound : List BoundUniform} (hb : c.interface.parameters[q]? = some bound)
    {u : Uniform} (hu : u ∈ bound.map BoundUniform.uniform) : ∃ b, c.uniform? q u.path = some b := by
  obtain ⟨b, hmem, rfl⟩ := List.mem_map.mp hu
  have hsome : (bound.find? fun b' => b'.uniform.path = b.uniform.path).isSome :=
    List.find?_isSome.mpr ⟨b, hmem, by simp⟩
  rw [Context.uniform?, hb]
  exact Option.isSome_iff_exists.mp hsome

theorem exists_rebuild (S : Structured c ds) {s : Shader}
    (hparams : List.Forall₂
      (fun q us => c.program.flatten q.name q.ty = .ok (us.map BoundUniform.uniform)) s.parameters
      c.interface.parameters)
    {Γ : List (Nat × Ty)} {e : Expr} (hn : e.Noted c.program s Γ) {path : List Nat}
    (hp : e.parameterPath? = some (q, path)) (hm : ∀ d ∈ e.ty.mentions, d ∈ ds)
    (hs : ∀ i, e.ty = .record i → c.program.holdsSampler e.ty = .ok false) :
    ∃ x, c.rebuild q path e.ty = .ok x := by
  obtain ⟨bound, hb, d, hd, name, us, hflat, hus⟩ := exists_flattened hparams hn hp
  exact exists_rebuildWithin S hflat hd (fun u hu => exists_uniform hb (hus u hu)) hm hs

end Lowering

end ShaderDialects
