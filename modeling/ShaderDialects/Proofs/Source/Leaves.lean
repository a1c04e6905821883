import Mathlib.Data.List.Sort
import ShaderDialects.Proofs.Source.Flattening
import ShaderDialects.Proofs.Source.Reachability

namespace ShaderDialects

open Relation (ReflTransGen TransGen)

def Ty.Declared (p : Program) (ty : Ty) : Prop :=
  ∀ d ∈ ty.mentions, ∀ x, ReflTransGen p.DependsOn d x → x ∈ p.declIds

namespace Program

variable (p : Program)

/-- No record holds itself, not even through other records. -/
def AcyclicRecords : Prop := ∀ i, ¬ p.OnCycle (.record i)

/-- The type is built of declared records, nested no deeper than `depth`. -/
inductive Within : Nat → Ty → Prop
  | leaf (depth : Nat) (t : Leaf) : Within depth (.leaf t)
  | record {depth i : Nat} {r : Record} (hr : p.records[i]? = some r)
      (hf : ∀ f ∈ r.fields, Within depth f.ty) : Within (depth + 1) (.record i)

/-- The type's records are nested no deeper than `depth`. Those that are not declared may be at any
depth, as nothing is known to be in them. -/
inductive Shallow : Nat → Ty → Prop
  | leaf (depth : Nat) (t : Leaf) : Shallow depth (.leaf t)
  | missing {depth i : Nat} (hr : p.records[i]? = none) : Shallow depth (.record i)
  | record {depth i : Nat} {r : Record} (hr : p.records[i]? = some r)
      (hf : ∀ f ∈ r.fields, Shallow depth f.ty) : Shallow (depth + 1) (.record i)

/-- The path of field places, through fields of these names, leads from a type to another. -/
inductive Leads : Ty → List Nat → List String → Ty → Prop
  | refl (ty : Ty) : Leads ty [] [] ty
  | field {i k : Nat} {r : Record} {f : Field} {path : List Nat} {names : List String} {ty : Ty}
      (hr : p.records[i]? = some r) (hf : r.fields[k]? = some f) (rest : Leads f.ty path names ty) :
      Leads (.record i) (k :: path) (f.name :: names) ty

def Lacks (ty : Ty) (i : Nat) : Prop :=
  p.records[i]? = none ∧ ∃ path names, p.Leads ty path names (.record i)

variable {p}

theorem dependsOn_of_field {i : Nat} {r : Record} {f : Field} (hr : p.records[i]? = some r)
    (hf : f ∈ r.fields) {d : DeclId} (hd : d ∈ f.ty.mentions) : p.DependsOn (.record i) d := by
  refine ⟨r.mentions.eraseDups, Except.map_eq_ok.mpr ⟨r, record_eq_ok.mpr hr, rfl⟩, ?_⟩
  exact List.mem_eraseDups.mpr (List.mem_flatMap.mpr ⟨f, hf, hd⟩)

end Program

theorem Ty.Declared.field {p : Program} {i : Nat} {r : Record} {f : Field}
    (h : (Ty.record i).Declared p) (hr : p.records[i]? = some r) (hf : f ∈ r.fields) :
    f.ty.Declared p := by
  intro d hd x hx
  exact h _ (List.mem_singleton_self _) x (.head (Program.dependsOn_of_field hr hf hd) hx)

theorem Ty.declared_of_inRange {p : Program} {ty : Ty} (hp : p.InRange)
    (h : ∀ d ∈ ty.mentions, d ∈ p.declIds) : ty.Declared p := by
  intro d hd x hx
  induction hx with
  | refl => exact h d hd
  | tail _ hx _ => exact hp.dependsOn hx

namespace Program

variable {p : Program}

theorem mentions_of_dependsOn {i : Nat} {d : DeclId} (h : p.DependsOn (.record i) d) :
    ∃ r, p.records[i]? = some r ∧ d ∈ r.mentions := by
  obtain ⟨deps, hdeps, hd⟩ := h
  obtain ⟨r, hr, rfl⟩ := Except.map_eq_ok.mp hdeps
  exact ⟨r, record_eq_ok.mp hr, List.mem_eraseDups.mp hd⟩

theorem mem_declIds_of_dependsOn {d x : DeclId} (h : p.DependsOn d x) : d ∈ p.declIds := by
  obtain ⟨deps, hdeps, -⟩ := h
  cases d with
  | record i =>
      obtain ⟨r, hr, -⟩ := Except.map_eq_ok.mp hdeps
      exact record_mem_declIds.mpr (List.getElem?_eq_some_iff.mp (record_eq_ok.mp hr)).1
  | term i =>
      obtain ⟨t, ht, -⟩ := Except.map_eq_ok.mp hdeps
      exact term_mem_declIds.mpr (List.getElem?_eq_some_iff.mp (term_eq_ok.mp ht)).1

theorem acyclicRecords_of_earlier
    (h : ∀ x ∈ p.records.zipIdx, ∀ d ∈ x.1.mentions, d ∈ p.declIds →
      d ∈ (List.range x.2).map .record) : p.AcyclicRecords := by
  have hstep {i : Nat} {d : DeclId} (hd : p.DependsOn (.record i) d) (hmem : d ∈ p.declIds) :
      ∃ j < i, .record j = d := by
    obtain ⟨r, hr, hd⟩ := mentions_of_dependsOn hd
    have hzip : (r, i) ∈ p.records.zipIdx := List.mem_zipIdx_iff_getElem?.mpr hr
    simpa using h _ hzip d hd hmem
  have hrun {i : Nat} {d : DeclId} (hd : TransGen p.DependsOn (.record i) d)
      (hmem : d ∈ p.declIds) : ∃ j < i, .record j = d := by
    induction hd with
    | single hd => exact hstep hd hmem
    | tail _ hd ih =>
        obtain ⟨j, hj, rfl⟩ := ih (mem_declIds_of_dependsOn hd)
        obtain ⟨k, hk, rfl⟩ := hstep hd hmem
        exact ⟨k, hk.trans hj, rfl⟩
  intro i hi
  obtain ⟨d, hd, -⟩ := TransGen.head'_iff.mp hi
  obtain ⟨j, hj, heq⟩ := hrun hi (mem_declIds_of_dependsOn hd)
  cases heq
  exact Nat.lt_irrefl i hj

/-- Records that lead to a type without repeating any leave less of them to be nested in it. -/
theorem shallow_of_visited (hp : p.AcyclicRecords) {visited : List Nat} (hn : visited.Nodup)
    (hlt : ∀ i ∈ visited, i < p.records.length) {depth : Nat}
    (hdepth : depth + visited.length = p.records.length) {ty : Ty}
    (hv : ∀ i ∈ visited, ∀ d ∈ ty.mentions, TransGen p.DependsOn (.record i) d) :
    p.Shallow depth ty := by
  induction depth using Nat.strongRecOn generalizing visited ty with
  | ind depth ih =>
      cases ty with
      | leaf t => exact .leaf depth t
      | record i =>
          cases hr : p.records[i]? with
          | none => exact .missing hr
          | some r =>
              have hself : DeclId.record i ∈ (Ty.record i).mentions := List.mem_singleton_self _
              have hi : i < p.records.length := (List.getElem?_eq_some_iff.mp hr).1
              -- Going through `i` again would close a cycle.
              have hnew : i ∉ visited := fun h => hp i (hv i h _ hself)
              have hn' : (i :: visited).Nodup := List.nodup_cons.mpr ⟨hnew, hn⟩
              have hlt' : ∀ j ∈ i :: visited, j < p.records.length :=
                List.forall_mem_cons.mpr ⟨hi, hlt⟩
              have hle : (i :: visited).length ≤ p.records.length := by
                simpa using (hn'.subperm fun j hj => List.mem_range.mpr (hlt' j hj)).length_le
              rw [List.length_cons] at hle
              obtain ⟨depth, rfl⟩ : ∃ d, depth = d + 1 := ⟨depth - 1, by omega⟩
              refine .record hr fun f hf => ih depth (Nat.lt_succ_self depth) hn' hlt' ?_
                (List.forall_mem_cons.mpr ⟨fun d hd => ?_, fun j hj d hd => ?_⟩)
              · rw [List.length_cons]
                omega
              · exact .single (dependsOn_of_field hr hf hd)
              · exact (hv j hj _ hself).tail (dependsOn_of_field hr hf hd)

theorem shallow_length (hp : p.AcyclicRecords) (ty : Ty) : p.Shallow p.records.length ty :=
  shallow_of_visited hp List.nodup_nil (List.forall_mem_nil _) rfl (List.forall_mem_nil _)

theorem Shallow.within {depth : Nat} {ty : Ty} (h : p.Shallow depth ty) (hty : ty.Declared p) :
    p.Within depth ty := by
  induction h with
  | leaf depth t => exact .leaf depth t
  | missing hr =>
      have hi := record_mem_declIds.mp (hty _ (List.mem_singleton_self _) _ .refl)
      exact absurd hi (Nat.not_lt.mpr (List.getElem?_eq_none_iff.mp hr))
  | record hr _ ih => exact .record hr fun f hf => ih f hf (hty.field hr hf)

theorem within_length (hp : p.AcyclicRecords) {ty : Ty} (hty : ty.Declared p) :
    p.Within p.records.length ty :=
  (shallow_length hp ty).within hty

theorem Within.declared {depth : Nat} {ty : Ty} (h : p.Within depth ty) : ty.Declared p := by
  induction h with
  | leaf depth t => exact List.forall_mem_nil _
  | @record depth i r hr _ ih =>
      intro d hd x hx
      obtain rfl := List.mem_singleton.mp hd
      rcases hx.cases_head with rfl | ⟨d, hd, hx⟩
      · exact record_mem_declIds.mpr (List.getElem?_eq_some_iff.mp hr).1
      · obtain ⟨r', hr', hd⟩ := mentions_of_dependsOn hd
        cases hr.symm.trans hr'
        obtain ⟨f, hf, hd⟩ := List.mem_flatMap.mp hd
        exact ih f hf d hd x hx

section Leads

variable {ty ty' target : Ty} {path rest : List Nat} {names : List String}

theorem leads_leaf {t : Leaf} :
    p.Leads (.leaf t) path names target ↔ path = [] ∧ names = [] ∧ target = .leaf t := by
  constructor
  · rintro ⟨⟩
    exact ⟨rfl, rfl, rfl⟩
  · rintro ⟨rfl, rfl, rfl⟩
    exact .refl _

theorem leads_record {i : Nat} {r : Record} (hr : p.records[i]? = some r) {t : Leaf} :
    p.Leads (.record i) path names (.leaf t) ↔
      ∃ k f path' names', r.fields[k]? = some f ∧ p.Leads f.ty path' names' (.leaf t) ∧
        path = k :: path' ∧ names = f.name :: names' := by
  constructor
  · rintro (_ | ⟨hr', hf, rest⟩)
    cases hr.symm.trans hr'
    exact ⟨_, _, _, _, hf, rest, rfl, rfl⟩
  · rintro ⟨k, f, path', names', hf, rest, rfl, rfl⟩
    exact .field hr hf rest

theorem Leads.append_iff (h : p.Leads ty path names ty') {names' : List String} :
    p.Leads ty (path ++ rest) names' target ↔
      ∃ below, p.Leads ty' rest below target ∧ names' = names ++ below := by
  induction h generalizing names' with
  | refl ty => simp
  | field hr hf _ ih =>
      constructor
      · rintro (_ | ⟨hr', hf', hrest⟩)
        cases hr.symm.trans hr'
        cases hf.symm.trans hf'
        obtain ⟨below, hbelow, rfl⟩ := ih.mp hrest
        exact ⟨below, hbelow, rfl⟩
      · rintro ⟨below, hbelow, rfl⟩
        exact .field hr hf (ih.mpr ⟨below, hbelow, rfl⟩)

end Leads

/-- The uniforms are those of the leaves below `path`, ordered by their paths. -/
structure Flattened (p : Program) (name : String) (path : List Nat) (ty : Ty) (us : List Uniform) :
    Prop where
  sorted : us.Pairwise fun u v => u.path < v.path
  mem : ∀ u, u ∈ us ↔ ∃ rest names, p.Leads ty rest names (.leaf u.leaf) ∧ u.path = path ++ rest ∧
    u.name = ".".intercalate (name :: names)

namespace Flattened

variable {name : String} {path : List Nat} {us : List Uniform}

theorem leaf (t : Leaf) : p.Flattened name path (.leaf t) [⟨name, t, path⟩] := by
  refine ⟨List.pairwise_singleton _ _, fun u => ?_⟩
  rw [List.mem_singleton]
  constructor
  · rintro rfl
    exact ⟨[], [], .refl _, (List.append_nil _).symm, rfl⟩
  · obtain ⟨n, l, q⟩ := u
    rintro ⟨rest, names, h, rfl, rfl⟩
    obtain ⟨rfl, rfl, ⟨⟩⟩ := leads_leaf.mp h
    rw [List.append_nil]
    rfl

theorem record {i : Nat} {r : Record} (hr : p.records[i]? = some r) {parts : List (List Uniform)}
    (h : List.Forall₂ (fun fk part =>
      p.Flattened (name ++ "." ++ fk.1.name) (path ++ [fk.2]) fk.1.ty part) r.fields.zipIdx parts) :
    p.Flattened name path (.record i) parts.flatten := by
  have hpart {k : Nat} {part : List Uniform} (hk : parts[k]? = some part) :
      ∃ f, r.fields[k]? = some f ∧
        p.Flattened (name ++ "." ++ f.name) (path ++ [k]) f.ty part := by
    obtain ⟨⟨f, _⟩, hf, hflat⟩ := h.getElem?_left hk
    obtain ⟨hfield, rfl⟩ : r.fields[k]? = some f ∧ k = _ := by simpa [and_comm] using hf
    exact ⟨f, hfield, hflat⟩
  have hpath {k : Nat} {part : List Uniform} (hk : parts[k]? = some part) {u : Uniform}
      (hu : u ∈ part) : ∃ rest, u.path = path ++ k :: rest := by
    obtain ⟨f, _, hflat⟩ := hpart hk
    obtain ⟨rest, _, _, hu, _⟩ := (hflat.mem u).mp hu
    exact ⟨rest, by rw [hu, List.append_assoc, List.singleton_append]⟩
  refine ⟨List.pairwise_flatten.mpr ⟨fun part hmem => ?_, ?_⟩, fun u => ?_⟩
  · obtain ⟨k, hk⟩ := List.mem_iff_getElem?.mp hmem
    obtain ⟨f, _, hflat⟩ := hpart hk
    exact hflat.sorted
  · rw [List.pairwise_iff_getElem]
    intro j k hj hk hjk u hu v hv
    obtain ⟨rest, hu⟩ := hpath (List.getElem?_eq_getElem hj) hu
    obtain ⟨rest', hv⟩ := hpath (List.getElem?_eq_getElem hk) hv
    rw [hu, hv]
    exact List.append_left_lt (List.cons_lt_cons_iff.mpr (.inl hjk))
  · rw [List.mem_flatten]
    constructor
    · rintro ⟨part, hmem, hu⟩
      obtain ⟨k, hk⟩ := List.mem_iff_getElem?.mp hmem
      obtain ⟨f, hf, hflat⟩ := hpart hk
      obtain ⟨rest, names, hleads, hu, hname⟩ := (hflat.mem u).mp hu
      refine ⟨k :: rest, f.name :: names, .field hr hf hleads, ?_, hname⟩
      rw [hu, List.append_assoc, List.singleton_append]
    · rintro ⟨_, _, hleads, hu, hname⟩
      obtain ⟨k, f, rest, names, hf, hbelow, rfl, rfl⟩ := (leads_record hr).mp hleads
      have hk : r.fields.zipIdx[k]? = some (f, k) := by simp [hf]
      obtain ⟨part, hpart, hflat⟩ := h.getElem?_right hk
      refine ⟨part, List.mem_of_getElem? hpart, (hflat.mem u).mpr ⟨rest, names, hbelow, ?_, hname⟩⟩
      rw [hu, List.append_assoc, List.singleton_append]

end Flattened

theorem exists_flattenWithin {depth : Nat} {ty : Ty} (h : p.Within depth ty) (name : String)
    (path : List Nat) :
    ∃ us, p.flattenWithin depth name path ty = .ok us ∧ p.Flattened name path ty us := by
  induction h generalizing name path with
  | leaf depth t => exact ⟨_, flattenWithin_leaf.mpr rfl, .leaf t⟩
  | @record depth i r hr _ ih =>
      have hfield (fk : Field × Nat) (hfk : fk ∈ r.fields.zipIdx) :=
        ih fk.1 (List.fst_mem_of_mem_zipIdx hfk) (name ++ "." ++ fk.1.name) (path ++ [fk.2])
      obtain ⟨parts, hparts⟩ := List.exists_forall₂ hfield
      refine ⟨parts.flatten, flattenWithin_record.mpr ⟨r, hr, depth, rfl, parts, ?_, rfl⟩,
        .record hr ?_⟩
      · exact hparts.imp fun _ _ h => h.1
      · exact hparts.imp fun _ _ h => h.2

theorem within_of_flattenWithin {depth : Nat} {name : String} {path : List Nat} {ty : Ty}
    {us : List Uniform} (h : p.flattenWithin depth name path ty = .ok us) : p.Within depth ty := by
  induction depth generalizing name path ty us with
  | zero =>
      cases ty with
      | leaf t => exact .leaf 0 t
      | record i => obtain ⟨_, _, _, ⟨⟩, _⟩ := flattenWithin_record.mp h
  | succ depth ih =>
      cases ty with
      | leaf t => exact .leaf (depth + 1) t
      | record i =>
          obtain ⟨r, hr, _, ⟨⟩, parts, hparts, -⟩ := flattenWithin_record.mp h
          refine .record hr fun f hf => ?_
          obtain ⟨k, hk⟩ := List.mem_iff_getElem?.mp hf
          have hzip : r.fields.zipIdx[k]? = some (f, k) := by simp [hk]
          obtain ⟨part, _, hpart⟩ := hparts.getElem?_right hzip
          exact ih hpart

theorem Lacks.of_field {i j : Nat} {r : Record} {f : Field} (h : p.Lacks f.ty j)
    (hr : p.records[i]? = some r) (hf : f ∈ r.fields) : p.Lacks (.record i) j := by
  obtain ⟨hj, path, names, hleads⟩ := h
  obtain ⟨k, hk⟩ := List.mem_iff_getElem?.mp hf
  exact ⟨hj, k :: path, f.name :: names, .field hr hk hleads⟩

theorem Shallow.avoids_flattenWithin {depth : Nat} {ty : Ty} (h : p.Shallow depth ty)
    (name : String) (path : List Nat) :
    (p.flattenWithin depth name path ty).Avoids fun e =>
      ∀ i, p.Lacks ty i → e ≠ .dangling (.record i) := by
  induction h generalizing name path with
  | leaf depth t => exact .of_exists ⟨_, flattenWithin_leaf.mpr rfl⟩
  | missing hr =>
      rw [flattenWithin_missing hr]
      exact .error fun h => h _ ⟨hr, [], [], .refl _⟩ rfl
  | record hr _ ih =>
      rw [flattenWithin_fields hr]
      refine .bind (.mapM fun fk hfk e he => ?_) fun _ => .ok
      have hf := List.fst_mem_of_mem_zipIdx hfk
      exact ih fk.1 hf _ _ e fun j hj => he j (hj.of_field hr hf)

/-- Flattening only fails at a record that is not declared. -/
theorem exists_flatten_error (hp : p.AcyclicRecords) {ty : Ty} (hty : ¬ ty.Declared p)
    (name : String) : ∃ i, p.Lacks ty i ∧ p.flatten name ty = .error (.dangling (.record i)) := by
  cases h : p.flatten name ty with
  | ok us => exact absurd (within_of_flattenWithin h).declared hty
  | error e =>
      by_contra hnone
      refine (shallow_length hp ty).avoids_flattenWithin name [] e (fun i hi he => ?_) h
      exact hnone ⟨i, hi, he ▸ rfl⟩

theorem exists_flatten (hp : p.AcyclicRecords) {ty : Ty} (hty : ty.Declared p) (name : String) :
    ∃ us, p.flatten name ty = .ok us ∧ p.Flattened name [] ty us :=
  exists_flattenWithin (within_length hp hty) name []

end Program

end ShaderDialects
