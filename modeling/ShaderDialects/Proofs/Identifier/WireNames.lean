import ShaderDialects.Proofs.Identifier.Interface
import ShaderDialects.Proofs.Source.Leaves

namespace ShaderDialects

/-- The names are told apart and have no dots. Any of them may be empty. -/
def PlainNames (names : List String) : Prop := names.Nodup ∧ ∀ n ∈ names, '.' ∉ n.toList

instance (names : List String) : Decidable (PlainNames names) := instDecidableAnd

theorem intercalate_dot_inj {n n' : String} {ns ns' : List String} (hn : '.' ∉ n.toList)
    (hn' : '.' ∉ n'.toList) (hns : ∀ m ∈ ns, '.' ∉ m.toList) (hns' : ∀ m ∈ ns', '.' ∉ m.toList)
    (heq : ".".intercalate (n :: ns) = ".".intercalate (n' :: ns')) : n = n' ∧ ns = ns' := by
  have hsplit {m : String} {ms : List String} (hm : '.' ∉ m.toList)
      (hms : ∀ m ∈ ms, '.' ∉ m.toList) :
      List.splitOn '.' (".".intercalate (m :: ms)).toList = (m :: ms).map String.toList := by
    have hall : ∀ l ∈ (m :: ms).map String.toList, '.' ∉ l :=
      List.forall_mem_map.mpr (List.forall_mem_cons.mpr ⟨hm, hms⟩)
    rw [String.toList_intercalate]
    exact List.splitOn_intercalate '.' hall (by simp)
  have hmaps : (n :: ns).map String.toList = (n' :: ns').map String.toList := by
    rw [← hsplit hn hns, ← hsplit hn' hns', heq]
  have hinj : Function.Injective String.toList := fun _ _ => String.toList_injective
  exact List.cons_eq_cons.mp (hinj.list_map hmaps)

theorem Interface.exists_assign {p : Program} {s : Shader} (hp : p.AcyclicRecords)
    (hs : ∀ q ∈ s.parameters, q.ty.Declared p) (supply : Identifier.Supply) :
    ∃ r, assign p s supply = .ok r ∧ List.Forall₂
      (fun q us => p.Flattened q.name [] q.ty (us.map BoundUniform.uniform)) s.parameters
        r.1.parameters := by
  obtain ⟨uss, huss⟩ := List.exists_forall₂ fun q hq => Program.exists_flatten hp (hs q hq) q.name
  refine ⟨_, assign_eq_ok.mpr ⟨uss, huss.imp fun _ _ h => h.1, rfl⟩, ?_⟩
  have hu : (named supply s uss).1.parameters.map (List.map BoundUniform.uniform) = uss :=
    nameParameters_uniforms uss
  rw [← hu, List.forall₂_map_right_iff] at huss
  exact huss.imp fun _ _ h => h.2

namespace Program

variable {p : Program}

section Plain

variable (hp : ∀ r ∈ p.records, PlainNames (r.fields.map Field.name))
include hp

theorem Leads.not_mem_names {ty target : Ty} {path : List Nat} {names : List String}
    (h : p.Leads ty path names target) : ∀ n ∈ names, '.' ∉ n.toList := by
  induction h with
  | refl ty => exact List.forall_mem_nil _
  | field hr hf _ ih =>
      have hname := List.mem_map_of_mem (f := Field.name) (List.mem_of_getElem? hf)
      exact List.forall_mem_cons.mpr ⟨(hp _ (List.mem_of_getElem? hr)).2 _ hname, ih⟩

/-- The names of the fields along a path to a leaf determine the path. -/
theorem Leads.path_eq {ty target : Ty} {t : Leaf} {path path' : List Nat} {names : List String}
    (h : p.Leads ty path names target) (h' : p.Leads ty path' names (.leaf t)) : path = path' := by
  induction h generalizing path' with
  | refl ty =>
      cases h'
      rfl
  | @field i k r f path names target hr hf _ ih =>
      obtain ⟨k', f', path', names', hf', hrest, rfl, hnames⟩ := (leads_record hr).mp h'
      obtain ⟨hname, rfl⟩ := List.cons_eq_cons.mp hnames
      have hlt : k < (r.fields.map Field.name).length := by
        simpa using (List.getElem?_eq_some_iff.mp hf).1
      have hplace : (r.fields.map Field.name)[k]? = (r.fields.map Field.name)[k']? := by
        simp [hf, hf', hname]
      obtain rfl := (List.getElem?_inj hlt (hp r (List.mem_of_getElem? hr)).1).mp hplace
      cases hf.symm.trans hf'
      rw [ih hrest]

variable {name : String} {us : List Uniform} {ty : Ty}

theorem Flattened.nodup_names (h : p.Flattened name [] ty us) (hname : '.' ∉ name.toList) :
    (us.map Uniform.name).Nodup := by
  refine List.pairwise_map.mpr (h.sorted.imp_of_mem fun {u v} hu hv hlt heq => ?_)
  obtain ⟨path, names, hleads, hpath, hn⟩ := (h.mem u).mp hu
  obtain ⟨path', names', hleads', hpath', hn'⟩ := (h.mem v).mp hv
  rw [hn, hn'] at heq
  obtain ⟨-, rfl⟩ := intercalate_dot_inj hname hname (hleads.not_mem_names hp)
    (hleads'.not_mem_names hp) heq
  rw [hpath, hpath', hleads.path_eq hp hleads'] at hlt
  exact List.lt_irrefl _ hlt

theorem Flattened.exists_fields (h : p.Flattened name [] ty us) {n : String}
    (hn : n ∈ us.map Uniform.name) :
    ∃ names, (∀ m ∈ names, '.' ∉ m.toList) ∧ n = ".".intercalate (name :: names) := by
  obtain ⟨u, hu, rfl⟩ := List.mem_map.mp hn
  obtain ⟨_, names, hleads, _, hname⟩ := (h.mem u).mp hu
  exact ⟨names, hleads.not_mem_names hp, hname⟩

theorem nodup_wireNames {slots : List Slot} {uss : List (List Uniform)}
    (h : List.Forall₂ (fun q us => p.Flattened q.name [] q.ty us) slots uss)
    (hs : PlainNames (slots.map Slot.name)) : (uss.flatten.map Uniform.name).Nodup := by
  induction h with
  | nil => exact List.nodup_nil
  | @cons q us slots uss hq hrest ih =>
      obtain ⟨hnodup, hplain⟩ := hs
      obtain ⟨hnew, hnodup⟩ := List.nodup_cons.mp hnodup
      obtain ⟨hdot, hplain⟩ := List.forall_mem_cons.mp hplain
      rw [List.flatten_cons, List.map_append, List.nodup_append]
      refine ⟨hq.nodup_names hp hdot, ih ⟨hnodup, hplain⟩, ?_⟩
      -- A name of another parameter starts with the name of that parameter.
      rintro n hn _ hn' rfl
      obtain ⟨names, hnames, rfl⟩ := hq.exists_fields hp hn
      rw [List.map_flatten, List.mem_flatten] at hn'
      obtain ⟨_, hmem, hn'⟩ := hn'
      obtain ⟨us', hus', rfl⟩ := List.mem_map.mp hmem
      obtain ⟨k, hk⟩ := List.mem_iff_getElem?.mp hus'
      obtain ⟨q', hq', hflat⟩ := hrest.getElem?_left hk
      have hmem' := List.mem_map_of_mem (f := Slot.name) (List.mem_of_getElem? hq')
      obtain ⟨names', hnames', heq⟩ := hflat.exists_fields hp hn'
      obtain ⟨hname, -⟩ := intercalate_dot_inj hdot (hplain _ hmem') hnames hnames' heq
      exact hnew (hname ▸ hmem')

end Plain

/-- If no record holds itself, flattening a parameter lists the paths to its leaves, each once and
in lexicographic order, with the leaf there and the names of the fields along the path; and the
names of all uniforms of a shader are told apart if those of its parameters and of the fields of
each record are, and have no dots. -/
theorem flatten_exact (hp : p.AcyclicRecords) :
    (∀ (name : String) (ty : Ty), ty.Declared p →
      ∃ us, p.flatten name ty = .ok us ∧ (us.map Uniform.path).Pairwise (· < ·) ∧
        ∀ u, u ∈ us ↔ ∃ names, p.Leads ty u.path names (.leaf u.leaf) ∧
          u.name = ".".intercalate (name :: names)) ∧
      ∀ (s : Shader) (nativeNames : List String), (∀ q ∈ s.parameters, q.ty.Declared p) →
        (∀ r ∈ p.records, PlainNames (r.fields.map Field.name)) →
        PlainNames (s.parameters.map Slot.name) →
          ∃ i, Interface.ofShader p s nativeNames = .ok i ∧
            (i.uniforms.map fun u => u.uniform.name).Nodup := by
  constructor
  · intro name ty hty
    obtain ⟨us, hus, hflat⟩ := exists_flatten hp hty name
    refine ⟨us, hus, List.pairwise_map.mpr hflat.sorted, fun u => (hflat.mem u).trans ?_⟩
    constructor
    · rintro ⟨_, names, hleads, rfl, hname⟩
      exact ⟨names, hleads, hname⟩
    · rintro ⟨names, hleads, hname⟩
      exact ⟨u.path, names, hleads, rfl, hname⟩
  · intro s nativeNames hs hr hq
    obtain ⟨⟨i, _⟩, hi, hflat⟩ := Interface.exists_assign hp hs (.forShader nativeNames)
    refine ⟨i, Except.map_eq_ok.mpr ⟨_, hi, rfl⟩, ?_⟩
    have h := nodup_wireNames hr (List.forall₂_map_right_iff.mpr hflat) hq
    rw [← List.map_flatten, List.map_map] at h
    exact h

/-! A record that is held twice, with a field and a parameter that have no name. -/
namespace Unnamed

def program : Program where
  records := [
    ⟨"Pair", [⟨"", .leaf .float⟩, ⟨"x", .leaf .vec4⟩], {}⟩,
    ⟨"Outer", [⟨"a", .record 0⟩, ⟨"", .record 0⟩, ⟨"x", .leaf .float⟩], {}⟩]

def shader : Shader where
  name := "unnamed"
  stage := .fragment
  parameters := [⟨"p", .record 1, {}⟩, ⟨"", .record 0, {}⟩, ⟨"x", .leaf .float, {}⟩]

theorem acyclicRecords : program.AcyclicRecords := acyclicRecords_of_earlier (by decide)

theorem declared : ∀ q ∈ shader.parameters, q.ty.Declared program := by
  have hrange : ∀ q ∈ shader.parameters, ∀ d ∈ q.ty.mentions, d ∈ program.declIds := by decide
  exact fun q hq => Ty.declared_of_inRange (by decide) (hrange q hq)

end Unnamed

open Unnamed in
theorem flatten_unnamed :
    (∃ us, program.flatten "p" (.record 1) = .ok us ∧
      us.map Uniform.path = [[0, 0], [0, 1], [1, 0], [1, 1], [2]] ∧
      us.map Uniform.name = ["p.a.", "p.a.x", "p..", "p..x", "p.x"] ∧
      ∀ u, u ∈ us ↔ ∃ names, program.Leads (.record 1) u.path names (.leaf u.leaf) ∧
          u.name = ".".intercalate ("p" :: names)) ∧
      ∃ i, Interface.ofShader program shader [] = .ok i ∧
        (i.uniforms.map fun u => u.uniform.name).Nodup := by
  obtain ⟨hflat, hnames⟩ := flatten_exact acyclicRecords
  refine ⟨?_, hnames shader [] declared (by decide) (by decide)⟩
  have hty := declared ⟨"p", .record 1, {}⟩ (by simp [shader])
  obtain ⟨us, hus, _, hmem⟩ := hflat "p" (.record 1) hty
  refine ⟨us, hus, ?_, ?_, hmem⟩
  · cases hus
    rfl
  · cases hus
    decide

end Program

end ShaderDialects
