import Mathlib.Data.List.Sort
import Mathlib.Data.String.Basic
import ShaderDialects.Builtin.Table

namespace ShaderDialects

namespace NativeIndex

variable {index : NativeIndex} {form form' : Form} {stage : Stage} {r : Rule} {f : Family} {i : Nat}

theorem lookup_enter_self :
    (index.enter form r).lookup form = some (((index.lookup form).getD {}).add r) := by
  induction index with
  | nil => simp [enter]
  | cons entry index ih =>
      obtain ⟨g, vs⟩ := entry
      rw [enter]
      by_cases hg : g = form
      · simp [hg]
      · have hne : (form == g) = false := beq_false_of_ne (Ne.symm hg)
        rw [if_neg hg, List.lookup_cons, List.lookup_cons, hne]
        exact ih

theorem lookup_enter_of_ne (h : form' ≠ form) :
    (index.enter form r).lookup form' = index.lookup form' := by
  have hne : (form' == form) = false := beq_false_of_ne h
  induction index with
  | nil => simp [enter, List.lookup_cons, hne]
  | cons entry index ih =>
      obtain ⟨g, vs⟩ := entry
      rw [enter]
      by_cases hg : g = form
      · rw [if_pos hg, List.lookup_cons, List.lookup_cons, hg, hne]
      · rw [if_neg hg, List.lookup_cons, List.lookup_cons, ih]

theorem bit_get_add (vs : StageVersions) :
    ((vs.add r).get stage).bit f i = true ↔
      (vs.get stage).bit f i = true ∨ r.stages.contains stage = true ∧ r.versions.bit f i = true := by
  obtain ⟨versions, ⟨vertex, fragment⟩, decision⟩ := r
  cases stage with
  | vertex => cases vertex <;> simp [StageVersions.add, StageVersions.get, StageSet.contains]
  | fragment => cases fragment <;> simp [StageVersions.add, StageVersions.get, StageSet.contains]

theorem find_eq : index.find form stage = ((index.lookup form).getD {}).get stage := by
  rw [find]
  cases index.lookup form with
  | none => cases stage <;> rfl
  | some vs => rfl

theorem bit_find_addRule :
    ((index.addRule r).find form stage).bit f i = true ↔
      (index.find form stage).bit f i = true ∨ r.decision = .native form ∧
        r.stages.contains stage = true ∧ r.versions.bit f i = true := by
  rw [addRule, find_eq, find_eq]
  cases hr : r.decision with
  | emulated e => simp
  | native form' =>
      by_cases h : form = form'
      · subst h
        simp [lookup_enter_self, bit_get_add]
      · have hne : Decision.native form' ≠ .native form := fun he => h (Decision.native.inj he).symm
        simp [lookup_enter_of_ne h, hne]

/-- What each rule may add to an index is true of the whole index if some rule adds it. -/
theorem ofDefinitions_iff {P : NativeIndex → Prop} {Q : Rule → Prop}
    (h : ∀ index r, P (addRule index r) ↔ P index ∨ Q r) (ds : List Definition) :
    P (ofDefinitions ds) ↔ P [] ∨ ∃ d ∈ ds, ∃ r ∈ d.rules, Q r := by
  have hrules (rules : List Rule) (index : NativeIndex) :
      P (rules.foldl addRule index) ↔ P index ∨ ∃ r ∈ rules, Q r := by
    induction rules generalizing index with
    | nil => simp
    | cons r rules ih => rw [List.foldl_cons, ih, h, List.exists_mem_cons_iff, or_assoc]
  rw [ofDefinitions, ← List.foldl_flatMap, hrules]
  refine or_congr_right ?_
  simp only [List.mem_flatMap]
  constructor
  · rintro ⟨r, ⟨d, hd, hr⟩, h⟩
    exact ⟨d, hd, r, hr, h⟩
  · rintro ⟨d, hd, r, hr, h⟩
    exact ⟨r, ⟨d, hd, hr⟩, h⟩

theorem bit_find_ofDefinitions {ds : List Definition} :
    ((ofDefinitions ds).find form stage).bit f i = true ↔
      ∃ d ∈ ds, ∃ r ∈ d.rules, r.decision = .native form ∧ r.stages.contains stage = true ∧
        r.versions.bit f i = true := by
  rw [ofDefinitions_iff (P := fun index => (find index form stage).bit f i = true)
    fun _ _ => bit_find_addRule]
  simp [find]

theorem mem_keys_enter :
    form' ∈ (index.enter form r).map Prod.fst ↔ form' = form ∨ form' ∈ index.map Prod.fst := by
  induction index with
  | nil => simp [enter]
  | cons entry index ih =>
      obtain ⟨g, vs⟩ := entry
      rw [enter]
      by_cases hg : g = form
      · subst hg
        simp
      · rw [if_neg hg, List.map_cons, List.mem_cons, ih, List.map_cons, List.mem_cons]
        tauto

theorem mem_keys_addRule :
    form ∈ (index.addRule r).map Prod.fst ↔
      form ∈ index.map Prod.fst ∨ r.decision = .native form := by
  rw [addRule]
  cases hr : r.decision with
  | emulated e => simp
  | native form' =>
      rw [mem_keys_enter, Decision.native.injEq, eq_comm, or_comm]

theorem mem_keys_ofDefinitions {ds : List Definition} :
    form ∈ (ofDefinitions ds).map Prod.fst ↔ ∃ d ∈ ds, ∃ r ∈ d.rules, r.decision = .native form := by
  rw [ofDefinitions_iff (P := fun index => form ∈ index.map Prod.fst) fun _ _ => mem_keys_addRule]
  simp

section Names

theorem mem_insertName {name m : String} {ns : List String} :
    m ∈ insertName name ns ↔ m = name ∨ m ∈ ns := by
  induction ns with
  | nil => simp [insertName]
  | cons n ns ih =>
      rw [insertName]
      split
      next h => simp [h]
      next =>
        split
        · exact List.mem_cons
        · rw [List.mem_cons, ih, List.mem_cons]
          tauto

theorem pairwise_insertName {name : String} {ns : List String} (h : ns.Pairwise (· < ·)) :
    (insertName name ns).Pairwise (· < ·) := by
  induction ns with
  | nil => simp [insertName]
  | cons n ns ih =>
      obtain ⟨hn, hns⟩ := List.pairwise_cons.mp h
      rw [insertName]
      split
      next => exact h
      next hne =>
        split
        next hlt =>
          refine List.pairwise_cons.mpr ⟨fun m hm => ?_, h⟩
          rcases List.mem_cons.mp hm with rfl | hm
          · exact hlt
          · exact lt_trans hlt (hn m hm)
        next hlt =>
          refine List.pairwise_cons.mpr ⟨fun m hm => ?_, ih hns⟩
          rcases mem_insertName.mp hm with rfl | hm
          · exact lt_of_le_of_ne (not_lt.mp hlt) (Ne.symm hne)
          · exact hn m hm

theorem pairwise_names (index : NativeIndex) : index.names.Pairwise (· < ·) := by
  rw [names]
  induction index.filterMap fun entry => entry.1.name? with
  | nil => exact .nil
  | cons n ns ih => exact pairwise_insertName ih

theorem name?_eq_some {form : Form} {name : String} :
    form.name? = some name ↔ form = .call name ∨ form = .var name := by
  cases form <;> simp [Form.name?]

theorem mem_names {name : String} :
    name ∈ index.names ↔
      .call name ∈ index.map Prod.fst ∨ .var name ∈ index.map Prod.fst := by
  have hinserted (ns : List String) : name ∈ ns.foldr insertName [] ↔ name ∈ ns := by
    induction ns with
    | nil => rfl
    | cons n ns ih => rw [List.foldr_cons, mem_insertName, ih, List.mem_cons]
  rw [names, hinserted, List.mem_filterMap]
  simp only [name?_eq_some, List.mem_map]
  constructor
  · rintro ⟨entry, hmem, h | h⟩
    · exact .inl ⟨entry, hmem, h⟩
    · exact .inr ⟨entry, hmem, h⟩
  · rintro (⟨entry, hmem, h⟩ | ⟨entry, hmem, h⟩)
    · exact ⟨entry, hmem, .inl h⟩
    · exact ⟨entry, hmem, .inr h⟩

/-- The names are the same for indices of the same forms, in whatever order these are visited. -/
theorem names_congr {index' : NativeIndex}
    (h : ∀ form, form ∈ index.map Prod.fst ↔ form ∈ index'.map Prod.fst) :
    index.names = index'.names := by
  apply (pairwise_names index).eq_of_mem_iff (pairwise_names index')
  intro name
  rw [mem_names, mem_names, h, h]

end Names

end NativeIndex

end ShaderDialects
