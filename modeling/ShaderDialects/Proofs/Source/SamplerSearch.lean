import ShaderDialects.Proofs.Source.Leaves

namespace ShaderDialects

theorem Leaf.isSampler_iff {t : Leaf} : t.isSampler = true ↔ ∃ texture, t = .sampler texture := by
  cases t <;> simp [isSampler]

namespace Program

/-- What the search for a sampler may give, by what flattening gives. -/
inductive Searched : Except Fault (List Uniform) → Except Fault Bool → Prop
  | listed {us : List Uniform} {found : Bool} (h : (us.any fun u => u.leaf.isSampler) = found) :
      Searched (.ok us) (.ok found)
  | failed (e : Fault) : Searched (.error e) (.error e)
  | ahead (e : Fault) : Searched (.error e) (.ok true)

namespace Searched

variable {flat flat' : Except Fault (List Uniform)} {search search' : Except Fault Bool}

theorem append (h : Searched flat search) (h' : Searched flat' search') :
    Searched (do return (← flat) ++ (← flat')) (do if ← search then return true else search') := by
  cases h with
  | failed e => exact .failed e
  | ahead e => exact .ahead e
  | @listed _ found hus =>
      cases found with
      | true =>
          cases h' with
          | listed _ => exact .listed (by rw [List.any_append, hus, Bool.true_or])
          | failed e | ahead e => exact .ahead e
      | false =>
          cases h' with
          | listed hvs => exact .listed (by rw [List.any_append, hus, Bool.false_or, hvs])
          | failed e => exact .failed e
          | ahead e => exact .ahead e

theorem fields {flatten : Field × Nat → Except Fault (List Uniform)}
    {holds : Field → Except Fault Bool} {fks : List (Field × Nat)}
    (h : ∀ fk ∈ fks, Searched (flatten fk) (holds fk.1)) :
    Searched (do return (← fks.mapM flatten).flatten) ((fks.map Prod.fst).anyM holds) := by
  induction fks with
  | nil => exact .listed rfl
  | cons fk fks ih =>
      obtain ⟨hfk, hfks⟩ := List.forall_mem_cons.mp h
      rw [List.map_cons, List.anyM_cons]
      simpa only [List.mapM_cons, bind_assoc, pure_bind, List.flatten_cons]
        using hfk.append (ih hfks)

theorem of_ok {us : List Uniform} (h : Searched (.ok us) search) :
    ∃ found, search = .ok found ∧ (us.any fun u => u.leaf.isSampler) = found := by
  cases h with
  | listed h => exact ⟨_, rfl, h⟩

theorem of_error {e : Fault} (h : Searched (.error e) search) :
    search = .error e ∨ search = .ok true := by
  cases h with
  | failed => exact .inl rfl
  | ahead => exact .inr rfl

end Searched

variable {p : Program}

theorem holdsSamplerWithin_fields {depth i : Nat} {r : Record} (hr : p.records[i]? = some r) :
    p.holdsSamplerWithin (depth + 1) (.record i) =
      r.fields.anyM fun f => p.holdsSamplerWithin depth f.ty := by
  rw [holdsSamplerWithin, record_eq_ok.mpr hr]
  rfl

/-- This needs nothing of the program: a record that is nested too deep stops both. -/
theorem searched_within (p : Program) (depth : Nat) (name : String) (path : List Nat) (ty : Ty) :
    Searched (p.flattenWithin depth name path ty) (p.holdsSamplerWithin depth ty) := by
  induction depth generalizing name path ty with
  | zero =>
      cases ty with
      | leaf t => exact .listed (Bool.or_false _)
      | record i =>
          rw [flattenWithin, holdsSamplerWithin]
          cases p.record i <;> exact .failed _
  | succ depth ih =>
      cases ty with
      | leaf t => exact .listed (Bool.or_false _)
      | record i =>
          cases hr : p.records[i]? with
          | none =>
              rw [flattenWithin, holdsSamplerWithin, record, hr]
              exact .failed _
          | some r =>
              rw [flattenWithin_fields hr, holdsSamplerWithin_fields hr]
              have hfields : Searched _ ((r.fields.zipIdx.map Prod.fst).anyM fun f =>
                  p.holdsSamplerWithin depth f.ty) :=
                .fields fun fk _ => ih (name ++ "." ++ fk.1.name) (path ++ [fk.2]) fk.1.ty
              rwa [List.zipIdx_map_fst] at hfields

theorem Within.exists_holdsSamplerWithin {depth : Nat} {ty : Ty} (h : p.Within depth ty) :
    ∃ found, p.holdsSamplerWithin depth ty = .ok found := by
  obtain ⟨us, hus, -⟩ := exists_flattenWithin h "" []
  have hsearch := p.searched_within depth "" [] ty
  obtain ⟨found, hfound, -⟩ := (hus ▸ hsearch).of_ok
  exact ⟨found, hfound⟩

theorem exists_leads_sampler {depth : Nat} {ty : Ty} (h : p.holdsSamplerWithin depth ty = .ok true) :
    ∃ path names texture, p.Leads ty path names (.leaf (.sampler texture)) := by
  induction depth generalizing ty with
  | zero =>
      cases ty with
      | leaf t =>
          obtain ⟨texture, rfl⟩ := Leaf.isSampler_iff.mp (Except.ok.inj h)
          exact ⟨[], [], texture, .refl _⟩
      | record i =>
          obtain ⟨_, _, h⟩ := Except.bind_eq_ok.mp h
          cases h
  | succ depth ih =>
      cases ty with
      | leaf t =>
          obtain ⟨texture, rfl⟩ := Leaf.isSampler_iff.mp (Except.ok.inj h)
          exact ⟨[], [], texture, .refl _⟩
      | record i =>
          obtain ⟨r, hr, h⟩ := Except.bind_eq_ok.mp h
          obtain ⟨f, hf, h⟩ := Except.exists_of_anyM_eq_true h
          obtain ⟨k, hk⟩ := List.mem_iff_getElem?.mp hf
          obtain ⟨path, names, texture, hleads⟩ := ih h
          exact ⟨k :: path, f.name :: names, texture, .field (record_eq_ok.mp hr) hk hleads⟩

/-- If no record holds itself, a type is found to hold a sampler exactly if one of the leaves that it
is flattened to is a sampler. This takes all the records of the type to be declared. If they are not,
flattening fails at one that is missing. The search fails at the same one, or else it has found a
sampler that the type does hold. -/
theorem holdsSampler_exact (hp : p.AcyclicRecords) (name : String) (ty : Ty) :
    (ty.Declared p → ∃ us holds, p.flatten name ty = .ok us ∧ p.holdsSampler ty = .ok holds ∧
      (holds = true ↔ ∃ u ∈ us, ∃ texture, u.leaf = .sampler texture)) ∧
    (¬ ty.Declared p → ∃ i, p.Lacks ty i ∧
      p.flatten name ty = .error (.dangling (.record i)) ∧
      (p.holdsSampler ty = .error (.dangling (.record i)) ∨ p.holdsSampler ty = .ok true ∧
        ∃ path names texture, p.Leads ty path names (.leaf (.sampler texture)))) := by
  have hsearch : Searched (p.flatten name ty) (p.holdsSampler ty) :=
    p.searched_within p.records.length name [] ty
  constructor
  · intro hty
    obtain ⟨us, hus, -⟩ := exists_flatten hp hty name
    obtain ⟨holds, hholds, hany⟩ := (hus ▸ hsearch).of_ok
    refine ⟨us, holds, hus, hholds, ?_⟩
    rw [← hany, List.any_eq_true]
    exact exists_congr fun u => and_congr_right fun _ => Leaf.isSampler_iff
  · intro hty
    obtain ⟨i, hi, hfault⟩ := exists_flatten_error hp hty name
    refine ⟨i, hi, hfault, ?_⟩
    exact (hfault ▸ hsearch).of_error.imp_right fun h => ⟨h, exists_leads_sampler h⟩

/-! A record without fields, a record with a sampler that is held twice, and records that hold it
before or after one that is missing. -/
namespace Stacked

def program : Program where
  records := [
    ⟨"Blank", [], {}⟩,
    ⟨"Layer", [⟨"opacity", .leaf .float⟩, ⟨"image", .leaf (.sampler .flat)⟩], {}⟩,
    ⟨"Stack", [⟨"blank", .record 0⟩, ⟨"front", .record 1⟩, ⟨"back", .record 1⟩], {}⟩,
    ⟨"Covered", [⟨"front", .record 1⟩, ⟨"lost", .record 9⟩], {}⟩,
    ⟨"Covering", [⟨"lost", .record 9⟩, ⟨"back", .record 1⟩], {}⟩]

theorem acyclicRecords : program.AcyclicRecords := acyclicRecords_of_earlier (by decide)

theorem declared {i : Nat} (h : (program.flatten "" (.record i)).isOk) :
    (Ty.record i).Declared program := by
  obtain ⟨us, hus⟩ := Except.exists_eq_ok_of_isOk h
  exact (within_of_flattenWithin hus).declared

theorem not_declared {i : Nat} (h : (program.flatten "" (.record i)).isOk = false) :
    ¬ (Ty.record i).Declared program := by
  intro hty
  obtain ⟨us, hus, -⟩ := exists_flatten acyclicRecords hty ""
  rw [hus] at h
  cases h

end Stacked

open Stacked in
theorem holdsSampler_stacked :
    (∃ us, program.flatten "stack" (.record 2) = .ok us ∧
      ∃ u ∈ us, ∃ texture, u.leaf = .sampler texture) ∧
    (∃ us, program.flatten "blank" (.record 0) = .ok us ∧
      ¬ ∃ u ∈ us, ∃ texture, u.leaf = .sampler texture) ∧
    (∃ i, program.Lacks (.record 3) i ∧ program.holdsSampler (.record 3) = .ok true) ∧
    ∃ i, program.Lacks (.record 4) i ∧
      program.holdsSampler (.record 4) = .error (.dangling (.record i)) := by
  refine ⟨?_, ?_, ?_, ?_⟩
  · obtain ⟨us, holds, hus, hholds, hiff⟩ :=
      (holdsSampler_exact acyclicRecords "stack" (.record 2)).1 (declared rfl)
    exact ⟨us, hus, hiff.mp (Except.ok.inj hholds).symm⟩
  · obtain ⟨us, holds, hus, hholds, hiff⟩ :=
      (holdsSampler_exact acyclicRecords "blank" (.record 0)).1 (declared rfl)
    obtain rfl : false = holds := Except.ok.inj hholds
    exact ⟨us, hus, fun h => Bool.noConfusion (hiff.mpr h)⟩
  · obtain ⟨i, hi, -, h | ⟨h, -⟩⟩ :=
      (holdsSampler_exact acyclicRecords "covered" (.record 3)).2 (not_declared rfl)
    · cases h
    · exact ⟨i, hi, h⟩
  · obtain ⟨i, hi, -, h | ⟨h, -⟩⟩ :=
      (holdsSampler_exact acyclicRecords "covering" (.record 4)).2 (not_declared rfl)
    · exact ⟨i, hi, h⟩
    · cases h

end Program

end ShaderDialects
