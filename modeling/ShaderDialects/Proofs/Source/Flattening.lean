import ShaderDialects.Proofs.Source.Linearization
import ShaderDialects.Source.Uniform

namespace ShaderDialects.Program

variable {p : Program} {depth i : Nat} {name : String} {path : List Nat} {us : List Uniform}

theorem flattenWithin_leaf {t : Leaf} :
    p.flattenWithin depth name path (.leaf t) = .ok us ↔ [⟨name, t, path⟩] = us := by
  cases depth <;> simp [flattenWithin]

theorem flattenWithin_missing (hr : p.records[i]? = none) :
    p.flattenWithin depth name path (.record i) = .error (.dangling (.record i)) := by
  cases depth <;> rw [flattenWithin, record, hr] <;> rfl

theorem flattenWithin_fields {r : Record} (hr : p.records[i]? = some r) :
    p.flattenWithin (depth + 1) name path (.record i) = do
      let parts ← r.fields.zipIdx.mapM fun fk =>
        p.flattenWithin depth (name ++ "." ++ fk.1.name) (path ++ [fk.2]) fk.1.ty
      return parts.flatten := by
  rw [flattenWithin, record_eq_ok.mpr hr]
  rfl

theorem flattenWithin_record :
    p.flattenWithin depth name path (.record i) = .ok us ↔
      ∃ r, p.records[i]? = some r ∧ ∃ d, depth = d + 1 ∧ ∃ parts,
        List.Forall₂ (fun fk part =>
          p.flattenWithin d (name ++ "." ++ fk.1.name) (path ++ [fk.2]) fk.1.ty = .ok part)
          r.fields.zipIdx parts ∧
        parts.flatten = us := by
  cases depth with
  | zero =>
      rw [flattenWithin, Except.bind_eq_ok]
      simp
  | succ d =>
      rw [flattenWithin]
      simp only [Except.bind_eq_ok, Except.mapM_eq_ok, Except.pure_eq_ok, record_eq_ok]
      constructor
      · rintro ⟨r, hr, parts, hparts, rfl⟩
        exact ⟨r, hr, d, rfl, parts, hparts, rfl⟩
      · rintro ⟨r, hr, _, ⟨⟩, parts, hparts, rfl⟩
        exact ⟨r, hr, parts, hparts, rfl⟩

end ShaderDialects.Program
