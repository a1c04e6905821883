import ShaderDialects.Builtin.Standard
import ShaderDialects.Proofs.Builtin.Index
import ShaderDialects.Proofs.Except

namespace ShaderDialects

namespace Table

variable {t : Table} {v : Version} {stage : Stage} {symbol : String} {kind : ExternalKind}

theorem contains_foldl_union (rules : List Rule) (vs : VersionSet) :
    (rules.foldl (fun s r => s.union r.versions) vs).contains v = true ↔
      vs.contains v = true ∨ ∃ r ∈ rules, r.versions.contains v = true := by
  induction rules generalizing vs with
  | nil => simp
  | cons r rules ih => simp [ih, or_assoc]

theorem resolve_eq_ok {d : Decision} :
    t.resolve symbol kind v stage = .ok d ↔
      ∃ e, t.find? symbol kind = some e ∧
        ∃ r, (e.rules.find? fun r => r.covers v stage) = some r ∧ r.decision = d := by
  rw [resolve, Except.bind_eq_ok, require]
  cases t.find? symbol kind with
  | none => simp
  | some e => cases h : e.rules.find? fun r => r.covers v stage <;> simp [h]

theorem availability_eq_ok {vs : VersionSet} :
    t.availability symbol kind stage = .ok vs ↔
      ∃ e, t.find? symbol kind = some e ∧
        (e.rules.filter fun r => r.stages.contains stage).foldl
          (fun s r => s.union r.versions) .empty = vs := by
  rw [availability, Except.bind_eq_ok, require]
  cases t.find? symbol kind with
  | none => simp
  | some e => simp [Except.pure_eq_ok]

/-- An external is available exactly where it can be resolved. -/
theorem available_iff_resolves :
    (∃ vs, t.availability symbol kind stage = .ok vs ∧ vs.contains v = true) ↔
      ∃ d, t.resolve symbol kind v stage = .ok d := by
  simp only [availability_eq_ok, resolve_eq_ok]
  constructor
  · rintro ⟨_, ⟨e, he, rfl⟩, hv⟩
    rcases (contains_foldl_union _ _).mp hv with hv | ⟨r, hr, hv⟩
    · simp at hv
    · obtain ⟨hmem, hs⟩ := List.mem_filter.mp hr
      have hsome : (e.rules.find? fun r => r.covers v stage).isSome := by
        rw [List.find?_isSome]
        exact ⟨r, hmem, by simp [Rule.covers, hs, hv]⟩
      obtain ⟨r', hr'⟩ := Option.isSome_iff_exists.mp hsome
      exact ⟨r'.decision, e, he, r', hr', rfl⟩
  · rintro ⟨_, e, he, r, hr, rfl⟩
    obtain ⟨hs, hv⟩ : r.stages.contains stage = true ∧ r.versions.contains v = true := by
      simpa [Rule.covers] using List.find?_some hr
    exact ⟨_, ⟨e, he, rfl⟩, (contains_foldl_union _ _).mpr
      (.inr ⟨r, List.mem_filter.mpr ⟨List.mem_of_find?_eq_some hr, hs⟩, hv⟩)⟩

theorem rule_of_resolve {d : Decision} (h : t.resolve symbol kind v stage = .ok d) :
    ∃ e ∈ t.definitions, e.symbol = symbol ∧ e.kind = kind ∧
      ∃ r ∈ e.rules, r.covers v stage = true ∧ r.decision = d := by
  obtain ⟨e, he, r, hr, hd⟩ := resolve_eq_ok.mp h
  obtain ⟨hs, hk⟩ : e.symbol = symbol ∧ e.kind = kind := by simpa using List.find?_some he
  have hc : r.covers v stage = true := by simpa using List.find?_some hr
  exact ⟨e, List.mem_of_find?_eq_some he, hs, hk, r, List.mem_of_find?_eq_some hr, hc, hd⟩

theorem bit_nativeAvailability {form : Form} {f : Family} {i : Nat} :
    (t.nativeAvailability form stage).bit f i = true ↔
      ∃ d ∈ t.definitions, ∃ r ∈ d.rules, r.decision = .native form ∧
        r.stages.contains stage = true ∧ r.versions.bit f i = true := by
  rw [nativeAvailability, natives_eq, NativeIndex.bit_find_ofDefinitions]

theorem nativeAvailability_contains_iff {form : Form} :
    (t.nativeAvailability form stage).contains v = true ↔
      ∃ d ∈ t.definitions, ∃ r ∈ d.rules, r.decision = .native form ∧ r.covers v stage = true := by
  obtain ⟨f, i, hbit⟩ := VersionSet.exists_bit_eq_contains v
  rw [hbit, bit_nativeAvailability]
  simp only [Rule.covers, hbit, Bool.and_eq_true]

theorem mem_nativeNames {name : String} :
    name ∈ t.nativeNames ↔ ∃ d ∈ t.definitions, ∃ r ∈ d.rules,
      r.decision = .native (.call name) ∨ r.decision = .native (.var name) := by
  rw [nativeNames_eq, NativeIndex.mem_names, natives_eq, NativeIndex.mem_keys_ofDefinitions,
    NativeIndex.mem_keys_ofDefinitions]
  constructor
  · rintro (⟨d, hd, r, hr, h⟩ | ⟨d, hd, r, hr, h⟩)
    · exact ⟨d, hd, r, hr, .inl h⟩
    · exact ⟨d, hd, r, hr, .inr h⟩
  · rintro ⟨d, hd, r, hr, h | h⟩
    · exact .inl ⟨d, hd, r, hr, h⟩
    · exact .inr ⟨d, hd, r, hr, h⟩

theorem nativeAvailability_of_resolve {form : Form}
    (h : t.resolve symbol kind v stage = .ok (.native form)) :
    (t.nativeAvailability form stage).contains v = true := by
  obtain ⟨e, he, _, _, r, hr, hc, hd⟩ := rule_of_resolve h
  exact nativeAvailability_contains_iff.mpr ⟨e, he, r, hr, hd, hc⟩

end Table

/-- Whether a table has brought the emulation along. -/
def Emulation.isCustom : Emulation → Bool
  | custom _ _ _ => true
  | _ => false

def Emulation.kind : Emulation → ExternalKind
  | pi => .value
  | _ => .function

/-- Variables are for values only, and an emulation is a listed one, for the external that it stands
for. -/
def Decision.Suits (symbol : String) (kind : ExternalKind) : Decision → Prop
  | native form => form.isVariable = true ↔ kind = .value
  | emulated e => e.isCustom = false ∧ kind = e.kind ∧ symbol = e.symbol

instance (symbol : String) (kind : ExternalKind) (d : Decision) : Decidable (d.Suits symbol kind) :=
  match d with
  | .native _ => instDecidableIff
  | .emulated _ => instDecidableAnd

namespace Table

theorem standard_definitions_suit :
    ∀ e ∈ standard.definitions, ∀ r ∈ e.rules, r.decision.Suits e.symbol e.kind := by
  decide +kernel

theorem suits_of_standard_resolve {symbol : String} {kind : ExternalKind} {v : Version}
    {stage : Stage} {d : Decision} (h : standard.resolve symbol kind v stage = .ok d) :
    d.Suits symbol kind := by
  obtain ⟨e, he, rfl, rfl, r, hr, _, rfl⟩ := rule_of_resolve h
  exact standard_definitions_suit e he r hr

end Table

end ShaderDialects
