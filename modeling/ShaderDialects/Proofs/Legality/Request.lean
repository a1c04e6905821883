import ShaderDialects.Package.Program
import ShaderDialects.Proofs.Legality.Construct

namespace ShaderDialects

namespace Version

theorem compare?_of_lt {v w : Version} (hf : v.family = w.family) (h : v.number < w.number) :
    v.compare? w = some .lt := by
  rw [compare?, if_pos hf, Nat.compare_eq_lt.mpr h]

theorem lt_of_compare? {v w : Version} (h : v.compare? w = some .lt) : v.number < w.number := by
  rw [compare?] at h
  split at h
  · exact Nat.compare_eq_lt.mp (Option.some.inj h)
  · cases h

end Version

namespace VersionSet

theorem pairwise_toList (s : VersionSet) :
    s.toList.Pairwise fun v w => v.family = w.family → v.number < w.number := by
  have hall : Version.all.Pairwise fun v w => v.family = w.family → v.number < w.number := by
    decide
  exact hall.filter _

theorem family_of_contains_full {s : FullSet} {v : Version}
    (h : (⟨s, 0⟩ : VersionSet).contains v = true) : v.family = .full := by
  cases v with
  | full v => rfl
  | embedded v => simp [contains] at h

theorem family_of_contains_embedded {s : EmbeddedSet} {v : Version}
    (h : (⟨0, s⟩ : VersionSet).contains v = true) : v.family = .embedded := by
  cases v with
  | full v => simp [contains] at h
  | embedded v => rfl

theorem contains_ofFamily {family : Family} {v : Version} :
    (ofFamily family).contains v = true ↔ v.family = family := by
  cases family <;> rcases v with v | v <;> cases v <;> decide

theorem Named.eq_of_contains_iff {s t : VersionSet} {P : Version → Prop} (hs : s.Named)
    (ht : t.Named) (h : ∀ v, s.contains v = true ↔ P v) (h' : ∀ v, t.contains v = true ↔ P v) :
    s = t :=
  hs.ext ht fun v => Bool.eq_iff_iff.mpr ((h v).trans (h' v).symm)

theorem Named.isEmpty_eq_true {s : VersionSet} (hs : s.Named) :
    s.isEmpty = true ↔ ∀ v, ¬ s.contains v = true := by
  rw [hs.isEmpty_iff, List.eq_nil_iff_forall_not_mem]
  simp only [mem_toList]

theorem Named.isEmpty_eq_false {s : VersionSet} (hs : s.Named) :
    s.isEmpty = false ↔ ∃ v, s.contains v = true := by
  rw [← Bool.not_eq_true, hs.isEmpty_eq_true, not_forall_not]

end VersionSet

namespace Legality

def FirstToReject (cs : List Construct) (v : Version) (c : Construct) : Prop :=
  ∃ pre post, cs = pre ++ c :: post ∧ (∀ b ∈ pre, b.versions.contains v = true) ∧
    c.versions.contains v = false

/-- What comes of a request for one family, where the constructs are `cs` and those versions which
support them all are `m`. -/
inductive FamilyOutcome (shader : String) (cs : List Construct) (m : VersionSet)
    (family : Family) : FamilyRequest VersionSet → Except Error VersionSet → Prop
  | granted {s : VersionSet} (h : ∀ v, s.contains v = true → m.contains v = true) :
      FamilyOutcome shader cs m family (.exactly s) (.ok s)
  /-- Of the versions that are not supported the least one is reported. -/
  | refused {s : VersionSet} {v : Version} {c : Construct} (hv : s.contains v = true)
      (hm : m.contains v = false)
      (least : ∀ w, s.contains w = true → m.contains w = false →
        v = w ∨ v.compare? w = some .lt)
      (hc : FirstToReject cs v c) :
      FamilyOutcome shader cs m family (.exactly s)
        (.error (.unsupported shader v c.subject c.objection))
  | chosen {s t : VersionSet} (named : t.Named)
      (h : ∀ v, t.contains v = true ↔ s.contains v = true ∧ m.contains v = true)
      (hne : ∃ v, t.contains v = true) : FamilyOutcome shader cs m family (.anyOf s) (.ok t)
  | noneChosen {s : VersionSet} (h : ∀ v, ¬ (s.contains v = true ∧ m.contains v = true)) :
      FamilyOutcome shader cs m family (.anyOf s) (.error (.noSupportedVersion shader family))
  | maximal {t : VersionSet} (named : t.Named)
      (h : ∀ v, t.contains v = true ↔ m.contains v = true ∧ v.family = family)
      (hne : ∃ v, t.contains v = true) : FamilyOutcome shader cs m family .maximal (.ok t)
  | noneMaximal (h : ∀ v, ¬ (m.contains v = true ∧ v.family = family)) :
      FamilyOutcome shader cs m family .maximal (.error (.noSupportedVersion shader family))
  | skipped : FamilyOutcome shader cs m family .skip (.ok .empty)

/-- What comes of a request: an error of the desktop family, else one of the embedded family, else
the versions of both. -/
inductive Outcome (shader : String) (cs : List Construct) (m : VersionSet) (request : Request) :
    Except Error VersionSet → Prop
  | full {e : Error}
      (h : FamilyOutcome shader cs m .full (request.full.map fun s => ⟨s, 0⟩) (.error e)) :
      Outcome shader cs m request (.error e)
  | embedded {f : VersionSet} {e : Error}
      (hfull : FamilyOutcome shader cs m .full (request.full.map fun s => ⟨s, 0⟩) (.ok f))
      (h : FamilyOutcome shader cs m .embedded (request.embedded.map fun s => ⟨0, s⟩)
        (.error e)) :
      Outcome shader cs m request (.error e)
  | both {f e : VersionSet}
      (hfull : FamilyOutcome shader cs m .full (request.full.map fun s => ⟨s, 0⟩) (.ok f))
      (hembedded : FamilyOutcome shader cs m .embedded (request.embedded.map fun s => ⟨0, s⟩)
        (.ok e)) :
      Outcome shader cs m request (.ok (f.union e))

variable {shader : String} {cs : List Construct} {m : VersionSet} {family : Family}

section Rejection

variable {v : Version} {c : Construct}

theorem find?_eq_some_iff :
    cs.find? (fun c => !c.versions.contains v) = some c ↔ FirstToReject cs v c := by
  rw [List.find?_eq_some_iff_append, FirstToReject]
  simp only [Bool.not_eq_true', Bool.not_not]
  constructor
  · rintro ⟨hc, pre, post, hcs, hpre⟩
    exact ⟨pre, post, hcs, hpre, hc⟩
  · rintro ⟨pre, post, hcs, hpre, hc⟩
    exact ⟨hc, pre, post, hcs, hpre⟩

theorem FirstToReject.unique {c' : Construct} (h : FirstToReject cs v c)
    (h' : FirstToReject cs v c') : c = c' :=
  Option.some.inj ((find?_eq_some_iff.mpr h).symm.trans (find?_eq_some_iff.mpr h'))

theorem FirstToReject.not_supported (h : FirstToReject cs v c) :
    (supported cs).contains v = false := by
  obtain ⟨pre, post, rfl, -, hc⟩ := h
  rw [Bool.eq_false_iff, ne_eq, contains_supported]
  intro hall
  rw [hall c (by simp)] at hc
  cases hc

theorem supported_of_find?_eq_none (h : cs.find? (fun c => !c.versions.contains v) = none) :
    (supported cs).contains v = true := by
  rw [contains_supported]
  exact fun c hc => by simpa using List.find?_eq_none.mp h c hc

end Rejection

theorem named_supported (cs : List Construct) : (supported cs).Named := by
  suffices h : ∀ vs : VersionSet, vs.Named → (cs.foldl (fun s c => s.inter c.versions) vs).Named from
    h .universal (by decide)
  induction cs with
  | nil => exact fun vs h => h
  | cons c cs ih => exact fun vs h => ih _ (h.inter_left c.versions)

/-- The list of a set is searched from its least version, so what is found is the least. -/
theorem exactly_outcome {s : VersionSet} (hs : ∀ v, s.contains v = true → v.family = family) :
    FamilyOutcome shader cs (supported cs) family (.exactly s)
      (resolveFamily shader cs family (.exactly s)) := by
  rw [resolveFamily]
  cases hfirst : firstRejected? cs s.toList with
  | none =>
      refine .granted fun v hv => ?_
      have hnone := List.findSome?_eq_none_iff.mp hfirst v ((s.mem_toList v).mpr hv)
      exact supported_of_find?_eq_none (Option.map_eq_none_iff.mp hnone)
  | some found =>
      obtain ⟨pre, v, post, hlist, hv, hpre⟩ := List.findSome?_eq_some_iff.mp hfirst
      obtain ⟨c, hc, rfl⟩ := Option.map_eq_some_iff.mp hv
      rw [find?_eq_some_iff] at hc
      have hmem : s.contains v = true := (s.mem_toList v).mp (by simp [hlist])
      refine .refused hmem hc.not_supported (fun w hw hm => ?_) hc
      have hsorted := s.pairwise_toList
      have hlist' := (s.mem_toList w).mpr hw
      rw [hlist] at hsorted hlist'
      rcases List.mem_append.mp hlist' with hbefore | hafter
      · -- every construct supports what is before `v`
        rw [supported_of_find?_eq_none (Option.map_eq_none_iff.mp (hpre w hbefore))] at hm
        cases hm
      · rcases List.mem_cons.mp hafter with rfl | hafter
        · exact .inl rfl
        · have hfamily : v.family = w.family := (hs v hmem).trans (hs w hw).symm
          have hlt := (List.pairwise_cons.mp (List.pairwise_append.mp hsorted).2.1).1 w hafter
          exact .inr (Version.compare?_of_lt hfamily (hlt hfamily))

theorem resolveFamily_outcome {request : FamilyRequest VersionSet}
    (hs : ∀ s, request = .exactly s → ∀ v, s.contains v = true → v.family = family) :
    FamilyOutcome shader cs (supported cs) family request
      (resolveFamily shader cs family request) := by
  cases request with
  | exactly s => exact exactly_outcome (hs s rfl)
  | anyOf s =>
      have hnamed : (s.inter (supported cs)).Named := (named_supported cs).inter_right s
      have hmem (v : Version) : (s.inter (supported cs)).contains v = true ↔
          s.contains v = true ∧ (supported cs).contains v = true := by
        rw [VersionSet.contains_inter, Bool.and_eq_true]
      rw [resolveFamily, nonempty]
      split
      next hempty => exact .noneChosen fun v => (hmem v).not.mp (hnamed.isEmpty_eq_true.mp hempty v)
      next hne => exact .chosen hnamed hmem (hnamed.isEmpty_eq_false.mp (Bool.eq_false_iff.mpr hne))
  | maximal =>
      have hnamed : ((supported cs).inter (.ofFamily family)).Named :=
        (named_supported cs).inter_left _
      have hmem (v : Version) : ((supported cs).inter (.ofFamily family)).contains v = true ↔
          (supported cs).contains v = true ∧ v.family = family := by
        rw [VersionSet.contains_inter, Bool.and_eq_true, VersionSet.contains_ofFamily]
      rw [resolveFamily, nonempty]
      split
      next hempty =>
        exact .noneMaximal fun v => (hmem v).not.mp (hnamed.isEmpty_eq_true.mp hempty v)
      next hne => exact .maximal hnamed hmem (hnamed.isEmpty_eq_false.mp (Bool.eq_false_iff.mpr hne))
  | skip => exact .skipped

theorem FamilyOutcome.unique {request : FamilyRequest VersionSet} {r r' : Except Error VersionSet}
    (h : FamilyOutcome shader cs m family request r)
    (h' : FamilyOutcome shader cs m family request r') : r = r' := by
  cases h with
  | granted h =>
      cases h' with
      | granted h' => rfl
      | refused hv hm _ _ =>
          rw [h _ hv] at hm
          cases hm
  | refused hv hm least hc =>
      cases h' with
      | granted h' =>
          rw [h' _ hv] at hm
          cases hm
      | refused hv' hm' least' hc' =>
          rcases least _ hv' hm' with rfl | hlt
          · rw [hc.unique hc']
          · rcases least' _ hv hm with rfl | hgt
            · rw [hc.unique hc']
            · have hlt := Version.lt_of_compare? hlt
              have hgt := Version.lt_of_compare? hgt
              omega
  | chosen named h hne =>
      cases h' with
      | chosen named' h' _ => rw [named.eq_of_contains_iff named' h h']
      | noneChosen h' =>
          obtain ⟨v, hv⟩ := hne
          exact absurd ((h v).mp hv) (h' v)
  | noneChosen h =>
      cases h' with
      | chosen _ h' hne =>
          obtain ⟨v, hv⟩ := hne
          exact absurd ((h' v).mp hv) (h v)
      | noneChosen h' => rfl
  | maximal named h hne =>
      cases h' with
      | maximal named' h' _ => rw [named.eq_of_contains_iff named' h h']
      | noneMaximal h' =>
          obtain ⟨v, hv⟩ := hne
          exact absurd ((h v).mp hv) (h' v)
  | noneMaximal h =>
      cases h' with
      | maximal _ h' hne =>
          obtain ⟨v, hv⟩ := hne
          exact absurd ((h' v).mp hv) (h v)
      | noneMaximal h' => rfl
  | skipped =>
      cases h' with
      | skipped => rfl

theorem resolve_outcome (request : Request) :
    Outcome shader cs (supported cs) request (resolve shader cs request) := by
  have hfull : FamilyOutcome shader cs (supported cs) .full (request.full.map fun s => ⟨s, 0⟩)
      (resolveFamily shader cs .full (request.full.map fun s => ⟨s, 0⟩)) := by
    apply resolveFamily_outcome
    intro s hs v hv
    cases hr : request.full <;> rw [hr] at hs <;> cases hs
    exact VersionSet.family_of_contains_full hv
  have hembedded : FamilyOutcome shader cs (supported cs) .embedded
      (request.embedded.map fun s => ⟨0, s⟩)
      (resolveFamily shader cs .embedded (request.embedded.map fun s => ⟨0, s⟩)) := by
    apply resolveFamily_outcome
    intro s hs v hv
    cases hr : request.embedded <;> rw [hr] at hs <;> cases hs
    exact VersionSet.family_of_contains_embedded hv
  rw [resolve]
  cases hf : resolveFamily shader cs .full (request.full.map fun s => ⟨s, 0⟩) with
  | error e => exact .full (hf ▸ hfull)
  | ok f =>
      cases he : resolveFamily shader cs .embedded (request.embedded.map fun s => ⟨0, s⟩) with
      | error e => exact .embedded (hf ▸ hfull) (he ▸ hembedded)
      | ok e => exact .both (hf ▸ hfull) (he ▸ hembedded)

def FamilyRequest.Named : FamilyRequest VersionSet → Prop
  | .exactly s => s.Named
  | _ => True

instance (r : FamilyRequest VersionSet) : Decidable r.Named :=
  match r with
  | .exactly s => inferInstanceAs (Decidable s.Named)
  | .anyOf _ | .maximal | .skip => inferInstanceAs (Decidable True)

def Request.Named (r : Request) : Prop :=
  (r.full.map fun s => ⟨s, 0⟩).Named ∧ (r.embedded.map fun s => ⟨0, s⟩).Named

instance (r : Request) : Decidable r.Named := inferInstanceAs (Decidable (_ ∧ _))

theorem named_of_nonempty {s t : VersionSet} (hs : s.Named)
    (h : nonempty shader family s = .ok t) : t.Named := by
  rw [nonempty] at h
  split at h
  next => cases h
  next =>
    cases h
    exact hs

theorem resolveFamily_exactly {s t : VersionSet}
    (h : resolveFamily shader cs family (.exactly s) = .ok t) : t = s := by
  rw [resolveFamily] at h
  split at h
  next => cases h
  next =>
    cases h
    rfl

theorem FamilyRequest.Named.resolve {r : FamilyRequest VersionSet} {t : VersionSet} (hr : r.Named)
    (h : resolveFamily shader cs family r = .ok t) : t.Named := by
  cases r with
  | exactly s =>
      rw [resolveFamily_exactly h]
      exact hr
  | anyOf s => exact named_of_nonempty ((named_supported cs).inter_right s) h
  | maximal => exact named_of_nonempty ((named_supported cs).inter_left _) h
  | skip =>
      cases h
      decide

theorem FamilyRequest.named_of_resolve {shader' : String} {cs' : List Construct}
    {r : FamilyRequest VersionSet} {t t' : VersionSet}
    (h : resolveFamily shader cs family r = .ok t)
    (h' : resolveFamily shader' cs' family r = .ok t') (hnamed : (t.inter t').Named) : r.Named := by
  cases r with
  | exactly s =>
      rw [resolveFamily_exactly h, resolveFamily_exactly h'] at hnamed
      rw [VersionSet.named_iff] at hnamed
      exact VersionSet.named_iff.mpr fun f i hi => hnamed f i (by simp [hi])
  | anyOf s | maximal | skip => trivial

theorem resolve_eq_ok {request : Request} {t : VersionSet} :
    Legality.resolve shader cs request = .ok t ↔ ∃ f e,
      resolveFamily shader cs .full (request.full.map fun s => ⟨s, 0⟩) = .ok f ∧
      resolveFamily shader cs .embedded (request.embedded.map fun s => ⟨0, s⟩) = .ok e ∧
      f.union e = t := by
  simp only [resolve, Except.bind_eq_ok, Except.pure_eq_ok]
  exact ⟨fun ⟨f, hf, e, he, ht⟩ => ⟨f, e, hf, he, ht⟩, fun ⟨f, e, hf, he, ht⟩ => ⟨f, hf, e, he, ht⟩⟩

/-- Two shaders have a bit in common that stands for no version exactly if it was asked for. -/
theorem named_inter_iff_of_resolve {shader' : String} {cs' : List Construct} {request : Request}
    {vs fs : VersionSet} (h : resolve shader cs request = .ok vs)
    (h' : resolve shader' cs' request = .ok fs) : (vs.inter fs).Named ↔ request.Named := by
  obtain ⟨f, e, hf, he, rfl⟩ := resolve_eq_ok.mp h
  obtain ⟨f', e', hf', he', rfl⟩ := resolve_eq_ok.mp h'
  constructor
  · intro hnamed
    rw [VersionSet.named_iff] at hnamed
    constructor
    · refine FamilyRequest.named_of_resolve hf hf' (VersionSet.named_iff.mpr fun g i hi => ?_)
      rw [VersionSet.bit_inter, Bool.and_eq_true] at hi
      exact hnamed g i (by simp [hi])
    · refine FamilyRequest.named_of_resolve he he' (VersionSet.named_iff.mpr fun g i hi => ?_)
      rw [VersionSet.bit_inter, Bool.and_eq_true] at hi
      exact hnamed g i (by simp [hi])
  · rintro ⟨hfull, hembedded⟩
    exact ((hfull.resolve hf).union (hembedded.resolve he)).inter_left _

theorem Outcome.unique {request : Request} {r r' : Except Error VersionSet}
    (h : Outcome shader cs m request r) (h' : Outcome shader cs m request r') : r = r' := by
  cases h with
  | full h =>
      cases h' with
      | full h' => cases h.unique h'; rfl
      | embedded hfull' _ => cases h.unique hfull'
      | both hfull' _ => cases h.unique hfull'
  | embedded hfull h =>
      cases h' with
      | full h' => cases hfull.unique h'
      | embedded _ h' => cases h.unique h'; rfl
      | both _ hembedded' => cases h.unique hembedded'
  | both hfull hembedded =>
      cases h' with
      | full h' => cases hfull.unique h'
      | embedded _ h' => cases hembedded.unique h'
      | both hfull' hembedded' =>
          cases hfull.unique hfull'
          cases hembedded.unique hembedded'
          rfl

end Legality

namespace Package

open Legality (Construct Outcome Request)

/-- The check of a request gives its one outcome, where the versions that a shader can be generated
for are those in the set of each of its constructs. -/
theorem supportedVersions_exact {options : Options} {p : Program} {s : Shader} {closure : Closure}
    {cs : List Construct} (hc : Legality.constructs p options.table s closure = .ok cs) :
    ∃ m, Legality.maximal p options.table s closure = .ok m ∧
      (∀ v, m.contains v = true ↔ ∀ c ∈ cs, c.versions.contains v = true) ∧
      ∀ request, (∃ r, Outcome s.name cs m request r) ∧
        ∀ r, Outcome s.name cs m request r ↔
          supportedVersions options p s closure request = r.mapError .legality := by
  refine ⟨Legality.supported cs, ?_, fun v => Legality.contains_supported, fun request => ?_⟩
  · rw [Legality.maximal, hc]
    rfl
  · have houtcome : Outcome s.name cs (Legality.supported cs) request
        (Legality.resolve s.name cs request) := Legality.resolve_outcome request
    have hcheck : supportedVersions options p s closure request =
        (Legality.resolve s.name cs request).mapError .legality := by
      rw [supportedVersions, hc]
      rfl
    refine ⟨⟨_, houtcome⟩, fun r => ⟨fun h => by rw [hcheck, h.unique houtcome], fun h => ?_⟩⟩
    rw [hcheck] at h
    rwa [← Except.mapError_injective (fun _ _ => Error.legality.inj) h]

/-! A shader with an external that the versions between GLSL 1.20 and 3.30 lack, as all embedded
ones do. -/
namespace Holed

def float : Ty := .leaf .float

def feature : Term := ⟨"feature", .external "legacy_feature" (.value .float), {}⟩

def holed : VersionSet := .ofPredicate fun v => v.family = .full ∧ (v.number ≤ 120 ∨ 330 ≤ v.number)

def options : Options where
  table := TableBuilder.build
    ⟨[⟨.value, "legacy_feature", [⟨holed, .both, .native (.var "gl_Legacy")⟩]⟩]⟩

def program : Program where
  terms := [feature]

def depth : Output := ⟨⟨"depth", float, {}⟩, .depth⟩

def shader : Shader where
  name := "holed"
  stage := .fragment
  outputs := [depth]
  assignments := [⟨0, .term ⟨float, {}⟩ 0⟩]

def constructs : List Construct :=
  [.ofOutput .fragment depth, .ofExternal feature "legacy_feature" holed, .ofLeaf (.float, {})]

end Holed

open Holed in
theorem supportedVersions_exact_holed :
    Legality.constructs program options.table shader (.placed [.term 0]) = .ok constructs ∧
    ∃ m, (∀ v, m.contains v = true ↔ ∀ c ∈ constructs, c.versions.contains v = true) ∧
      Outcome "holed" constructs m
        ⟨.exactly (VersionSet.ofList [.full .v120, .full .v130, .full .v150]).full, .skip⟩
        (.error (.unsupported "holed" (.full .v130) (.external "legacy_feature")
          (some .externalUnavailable))) ∧
      Outcome "holed" constructs m
        ⟨.anyOf (VersionSet.ofList [.full .v120, .full .v130, .full .v150]).full, .skip⟩
        (.ok (.ofList [.full .v120])) ∧
      Outcome "holed" constructs m ⟨.maximal, .maximal⟩
        (.error (.noSupportedVersion "holed" .embedded)) := by
  have hc : Legality.constructs program options.table shader (.placed [.term 0]) =
      .ok constructs := rfl
  obtain ⟨m, -, hm, h⟩ := supportedVersions_exact hc
  exact ⟨hc, m, hm, ((h _).2 _).mpr rfl, ((h _).2 _).mpr rfl, ((h _).2 _).mpr rfl⟩

end Package

end ShaderDialects
