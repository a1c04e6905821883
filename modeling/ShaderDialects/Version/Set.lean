import ShaderDialects.Version.Basic

namespace ShaderDialects

/-- A set of desktop versions, in which bit `i` stands for the `i`-th version. The highest three bits
stand for none, but nothing keeps them from being set. -/
abbrev FullSet := BitVec 16

abbrev EmbeddedSet := BitVec 8

structure VersionSet where
  full : FullSet
  embedded : EmbeddedSet
  deriving DecidableEq

namespace VersionSet

def empty : VersionSet := ⟨0, 0⟩

def universal : VersionSet := ⟨0x1fff, 0xf⟩

def contains (s : VersionSet) : Version → Bool
  | .full v => s.full.getLsbD v.index
  | .embedded v => s.embedded.getLsbD v.index

def singleton : Version → VersionSet
  | .full v => ⟨1 <<< v.index, 0⟩
  | .embedded v => ⟨0, 1 <<< v.index⟩

def union (s t : VersionSet) : VersionSet := ⟨s.full ||| t.full, s.embedded ||| t.embedded⟩

def inter (s t : VersionSet) : VersionSet := ⟨s.full &&& t.full, s.embedded &&& t.embedded⟩

def insert (s : VersionSet) (v : Version) : VersionSet := s.union (singleton v)

def ofList (vs : List Version) : VersionSet := vs.foldl insert empty

/-- The versions that satisfy `q`, each asked on its own: support need not grow with the version
number. -/
def ofPredicate (q : Version → Bool) : VersionSet := ofList (Version.all.filter q)

/-- The versions in the set: desktop ascending, then embedded ascending. -/
def toList (s : VersionSet) : List Version := Version.all.filter s.contains

def size (s : VersionSet) : Nat :=
  (List.range 16).countP s.full.getLsbD + (List.range 8).countP s.embedded.getLsbD

def isEmpty (s : VersionSet) : Bool := s = empty

def ofFamily : Family → VersionSet
  | .full => ⟨universal.full, 0⟩
  | .embedded => ⟨0, universal.embedded⟩

def since (e : EmbeddedVersion) (f : FullVersion) : VersionSet := ofPredicate (Version.isSince e f)

def before (e : EmbeddedVersion) (f : FullVersion) : VersionSet :=
  ofPredicate fun v => !v.isSince e f

def ofRange (r : Ordering → Bool) (v : Version) : VersionSet :=
  ofPredicate fun w => (w.compare? v).any r

def atLeast (v : Version) : VersionSet := ofRange Ordering.isGE v

def atMost (v : Version) : VersionSet := ofRange Ordering.isLE v

def replaceFamily (s : VersionSet) (f : Family) (t : VersionSet) : VersionSet :=
  match f with
  | .full => ⟨t.full, s.embedded⟩
  | .embedded => ⟨s.full, t.embedded⟩

def text (s : VersionSet) : String :=
  if s.isEmpty then "no versions" else String.intercalate ", " (s.toList.map Version.name)

@[simp]
theorem contains_empty (v : Version) : empty.contains v = false := by
  cases v <;> simp [empty, contains]

@[simp]
theorem contains_universal (v : Version) : universal.contains v = true := by
  rcases v with v | v <;> cases v <;> decide

@[simp]
theorem contains_union (s t : VersionSet) (v : Version) :
    (s.union t).contains v = (s.contains v || t.contains v) := by
  cases v <;> simp [union, contains]

@[simp]
theorem contains_inter (s t : VersionSet) (v : Version) :
    (s.inter t).contains v = (s.contains v && t.contains v) := by
  cases v <;> simp [inter, contains]

@[simp]
theorem contains_singleton (v w : Version) : (singleton v).contains w = decide (v = w) := by
  rcases v with v | v <;> rcases w with w | w <;> cases v <;> cases w <;> decide

theorem contains_ofList (vs : List Version) (v : Version) :
    (ofList vs).contains v = vs.contains v := by
  suffices h : ∀ (vs : List Version) (s : VersionSet),
      (vs.foldl insert s).contains v = (s.contains v || vs.contains v) by
    simpa [ofList] using h vs empty
  intro vs
  induction vs with
  | nil => simp
  | cons w vs ih =>
      intro s
      have hv : (v == w) = decide (w = v) := by
        rw [Bool.eq_iff_iff]
        simpa using eq_comm
      simp only [List.foldl_cons, ih, insert, contains_union, contains_singleton,
        List.contains_cons, Bool.or_assoc, hv]

@[simp]
theorem contains_ofPredicate (q : Version → Bool) (v : Version) :
    (ofPredicate q).contains v = q v := by
  rw [ofPredicate, contains_ofList, Bool.eq_iff_iff, List.contains_iff_mem, List.mem_filter]
  exact and_iff_right v.mem_all

def bit (s : VersionSet) : Family → Nat → Bool
  | .full, i => s.full.getLsbD i
  | .embedded, i => s.embedded.getLsbD i

@[simp]
theorem bit_empty (f : Family) (i : Nat) : empty.bit f i = false := by
  cases f <;> simp [empty, bit]

@[simp]
theorem bit_union (s t : VersionSet) (f : Family) (i : Nat) :
    (s.union t).bit f i = (s.bit f i || t.bit f i) := by
  cases f <;> simp [union, bit]

@[simp]
theorem bit_inter (s t : VersionSet) (f : Family) (i : Nat) :
    (s.inter t).bit f i = (s.bit f i && t.bit f i) := by
  cases f <;> simp [inter, bit]

theorem ext_bit {s t : VersionSet} (h : ∀ f i, s.bit f i = t.bit f i) : s = t := by
  obtain ⟨f, e⟩ := s
  obtain ⟨f', e'⟩ := t
  congr 1
  · exact BitVec.eq_of_getLsbD_eq fun i _ => h .full i
  · exact BitVec.eq_of_getLsbD_eq fun i _ => h .embedded i

theorem exists_contains_eq_bit {f : Family} {i : Nat} (h : universal.bit f i = true) :
    ∃ v, ∀ s : VersionSet, s.contains v = s.bit f i := by
  cases f with
  | full =>
      have hall : ∀ i < 16, universal.full.getLsbD i = true → ∃ v ∈ FullVersion.all, v.index = i := by
        decide
      obtain ⟨v, -, rfl⟩ := hall i (BitVec.lt_of_getLsbD h) h
      exact ⟨.full v, fun s => rfl⟩
  | embedded =>
      have hall : ∀ i < 8, universal.embedded.getLsbD i = true →
          ∃ v ∈ EmbeddedVersion.all, v.index = i := by decide
      obtain ⟨v, -, rfl⟩ := hall i (BitVec.lt_of_getLsbD h) h
      exact ⟨.embedded v, fun s => rfl⟩

theorem exists_bit_eq_contains (v : Version) : ∃ f i, ∀ s : VersionSet, s.contains v = s.bit f i := by
  cases v with
  | full v => exact ⟨.full, v.index, fun _ => rfl⟩
  | embedded v => exact ⟨.embedded, v.index, fun _ => rfl⟩

/-- Every bit that is set stands for a version. -/
def Named (s : VersionSet) : Prop := s.inter universal = s

instance (s : VersionSet) : Decidable s.Named := inferInstanceAs (Decidable (_ = _))

theorem named_iff {s : VersionSet} :
    s.Named ↔ ∀ f i, s.bit f i = true → universal.bit f i = true := by
  constructor
  · intro h f i hi
    rw [← h, bit_inter, Bool.and_eq_true] at hi
    exact hi.2
  · intro h
    refine ext_bit fun f i => ?_
    rw [bit_inter, Bool.eq_iff_iff, Bool.and_eq_true]
    exact and_iff_left_of_imp (h f i)

theorem Named.union {s t : VersionSet} (hs : s.Named) (ht : t.Named) : (s.union t).Named := by
  rw [named_iff] at hs ht ⊢
  intro f i h
  rw [bit_union, Bool.or_eq_true] at h
  exact h.elim (hs f i) (ht f i)

theorem Named.inter_left {s : VersionSet} (hs : s.Named) (t : VersionSet) : (s.inter t).Named := by
  rw [named_iff] at hs ⊢
  intro f i h
  rw [bit_inter, Bool.and_eq_true] at h
  exact hs f i h.1

theorem Named.inter_right {t : VersionSet} (ht : t.Named) (s : VersionSet) : (s.inter t).Named := by
  rw [named_iff] at ht ⊢
  intro f i h
  rw [bit_inter, Bool.and_eq_true] at h
  exact ht f i h.2

theorem Named.ext {s t : VersionSet} (hs : s.Named) (ht : t.Named)
    (h : ∀ v, s.contains v = t.contains v) : s = t := by
  refine ext_bit fun f i => ?_
  cases hu : universal.bit f i with
  | true =>
      obtain ⟨v, hv⟩ := exists_contains_eq_bit hu
      rw [← hv s, ← hv t, h]
  | false =>
      have hunset {r : VersionSet} (hr : r.Named) : r.bit f i = false :=
        Bool.eq_false_iff.mpr fun hi => by simp [named_iff.mp hr f i hi] at hu
      rw [hunset hs, hunset ht]

theorem Named.isEmpty_iff {s : VersionSet} (hs : s.Named) : s.isEmpty = true ↔ s.toList = [] := by
  rw [isEmpty, decide_eq_true_iff, toList, List.filter_eq_nil_iff]
  constructor
  · rintro rfl v _
    simp
  · intro h
    refine hs.ext (by decide) fun v => ?_
    rw [contains_empty]
    exact Bool.eq_false_iff.mpr (h v v.mem_all)

theorem nodup_toList (s : VersionSet) : s.toList.Nodup := by
  have hall : Version.all.Nodup := by decide
  exact hall.filter _

theorem size_eq (s : VersionSet) :
    s.size = s.toList.length +
      ([13, 14, 15].countP s.full.getLsbD + [4, 5, 6, 7].countP s.embedded.getLsbD) := by
  have hf : List.range 16 = FullVersion.all.map FullVersion.index ++ [13, 14, 15] := by decide
  have he : List.range 8 = EmbeddedVersion.all.map EmbeddedVersion.index ++ [4, 5, 6, 7] := by decide
  have hlist : s.toList.length = (FullVersion.all.map FullVersion.index).countP s.full.getLsbD +
      (EmbeddedVersion.all.map EmbeddedVersion.index).countP s.embedded.getLsbD := by
    rw [toList, Version.all, List.filter_append, List.length_append, List.filter_map,
      List.filter_map, List.length_map, List.length_map, List.countP_map, List.countP_map,
      List.countP_eq_length_filter, List.countP_eq_length_filter]
    rfl
  rw [size, hf, he, List.countP_append, List.countP_append, hlist]
  omega

theorem size_eq_length_toList_iff {s : VersionSet} : s.size = s.toList.length ↔ s.Named := by
  rw [size_eq, Nat.add_eq_left, Nat.add_eq_zero_iff, List.countP_eq_zero, List.countP_eq_zero,
    named_iff]
  constructor
  · rintro ⟨hfull, hembedded⟩ f i hi
    cases f with
    | full =>
        have hall : ∀ i < 16, i ∉ [13, 14, 15] → universal.full.getLsbD i = true := by decide
        exact hall i (BitVec.lt_of_getLsbD hi) fun hmem => hfull i hmem hi
    | embedded =>
        have hall : ∀ i < 8, i ∉ [4, 5, 6, 7] → universal.embedded.getLsbD i = true := by decide
        exact hall i (BitVec.lt_of_getLsbD hi) fun hmem => hembedded i hmem hi
  · intro h
    have hfull : ∀ i ∈ [13, 14, 15], universal.bit .full i = false := by decide
    have hembedded : ∀ i ∈ [4, 5, 6, 7], universal.bit .embedded i = false := by decide
    constructor
    · intro i hmem hi
      exact Bool.false_ne_true ((hfull i hmem).symm.trans (h .full i hi))
    · intro i hmem hi
      exact Bool.false_ne_true ((hembedded i hmem).symm.trans (h .embedded i hi))

theorem length_toList_le_size (s : VersionSet) : s.toList.length ≤ s.size := by
  rw [size_eq]
  exact Nat.le_add_right _ _

theorem mem_toList (s : VersionSet) (v : Version) : v ∈ s.toList ↔ s.contains v = true := by
  simp [toList, v.mem_all]

end VersionSet

end ShaderDialects
