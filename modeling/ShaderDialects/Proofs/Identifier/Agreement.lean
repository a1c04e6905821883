import ShaderDialects.Proofs.Except
import ShaderDialects.Proofs.Identifier.Legal

namespace ShaderDialects.Identifier

/-- What is tried for a base: itself, then with the suffixes one, two, and so on. -/
def candidate (base : String) : Nat → String
  | 0 => base
  | k + 1 => numbered base (k + 1)

theorem firstFree_least (used : List String) (base : String) (tries k : Nat) :
    ∃ j, firstFree used base tries k = numbered base (k + j) ∧
      ∀ i < j, numbered base (k + i) ∈ used := by
  induction tries generalizing k with
  | zero => exact ⟨0, rfl, by omega⟩
  | succ tries ih =>
      rw [firstFree]
      by_cases hk : numbered base k ∈ used
      · obtain ⟨j, hj, hleast⟩ := ih (k + 1)
        refine ⟨j + 1, ?_, fun i hi => ?_⟩
        · rw [if_pos hk, hj]
          congr 1
          omega
        · cases i with
          | zero => exact hk
          | succ i =>
              have hmem := hleast i (by omega)
              rwa [Nat.add_right_comm, Nat.add_assoc] at hmem
      · exact ⟨0, if_neg hk, by omega⟩

theorem unused_least (used : List String) (base : String) :
    ∃ k, unused used base = candidate base k ∧ candidate base k ∉ used ∧
      ∀ j < k, candidate base j ∈ used := by
  have hfree := unused_not_mem used base
  by_cases hb : base ∈ used
  · obtain ⟨j, hj, hleast⟩ := firstFree_least used base used.length 1
    have hname : unused used base = candidate base (j + 1) := by
      rw [unused, if_pos hb, hj, candidate, Nat.add_comm]
    refine ⟨j + 1, hname, hname ▸ hfree, fun i hi => ?_⟩
    cases i with
    | zero => exact hb
    | succ i =>
        have hmem := hleast i (by omega)
        rwa [Nat.add_comm] at hmem
  · exact ⟨0, if_neg hb, hb, by omega⟩

theorem unused_eq_iff (used used' : List String) (base : String) :
    unused used base = unused used' base ↔
      unused used base ∉ used' ∧ unused used' base ∉ used := by
  constructor
  · intro h
    exact ⟨h ▸ unused_not_mem used' base, h ▸ unused_not_mem used base⟩
  · rintro ⟨hfree, hfree'⟩
    obtain ⟨k, hk, -, hleast⟩ := unused_least used base
    obtain ⟨k', hk', -, hleast'⟩ := unused_least used' base
    rw [hk] at hfree
    rw [hk'] at hfree'
    -- the smaller of two different places would be taken on the other side
    rcases Nat.lt_trichotomy k k' with hlt | rfl | hlt
    · exact absurd (hleast' k hlt) hfree
    · rw [hk, hk']
    · exact absurd (hleast k' hlt) hfree'

theorem unused_congr {used used' : List String} {base : String}
    (h : ∀ k, candidate base k ∈ used ↔ candidate base k ∈ used') :
    unused used base = unused used' base := by
  rw [unused_eq_iff]
  obtain ⟨k, hk, hfree, -⟩ := unused_least used base
  obtain ⟨k', hk', hfree', -⟩ := unused_least used' base
  rw [hk, hk', ← h, h k']
  exact ⟨hfree, hfree'⟩

theorem base_eq_of_numbered_eq {b c : String} {j k : Nat} (h : numbered b j = numbered c k) :
    b = c := by
  have hdigits (n : Nat) : '_' ∉ (toString n).toList.reverse := by simp
  rw [← String.toList_inj, toList_numbered, toList_numbered] at h
  have hrev := congrArg List.reverse h
  simp only [List.reverse_append, List.reverse_cons, List.append_assoc,
    List.singleton_append] at hrev
  obtain ⟨-, hb⟩ := List.append_sep_inj (hdigits j) (hdigits k) hrev
  exact String.toList_inj.mp (List.reverse_inj.mp hb)

/-- The bases do not stand in each other's way: neither is a candidate of the other. -/
def Apart (b c : String) : Prop := ∀ k, candidate b k ≠ c ∧ candidate c k ≠ b

theorem Apart.candidate_ne {b c : String} (h : Apart b c) (j k : Nat) :
    candidate b j ≠ candidate c k := by
  intro heq
  cases k with
  | zero => exact (h j).1 heq
  | succ k =>
      cases j with
      | zero => exact (h (k + 1)).2 heq.symm
      | succ j => exact (h 0).1 (base_eq_of_numbered_eq heq)

namespace Supply

variable {s : Supply}

theorem names_take (labels : List String) (k : Nat) :
    (s.names id labels).take k = s.names id (labels.take k) := by
  induction labels generalizing s k with
  | nil => simp
  | cons label labels ih =>
      cases k with
      | zero => rfl
      | succ k => exact congrArg _ (ih k)

theorem mem_used_freshAll {labels : List String} {name : String} :
    name ∈ (s.freshAll id labels).2.used ↔ name ∈ s.names id labels ∨ name ∈ s.used := by
  induction labels generalizing s with
  | nil => simp [freshAll]
  | cons label labels ih =>
      have hused : (s.fresh label).2.used = (s.fresh label).1 :: s.used := rfl
      have hstep := @ih (s.fresh label).2
      rw [hused, List.mem_cons] at hstep
      rw [names_cons, List.mem_cons, freshAll]
      refine hstep.trans ?_
      rw [id]
      tauto

theorem fresh_freshAll_of_apart {labels : List String} {label : String}
    (h : ∀ earlier ∈ labels, Apart (sanitize label) (sanitize earlier)) :
    ((s.freshAll id labels).2.fresh label).1 = (s.fresh label).1 := by
  refine unused_congr fun k => ?_
  rw [mem_used_freshAll, or_iff_right]
  intro hmem
  obtain ⟨i, hi⟩ := List.mem_iff_getElem?.mp hmem
  rw [names_getElem?] at hi
  obtain ⟨earlier, hearlier, hname⟩ := Option.map_eq_some_iff.mp hi
  obtain ⟨j, hj, -⟩ := unused_least (s.freshAll id (labels.take i)).2.used (sanitize earlier)
  have hne := (h earlier (List.mem_of_getElem? hearlier)).candidate_ne k j
  exact hne (hname.symm.trans hj)

/-- Two supplies that start alike give a label the same name exactly if neither name was given to
an earlier label on the other side. -/
theorem fresh_eq_iff {labels labels' : List String} {label : String} :
    ((s.freshAll id labels).2.fresh label).1 = ((s.freshAll id labels').2.fresh label).1 ↔
      ((s.freshAll id labels).2.fresh label).1 ∉ s.names id labels' ∧
      ((s.freshAll id labels').2.fresh label).1 ∉ s.names id labels := by
  have hstart {ls : List String} : ((s.freshAll id ls).2.fresh label).1 ∉ s.used := by
    intro hmem
    exact (s.freshAll id ls).2.fresh_not_mem label (mem_used_freshAll.mpr (.inr hmem))
  refine (unused_eq_iff _ _ _).trans ?_
  rw [mem_used_freshAll, mem_used_freshAll]
  exact and_congr (not_congr (or_iff_left hstart)) (not_congr (or_iff_left hstart))

end Supply

end ShaderDialects.Identifier
