import Mathlib.Algebra.Group.Nat.Defs
import Mathlib.Data.Finset.Card
import Mathlib.Logic.Function.Iterate
import Mathlib.Order.Bounds.Defs
import ShaderDialects.Proofs.Identifier.Agreement

namespace ShaderDialects.Identifier

/-- Where the loop stands: at a candidate, with the suffix of the next one, or at its end. -/
inductive Search where
  | trying (name : String) (suffix : UInt32)
  | found (name : String)
  | overflow

namespace Search

variable (used : List String) (base : String)

/-- One turn. A candidate that is used gives way to the next one, and the suffix is counted up. -/
def turn : Search → Search
  | trying name suffix =>
      if name ∈ used then
        if suffix.toNat + 1 < UInt32.size then trying (numbered base suffix.toNat) (suffix + 1)
        else overflow
      else found name
  | found name => found name
  | overflow => overflow

def start : Search := trying base 1

variable {used base}

theorem turn_of_not_mem {name : String} (h : name ∉ used) (suffix : UInt32) :
    turn used base (trying name suffix) = found name := if_neg h

theorem turn_candidate {k : Nat} (hused : candidate base k ∈ used) (hk : k + 2 < UInt32.size) :
    turn used base (trying (candidate base k) (.ofNat (k + 1))) =
      trying (candidate base (k + 1)) (.ofNat (k + 2)) := by
  have hsuffix : (UInt32.ofNat (k + 1)).toNat = k + 1 :=
    UInt32.toNat_ofNat_of_lt' (Nat.lt_of_succ_lt hk)
  have hnext : UInt32.ofNat (k + 1) + 1 = UInt32.ofNat (k + 2) := (UInt32.ofNat_add (k + 1) 1).symm
  rw [turn, if_pos hused, hsuffix, if_pos hk, hnext, candidate]

/-- After as many turns as there are used candidates in front of it, the loop is at a candidate. -/
theorem iterate_turn {k : Nat} (hused : ∀ j < k, candidate base j ∈ used)
    (hk : k + 1 < UInt32.size) :
    (turn used base)^[k] (start base) = trying (candidate base k) (.ofNat (k + 1)) := by
  induction k with
  | zero => rfl
  | succ k ih =>
      rw [Function.iterate_succ_apply',
        ih (fun j hj => hused j (Nat.lt_succ_of_lt hj)) (Nat.lt_of_succ_lt hk),
        turn_candidate (hused k (Nat.lt_succ_self k)) hk]

end Search

theorem candidate_injective (base : String) : Function.Injective (candidate base) := by
  have hne (k : Nat) : base ≠ numbered base k := by
    intro h
    have hlen := congrArg (fun n : String => n.toList.length) h
    simp [toList_numbered] at hlen
  intro j k h
  cases j with
  | zero =>
      cases k with
      | zero => rfl
      | succ k => exact absurd h (hne (k + 1))
  | succ j =>
      cases k with
      | zero => exact absurd h.symm (hne (j + 1))
      | succ k => exact numbered_injective base h

theorem le_card_of_candidates {used : List String} {base : String} {k : Nat}
    (h : ∀ j < k, candidate base j ∈ used) : k ≤ used.toFinset.card := by
  have hsub : (Finset.range k).image (candidate base) ⊆ used.toFinset := by
    intro name hname
    obtain ⟨j, hj, rfl⟩ := Finset.mem_image.mp hname
    exact List.mem_toFinset.mpr (h j (Finset.mem_range.mp hj))
  have hcard := Finset.card_le_card hsub
  rwa [Finset.card_image_of_injective _ (candidate_injective base), Finset.card_range] at hcard

theorem isLeast_of_candidates {used : List String} {base : String} {k : Nat}
    (hfree : candidate base (k + 1) ∉ used) (hused : ∀ j < k + 1, candidate base j ∈ used) :
    IsLeast {j | 1 ≤ j ∧ numbered base j ∉ used} (k + 1) := by
  refine ⟨⟨Nat.le_add_left 1 k, hfree⟩, ?_⟩
  rintro j ⟨hj, hjfree⟩
  obtain ⟨j, rfl⟩ : ∃ i, j = i + 1 := ⟨j - 1, by omega⟩
  by_contra hlt
  exact hjfree (hused (j + 1) (Nat.lt_of_not_le hlt))

theorem foldr_push_of_spelled {cs : List Char} (h : Spelled cs) : cs.foldr push [] = cs := by
  induction cs with
  | nil => rfl
  | cons c cs ih =>
      rw [List.foldr_cons, ih h.tail]
      rcases h.chars c List.mem_cons_self with hc | rfl
      · simp [push, hc]
      · cases cs with
        | nil => exact absurd rfl (h.ends '_' rfl)
        | cons d ds =>
            have hd : d ≠ '_' := fun hd => (List.isChain_cons_cons.mp h.single).1 ⟨rfl, hd⟩
            rw [push, if_neg (by decide)]
            exact hd

theorem sanitize_of_spelled {c : Char} {cs : List Char} (h : Spelled (c :: cs)) (hc : c ≠ '_')
    (hl : needsLetter (c :: cs) = false) :
    sanitize (String.ofList (c :: cs)) = String.ofList (c :: cs) := by
  have hsqueeze : squeeze (c :: cs) = c :: cs := by
    simp [squeeze, foldr_push_of_spelled h, hc]
  rw [sanitize, String.toList_ofList, hsqueeze]
  simp [hl]

theorem sanitize_sanitize (label : String) : sanitize (sanitize label) = sanitize label := by
  have hs := Spelled.squeeze label.toList
  cases hsq : squeeze label.toList with
  | nil =>
      have hname : sanitize label = "unnamed" := by simp [sanitize, hsq]
      rw [hname]
      decide
  | cons c cs =>
      have hc := isAlphanum_head_squeeze hsq
      rw [hsq] at hs
      cases hl : needsLetter (c :: cs) with
      | true =>
          have hname : sanitize label = String.ofList ('v' :: c :: cs) := by simp [sanitize, hsq, hl]
          rw [hname]
          exact sanitize_of_spelled (hs.cons (by decide)) (by decide) rfl
      | false =>
          have hname : sanitize label = String.ofList (c :: cs) := by simp [sanitize, hsq, hl]
          rw [hname]
          exact sanitize_of_spelled hs (ne_underscore_of_isAlphanum hc) hl

namespace Supply

/-- The loop finds a fresh name after no more turns than there are used names. The name is the
sanitized label if that is not used, and otherwise has the least suffix with which it is not; it is
all that is used from then on besides what was. -/
theorem fresh_exact :
    (∀ (s : Supply) (label : String), s.used.toFinset.card < 2 ^ 32 - 1 →
      (∃ turns ≤ s.used.toFinset.card,
        (Search.turn s.used (sanitize label))^[turns + 1] (.start (sanitize label)) =
          .found (s.fresh label).1) ∧
      (sanitize label ∉ s.used → (s.fresh label).1 = sanitize label) ∧
      (sanitize label ∈ s.used →
        ∃ k, IsLeast {k | 1 ≤ k ∧ numbered (sanitize label) k ∉ s.used} k ∧
          (s.fresh label).1 = numbered (sanitize label) k) ∧
      (s.fresh label).1 ∉ s.used ∧
      (s.fresh label).2.used.toFinset = insert (s.fresh label).1 s.used.toFinset) ∧
    ∀ label, sanitize (sanitize label) = sanitize label := by
  refine ⟨fun s label hs => ?_, sanitize_sanitize⟩
  obtain ⟨k, hname, hfree, hused⟩ := unused_least s.used (sanitize label)
  have hk : k ≤ s.used.toFinset.card := le_card_of_candidates hused
  have hsize : k + 1 < UInt32.size := by
    rw [UInt32.size]
    omega
  refine ⟨⟨k, hk, ?_⟩, fun hb => if_neg hb, fun hb => ?_, fresh_not_mem label,
    List.toFinset_cons⟩
  · rw [Function.iterate_succ_apply', Search.iterate_turn hused hsize,
      Search.turn_of_not_mem hfree, ← hname]
    rfl
  · cases k with
    | zero => exact absurd hb hfree
    | succ k => exact ⟨k + 1, isLeast_of_candidates hfree hused, hname⟩

/-- A base with its first suffix, and the third as it was once spelled; one name is held twice. -/
def gapped : Supply := ⟨["tint_3", "tint", "tint_1", "tint", "hue"], 0⟩

theorem fresh_exact_gapped :
    gapped.used.toFinset.card = 4 ∧ (gapped.fresh "_tint").1 = "tint_2" ∧
      ∃ turns ≤ 4, (Search.turn gapped.used "tint")^[turns + 1] (.start "tint") =
        .found "tint_2" := by
  have hcard : gapped.used.toFinset.card = 4 := by decide
  have hname : (gapped.fresh "_tint").1 = "tint_2" := by decide +kernel
  have hbase : sanitize "_tint" = "tint" := by decide
  have h := (fresh_exact.1 gapped "_tint" (by rw [hcard]; decide)).1
  rw [hcard, hbase, hname] at h
  exact ⟨hcard, hname, h⟩

end Supply

end ShaderDialects.Identifier
