import Mathlib.Data.List.Nodup
import Mathlib.Data.List.Perm.Subperm
import ShaderDialects.Identifier.Supply

namespace ShaderDialects.Identifier

theorem append_toString_injective (base : String) :
    Function.Injective (fun k : Nat => base ++ toString k) := by
  intro j k h
  have hd : Nat.toDigits 10 j = Nat.toDigits 10 k := by
    simpa [← String.toList_inj] using h
  rw [← Nat.ofDigitChars_ten_toDigits (n := j), hd, Nat.ofDigitChars_ten_toDigits]

theorem numbered_injective (base : String) : Function.Injective (numbered base) :=
  append_toString_injective (base ++ "_")

theorem firstFree_eq_numbered (used : List String) (base : String) (tries k : Nat) :
    ∃ j, firstFree used base tries k = numbered base j := by
  induction tries generalizing k with
  | zero => exact ⟨k, rfl⟩
  | succ tries ih =>
      rw [firstFree]
      split
      · exact ih (k + 1)
      · exact ⟨k, rfl⟩

/-- The search only ends with a used name when all the names it looked at are used. -/
theorem numbered_mem_of_firstFree_mem {used : List String} {base : String} {tries k : Nat}
    (h : firstFree used base tries k ∈ used) (j : Nat) (hj : j ≤ tries) :
    numbered base (k + j) ∈ used := by
  induction tries generalizing k j with
  | zero =>
      obtain rfl : j = 0 := by omega
      exact h
  | succ tries ih =>
      rw [firstFree] at h
      split at h
      next hk =>
        cases j with
        | zero => exact hk
        | succ j =>
            have hm := ih h j (by omega)
            rwa [Nat.add_assoc, Nat.add_comm 1 j] at hm
      next hk => exact absurd h hk

theorem unused_not_mem (used : List String) (base : String) : unused used base ∉ used := by
  rw [unused]
  split
  next hb =>
    intro h
    have hsub : (List.range (used.length + 1)).map (fun j => numbered base (1 + j)) ⊆ used := by
      intro name hn
      obtain ⟨j, hj, rfl⟩ := List.mem_map.mp hn
      exact numbered_mem_of_firstFree_mem h j (by simpa [Nat.lt_succ_iff] using hj)
    have hnodup : ((List.range (used.length + 1)).map (fun j => numbered base (1 + j))).Nodup := by
      refine List.nodup_range.map fun i j hij => ?_
      have := numbered_injective base hij
      omega
    have hlen := (hnodup.subperm hsub).length_le
    rw [List.length_map, List.length_range] at hlen
    omega
  next hb => exact hb

def Plain (name : String) : Prop := ∃ c cs, name.toList = c :: cs ∧ c ≠ '_'

theorem Plain.append {name : String} (h : Plain name) (suffix : String) : Plain (name ++ suffix) := by
  obtain ⟨c, cs, hn, hc⟩ := h
  exact ⟨c, cs ++ suffix.toList, by simp [hn], hc⟩

theorem foldr_push_cases (label : List Char) :
    label.foldr push [] = [] ∨ (∃ c cs, label.foldr push [] = c :: cs ∧ c ≠ '_') ∨
      ∃ c cs, label.foldr push [] = '_' :: c :: cs ∧ c ≠ '_' := by
  induction label with
  | nil => exact .inl rfl
  | cons a label ih =>
      rw [List.foldr_cons]
      by_cases ha : a.isAlphanum = true
      · refine .inr (.inl ⟨a, label.foldr push [], by simp [push, ha], ?_⟩)
        rintro rfl
        simp at ha
      · rcases ih with h | ⟨c, cs, h, hc⟩ | ⟨c, cs, h, hc⟩
        · exact .inl (by simp [push, ha, h])
        · exact .inr (.inr ⟨c, cs, by simp [push, ha, h], hc⟩)
        · exact .inr (.inr ⟨c, cs, by simp [push, ha, h], hc⟩)

theorem squeeze_cases (label : List Char) :
    squeeze label = [] ∨ ∃ c cs, squeeze label = c :: cs ∧ c ≠ '_' := by
  rcases foldr_push_cases label with h | ⟨c, cs, h, hc⟩ | ⟨c, cs, h, hc⟩
  · exact .inl (by simp [squeeze, h])
  · exact .inr ⟨c, cs, by simp [squeeze, h, hc], hc⟩
  · exact .inr ⟨c, cs, by simp [squeeze, h], hc⟩

theorem plain_sanitize (label : String) : Plain (sanitize label) := by
  rcases squeeze_cases label.toList with h | ⟨c, cs, h, hc⟩
  · exact ⟨'u', "nnamed".toList, by simp [sanitize, h], by decide⟩
  · by_cases hl : needsLetter (c :: cs) = true
    · exact ⟨'v', c :: cs, by simp [sanitize, h, hl], by decide⟩
    · exact ⟨c, cs, by simp [sanitize, h, hl], hc⟩

theorem plain_unused {base : String} (h : Plain base) (used : List String) :
    Plain (unused used base) := by
  rw [unused]
  split
  · obtain ⟨j, hj⟩ := firstFree_eq_numbered used base used.length 1
    rw [hj]
    exact (h.append "_").append (toString j)
  · exact h

namespace Supply

variable (s : Supply)

/-- The names a supply has given out are among those it knows. -/
def Knows (name : String) : Prop :=
  (Plain name ∧ name ∈ s.used) ∨ ∃ k < s.temporaries, name = "_t" ++ toString k

variable {s}

theorem Knows.fresh {name : String} (h : s.Knows name) (label : String) :
    (s.fresh label).2.Knows name := by
  rcases h with ⟨hp, hu⟩ | h
  · exact .inl ⟨hp, List.mem_cons_of_mem _ hu⟩
  · exact .inr h

theorem Knows.temporary {name : String} (h : s.Knows name) : s.temporary.2.Knows name := by
  rcases h with h | ⟨k, hk, rfl⟩
  · exact .inl h
  · exact .inr ⟨k, Nat.lt_succ_of_lt hk, rfl⟩

theorem not_plain_temporary (k : Nat) : ¬ Plain ("_t" ++ toString k) := by
  rintro ⟨c, cs, h, hc⟩
  have ht : ("_t" ++ toString k).toList = '_' :: 't' :: (toString k).toList := by
    rw [String.toList_append]
    rfl
  rw [ht] at h
  exact hc (List.cons.inj h).1.symm

theorem plain_fresh (label : String) : Plain (s.fresh label).1 :=
  plain_unused (plain_sanitize label) s.used

theorem fresh_not_mem (label : String) : (s.fresh label).1 ∉ s.used := unused_not_mem _ _

theorem knows_fresh (label : String) : (s.fresh label).2.Knows (s.fresh label).1 :=
  .inl ⟨plain_fresh label, List.mem_cons_self⟩

theorem not_knows_fresh (label : String) : ¬ s.Knows (s.fresh label).1 := by
  rintro (⟨_, h⟩ | ⟨k, _, h⟩)
  · exact fresh_not_mem label h
  · exact not_plain_temporary k (h ▸ plain_fresh label)

theorem knows_temporary : s.temporary.2.Knows s.temporary.1 :=
  .inr ⟨s.temporaries, Nat.lt_succ_self _, rfl⟩

theorem not_knows_temporary : ¬ s.Knows s.temporary.1 := by
  rintro (⟨h, _⟩ | ⟨k, hk, h⟩)
  · exact not_plain_temporary _ h
  · have hs : s.temporaries = k := append_toString_injective "_t" h
    omega

/-- Between `s` and `s'` exactly these names were given out, in some order. -/
inductive Gives : Supply → List String → Supply → Prop where
  | nil {s : Supply} : Gives s [] s
  | fresh {s s' : Supply} {names : List String} (label : String)
      (h : Gives (s.fresh label).2 names s') : Gives s ((s.fresh label).1 :: names) s'
  | temporary {s s' : Supply} {names : List String} (h : Gives s.temporary.2 names s') :
      Gives s (s.temporary.1 :: names) s'
  | perm {s s' : Supply} {names names' : List String} (h : Gives s names s')
      (hp : names.Perm names') : Gives s names' s'

namespace Gives

variable {s s₁ s₂ : Supply} {names names' : List String}

theorem append (h : s.Gives names s₁) (h' : s₁.Gives names' s₂) :
    s.Gives (names ++ names') s₂ := by
  induction h with
  | nil => exact h'
  | fresh label _ ih => exact .fresh label (ih h')
  | temporary _ ih => exact .temporary (ih h')
  | perm _ hp ih => exact .perm (ih h') (hp.append_right names')

theorem knows (h : s.Gives names s₁) {n : String} (hn : s.Knows n) : s₁.Knows n := by
  induction h with
  | nil => exact hn
  | fresh label _ ih => exact ih (hn.fresh label)
  | temporary _ ih => exact ih hn.temporary
  | perm _ _ ih => exact ih hn

theorem known (h : s.Gives names s₁) : ∀ n ∈ names, s₁.Knows n := by
  induction h with
  | nil => exact nofun
  | fresh label h ih => exact List.forall_mem_cons.mpr ⟨h.knows (knows_fresh label), ih⟩
  | temporary h ih => exact List.forall_mem_cons.mpr ⟨h.knows knows_temporary, ih⟩
  | perm _ hp ih => exact fun n hn => ih n (hp.mem_iff.mpr hn)

theorem new (h : s.Gives names s₁) : ∀ n ∈ names, ¬ s.Knows n := by
  induction h with
  | nil => exact nofun
  | fresh label _ ih =>
      exact List.forall_mem_cons.mpr ⟨not_knows_fresh label, fun n hn hk => ih n hn (hk.fresh label)⟩
  | temporary _ ih =>
      exact List.forall_mem_cons.mpr ⟨not_knows_temporary, fun n hn hk => ih n hn hk.temporary⟩
  | perm _ hp ih => exact fun n hn => ih n (hp.mem_iff.mpr hn)

theorem nodup (h : s.Gives names s₁) : names.Nodup := by
  induction h with
  | nil => exact List.nodup_nil
  | fresh label h ih => exact List.nodup_cons.mpr ⟨fun hn => h.new _ hn (knows_fresh label), ih⟩
  | temporary h ih => exact List.nodup_cons.mpr ⟨fun hn => h.new _ hn knows_temporary, ih⟩
  | perm _ hp ih => exact hp.nodup_iff.mp ih

/-- What was not to be used is not given out, except by chance as a temporary. The number of a
temporary is less than that of the names given out, so 32 bits are enough for the first `2 ^ 32`. -/
theorem avoids (h : s.Gives names s₁) :
    ∀ n ∈ names, (∃ t : Supply, n = t.temporary.1 ∧ t.temporaries < s.temporaries + names.length) ∨
      n ∉ s.used := by
  induction h with
  | nil => exact nofun
  | fresh label _ ih =>
      refine List.forall_mem_cons.mpr ⟨.inr (fresh_not_mem label), fun n hn => ?_⟩
      rcases ih n hn with ⟨t, ht, hlt⟩ | hu
      · exact .inl ⟨t, ht, Nat.lt_succ_of_lt hlt⟩
      · exact .inr fun hmem => hu (List.mem_cons_of_mem _ hmem)
  | @temporary s _ names _ ih =>
      refine List.forall_mem_cons.mpr ⟨.inl ⟨s, rfl, by simp⟩, fun n hn => ?_⟩
      refine (ih n hn).imp_left fun ⟨t, ht, hlt⟩ => ⟨t, ht, ?_⟩
      have hmade : s.temporary.2.temporaries = s.temporaries + 1 := rfl
      rw [hmade] at hlt
      rw [List.length_cons]
      omega
  | perm _ hp ih => exact fun n hn => hp.length_eq ▸ ih n (hp.mem_iff.mpr hn)

end Gives

section FreshAll

variable {α : Type} (label : α → String)

def names (s : Supply) (as : List α) : List String := (s.freshAll label as).1.map Prod.fst

@[simp]
theorem names_nil : s.names label [] = [] := rfl

@[simp]
theorem names_cons (a : α) (as : List α) :
    s.names label (a :: as) = (s.fresh (label a)).1 :: (s.fresh (label a)).2.names label as := rfl

@[simp]
theorem length_names (as : List α) : (s.names label as).length = as.length := by
  induction as generalizing s with
  | nil => rfl
  | cons a as ih => simp [ih]

theorem freshAll_fst (as : List α) : (s.freshAll label as).1 = (s.names label as).zip as := by
  induction as generalizing s with
  | nil => rfl
  | cons a as ih => simp [freshAll, ih]

theorem gives_freshAll (as : List α) :
    s.Gives (s.names label as) (s.freshAll label as).2 := by
  induction as generalizing s with
  | nil => exact .nil
  | cons a as ih => exact .fresh (label a) ih

variable {label} in
theorem knows_freshAll {name : String} {as : List α} (h : name ∈ s.names label as) :
    (s.freshAll label as).2.Knows name :=
  (gives_freshAll label as).known name h

variable {label} in
theorem not_knows_freshAll {name : String} {as : List α} (h : name ∈ s.names label as) :
    ¬ s.Knows name :=
  (gives_freshAll label as).new name h

theorem Knows.freshAll {name : String} (h : s.Knows name) (as : List α) :
    (s.freshAll label as).2.Knows name :=
  (gives_freshAll label as).knows h

theorem nodup_names (as : List α) : (s.names label as).Nodup := (gives_freshAll label as).nodup

variable {label} in
theorem not_mem_used_of_mem_names {name : String} {as : List α} (h : name ∈ s.names label as) :
    name ∉ s.used := by
  induction as generalizing s with
  | nil => cases h
  | cons a as ih =>
      rcases List.mem_cons.mp h with rfl | h
      · exact fresh_not_mem (label a)
      · intro hu
        exact ih h (List.mem_cons_of_mem _ hu)

theorem names_map (as : List α) : s.names label as = s.names id (as.map label) := by
  induction as generalizing s with
  | nil => rfl
  | cons a as ih => simp [ih]

theorem freshAll_map (as : List α) :
    (s.freshAll label as).2 = (s.freshAll id (as.map label)).2 := by
  induction as generalizing s with
  | nil => rfl
  | cons a as ih => exact ih

theorem names_append (as bs : List α) :
    s.names label (as ++ bs) = s.names label as ++ (s.freshAll label as).2.names label bs := by
  induction as generalizing s with
  | nil => rfl
  | cons a as ih =>
      rw [List.cons_append, names_cons, ih]
      rfl

theorem freshAll_append (as bs : List α) :
    (s.freshAll label (as ++ bs)).2 = ((s.freshAll label as).2.freshAll label bs).2 := by
  induction as generalizing s with
  | nil => rfl
  | cons a as ih => exact ih

end FreshAll

end Supply

end ShaderDialects.Identifier
