import Mathlib.Data.List.Chain
import ShaderDialects.Proofs.Identifier.Fresh

namespace ShaderDialects.Identifier

structure WellFormed (name : String) : Prop where
  chars : ∀ c ∈ name.toList, c.isAlphanum ∨ c = '_'
  starts : ∃ c cs, name.toList = c :: cs ∧ c.isAlpha
  single : ¬ "__".toList <:+: name.toList
  ends : ¬ "_".toList <:+ name.toList

/-- Letters and digits with single underscores between them, and perhaps one in front. -/
structure Spelled (cs : List Char) : Prop where
  chars : ∀ c ∈ cs, c.isAlphanum ∨ c = '_'
  single : cs.IsChain fun a b => ¬ (a = '_' ∧ b = '_')
  ends : ∀ c ∈ cs.getLast?, c ≠ '_'

theorem ne_underscore_of_isAlphanum {c : Char} (h : c.isAlphanum = true) : c ≠ '_' := by
  rintro rfl
  exact absurd h (by decide)

namespace Spelled

variable {c d : Char} {cs ds : List Char}

theorem nil : Spelled [] := ⟨nofun, .nil, nofun⟩

theorem tail (h : Spelled (c :: cs)) : Spelled cs where
  chars := fun d hd => h.chars d (List.mem_cons_of_mem c hd)
  single := h.single.tail
  ends := by
    intro d hd
    apply h.ends
    cases cs with
    | nil => cases hd
    | cons e es => rwa [List.getLast?_cons_cons]

theorem append (hc : Spelled cs) (hd : Spelled ds) (hne : ds ≠ [])
    (hglue : ∀ a ∈ cs.getLast?, ∀ b ∈ ds.head?, ¬ (a = '_' ∧ b = '_')) : Spelled (cs ++ ds) where
  chars := by
    intro a ha
    rcases List.mem_append.mp ha with ha | ha
    · exact hc.chars a ha
    · exact hd.chars a ha
  single := List.isChain_append.mpr ⟨hc.single, hd.single, hglue⟩
  ends := by
    rw [List.getLast?_append_of_ne_nil cs hne]
    exact hd.ends

theorem cons (hc : c.isAlphanum = true) (h : Spelled cs) : Spelled (c :: cs) := by
  refine ⟨List.forall_mem_cons.mpr ⟨.inl hc, h.chars⟩, ?_, ?_⟩
  · exact List.isChain_cons.mpr ⟨fun _ _ hu => ne_underscore_of_isAlphanum hc hu.1, h.single⟩
  · cases cs with
    | nil => simpa using ne_underscore_of_isAlphanum hc
    | cons d ds => simpa [List.getLast?_cons_cons] using h.ends

theorem underscore (hd : d ≠ '_') (h : Spelled (d :: ds)) : Spelled ('_' :: d :: ds) := by
  refine ⟨List.forall_mem_cons.mpr ⟨.inr rfl, h.chars⟩, ?_, ?_⟩
  · exact List.isChain_cons_cons.mpr ⟨fun hu => hd hu.2, h.single⟩
  · simpa [List.getLast?_cons_cons] using h.ends

theorem push (h : Spelled cs) (c : Char) : Spelled (push c cs) := by
  unfold Identifier.push
  by_cases hc : c.isAlphanum = true
  · rw [if_pos hc]
    exact h.cons hc
  · rw [if_neg hc]
    split
    · exact nil
    · exact h
    next hd => exact h.underscore (by simpa using hd)

theorem foldr_push (label : List Char) : Spelled (label.foldr Identifier.push []) := by
  induction label with
  | nil => exact nil
  | cons c label ih => exact ih.push c

theorem squeeze (label : List Char) : Spelled (squeeze label) := by
  unfold Identifier.squeeze
  have h := foldr_push label
  split
  next rest heq => exact (heq ▸ h).tail
  · exact h

theorem of_isAlphanum (h : ∀ c ∈ cs, c.isAlphanum = true) : Spelled cs := by
  induction cs with
  | nil => exact nil
  | cons c cs ih =>
      rw [List.forall_mem_cons] at h
      exact (ih h.2).cons h.1

theorem wellFormed {name : String} (h : Spelled name.toList)
    (hs : ∃ c cs, name.toList = c :: cs ∧ c.isAlpha) : WellFormed name := by
  refine ⟨h.chars, hs, ?_, ?_⟩
  · intro hi
    have hu := List.IsChain.infix h.single hi
    simp at hu
  · rintro ⟨pre, hp⟩
    exact h.ends '_' (by simp [← hp]) rfl

end Spelled

theorem isAlphanum_head_squeeze {label : List Char} {c : Char} {cs : List Char}
    (h : squeeze label = c :: cs) : c.isAlphanum = true := by
  have hc : c ≠ '_' := by
    rcases squeeze_cases label with hn | ⟨d, ds, hd, hne⟩
    · simp [hn] at h
    · rw [hd] at h
      exact (List.cons.inj h).1 ▸ hne
  exact ((Spelled.squeeze label).chars c (by simp [h])).resolve_right hc

theorem sanitize_cases (label : String) :
    ∃ c cs, (sanitize label).toList = c :: cs ∧ c.isAlpha ∧ Spelled (c :: cs) ∧
      ¬ "gl_".toList <+: c :: cs := by
  have hs := Spelled.squeeze label.toList
  cases hsq : squeeze label.toList with
  | nil =>
      have hself : squeeze "unnamed".toList = 'u' :: "nnamed".toList := by decide
      refine ⟨'u', "nnamed".toList, by simp [sanitize, hsq], by decide, ?_, by decide⟩
      rw [← hself]
      exact Spelled.squeeze "unnamed".toList
  | cons c cs =>
      have hc := isAlphanum_head_squeeze hsq
      rw [hsq] at hs
      by_cases hl : needsLetter (c :: cs) = true
      · refine ⟨'v', c :: cs, by simp [sanitize, hsq, hl], by decide, hs.cons (by decide), ?_⟩
        simp
      · refine ⟨c, cs, by simp [sanitize, hsq, hl], ?_, hs, ?_⟩
        · have hd : c.isDigit = false := by
            unfold needsLetter at hl
            split at hl <;> simp_all
          simpa [Char.isAlphanum, hd] using hc
        · rintro ⟨rest, hr⟩
          apply hl
          rw [← hr]
          rfl

theorem toList_numbered (base : String) (k : Nat) :
    (numbered base k).toList = base.toList ++ '_' :: (toString k).toList := by
  simp [numbered]

/-- The digits of the suffix cannot meet the underscore in front of them with another. -/
theorem Spelled.numbered {base : String} (h : Spelled base.toList) (k : Nat) :
    Spelled (numbered base k).toList := by
  have hk : ∀ c ∈ (toString k).toList, c.isAlphanum = true := by
    intro c hc
    have hm : c ∈ Nat.toDigits 10 k := by simpa using hc
    simp [Char.isAlphanum, Nat.isDigit_of_mem_toDigits (by decide) (by decide) hm]
  have hsuffix : Spelled ('_' :: (toString k).toList) := by
    cases hd : (toString k).toList with
    | nil => simp at hd
    | cons d ds =>
        rw [hd] at hk
        exact (Spelled.of_isAlphanum hk).underscore (ne_underscore_of_isAlphanum (hk d (by simp)))
  rw [toList_numbered]
  exact h.append hsuffix (by simp) fun a ha _ _ hu => h.ends a ha hu.1

theorem gl_prefix_numbered_iff {base : String} (h : ¬ "gl_".toList <+: base.toList)
    (hne : base.toList ≠ []) (k : Nat) :
    "gl_".toList <+: (numbered base k).toList ↔ base = "gl" := by
  rw [toList_numbered, ← String.toList_inj]
  constructor
  · intro hp
    match hb : base.toList with
    | [] => exact absurd hb hne
    | [a] => simp [hb] at hp
    | [a, b] => simpa [hb, eq_comm] using hp
    | a :: b :: c :: cs => exact absurd (by simpa [hb] using hp) h
  · intro hb
    rw [hb]
    exact ⟨(toString k).toList, rfl⟩

theorem unused_cases (used : List String) (base : String) :
    base ∉ used ∧ unused used base = base ∨ base ∈ used ∧ ∃ k, unused used base = numbered base k := by
  by_cases h : base ∈ used
  · exact .inr ⟨h, by simpa [unused, h] using firstFree_eq_numbered used base used.length 1⟩
  · exact .inl ⟨h, by simp [unused, h]⟩

namespace Supply

variable {s : Supply}

theorem wellFormed_fresh (label : String) : WellFormed (s.fresh label).1 := by
  obtain ⟨c, cs, hcs, hc, hs, -⟩ := sanitize_cases label
  have hbase : Spelled (sanitize label).toList := hcs ▸ hs
  rcases unused_cases s.used (sanitize label) with ⟨-, hn⟩ | ⟨-, k, hn⟩
  · rw [fresh, hn]
    exact hbase.wellFormed ⟨c, cs, hcs, hc⟩
  · rw [fresh, hn]
    refine (hbase.numbered k).wellFormed ⟨c, cs ++ '_' :: (toString k).toList, ?_, hc⟩
    rw [toList_numbered, hcs, List.cons_append]

theorem gl_prefix_fresh_iff (label : String) :
    "gl_".toList <+: (s.fresh label).1.toList ↔ sanitize label = "gl" ∧ "gl" ∈ s.used := by
  obtain ⟨c, cs, hcs, -, -, hg⟩ := sanitize_cases label
  rw [← hcs] at hg
  rcases unused_cases s.used (sanitize label) with ⟨hu, hn⟩ | ⟨hu, k, hn⟩
  · rw [fresh, hn]
    refine iff_of_false hg ?_
    rintro ⟨hgl, hmem⟩
    exact hu (hgl ▸ hmem)
  · rw [fresh, hn, gl_prefix_numbered_iff hg (by simp [hcs]) k]
    exact ⟨fun hgl => ⟨hgl, hgl ▸ hu⟩, And.left⟩

theorem mem_used_fresh_iff {base : String} (hb : '_' ∉ base.toList) (label : String) :
    base ∈ (s.fresh label).2.used ↔ base ∈ s.used ∨ sanitize label = base := by
  rw [fresh, List.mem_cons, or_comm]
  rcases unused_cases s.used (sanitize label) with ⟨-, hn⟩ | ⟨hu, k, hn⟩
  · rw [hn, eq_comm]
  · have hne : base ≠ numbered (sanitize label) k := by
      rintro rfl
      exact hb (by simp [toList_numbered])
    rw [hn, or_iff_left hne]
    refine ⟨.inl, ?_⟩
    rintro (h | rfl)
    · exact h
    · exact hu

theorem mem_used_freshAll_iff {base : String} (hb : '_' ∉ base.toList) (labels : List String) :
    base ∈ (s.freshAll id labels).2.used ↔
      base ∈ s.used ∨ ∃ label ∈ labels, sanitize label = base := by
  induction labels generalizing s with
  | nil => simp [freshAll]
  | cons label labels ih =>
      have hstep := @ih (s.fresh label).2
      rw [mem_used_fresh_iff hb, or_assoc] at hstep
      simpa [freshAll] using hstep

theorem names_getElem? (labels : List String) (k : Nat) :
    (s.names id labels)[k]? =
      labels[k]?.map fun label => ((s.freshAll id (labels.take k)).2.fresh label).1 := by
  induction labels generalizing s k with
  | nil => rfl
  | cons label labels ih =>
      cases k with
      | zero => rfl
      | succ k => exact ih k

/-- Every name is well formed, whatever the labels and the names taken before. A name starts with
`gl_` exactly when its label reads `gl` and `gl` was taken, from the start or by an earlier label. -/
theorem wellFormed_names (s : Supply) (labels : List String) (k : Nat) (label name : String)
    (hl : labels[k]? = some label) (hn : (s.names id labels)[k]? = some name) :
    WellFormed name ∧
      ("gl_".toList <+: name.toList ↔
        sanitize label = "gl" ∧
          ("gl" ∈ s.used ∨ ∃ earlier ∈ labels.take k, sanitize earlier = "gl")) := by
  rw [names_getElem?, hl, Option.map_some, Option.some_inj] at hn
  subst hn
  refine ⟨wellFormed_fresh label, ?_⟩
  rw [gl_prefix_fresh_iff, mem_used_freshAll_iff (by decide)]

/-- Neither label starts with `gl_`, but the second name does, in a shader as in a struct. -/
theorem names_gl_underscore_gl :
    forFields.names id ["gl", "_gl"] = ["gl", "gl_1"] ∧
      (forShader []).names id ["gl", "_gl"] = ["gl", "gl_1"] ∧
      "gl_".toList <+: "gl_1".toList := by
  decide +kernel

/-- The fourth label meets the second, past one that reads like a word of the language. -/
theorem wellFormed_names_second_gl :
    (forFields.names id ["float", "gl", "9 lives", "gl"])[3]? = some "gl_1" ∧
      WellFormed "gl_1" ∧
      ("gl_".toList <+: "gl_1".toList ↔
        sanitize "gl" = "gl" ∧ ("gl" ∈ forFields.used ∨
          ∃ earlier ∈ ["float", "gl", "9 lives", "gl"].take 3, sanitize earlier = "gl")) := by
  have hn : (forFields.names id ["float", "gl", "9 lives", "gl"])[3]? = some "gl_1" := by
    decide +kernel
  exact ⟨hn, wellFormed_names forFields ["float", "gl", "9 lives", "gl"] 3 "gl" "gl_1" rfl hn⟩

end Supply

end ShaderDialects.Identifier
