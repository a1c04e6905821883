import Mathlib.Data.List.Infix
import ShaderDialects.Text.Blank

namespace ShaderDialects.Text

def words (line : List Char) : List (List Char) :=
  (line.splitOnP isBlank).filter fun w => !w.isEmpty

def unwords (ws : List (List Char)) : List Char := [' '].intercalate ws

structure IsWord (w : List Char) : Prop where
  nonempty : w ≠ []
  solid : ∀ c ∈ w, isBlank c = false

theorem unwords_cons_cons (v w : List Char) (ws : List (List Char)) :
    unwords (v :: w :: ws) = v ++ ' ' :: unwords (w :: ws) := by
  rw [unwords, List.intercalate_cons_cons, List.append_assoc]
  rfl

theorem unwords_cons (w : List Char) (ws : List (List Char)) :
    unwords (w :: ws) = w ++ ws.flatMap (' ' :: ·) := by
  induction ws generalizing w with
  | nil => simp [unwords]
  | cons v ws ih => rw [unwords_cons_cons, ih, List.flatMap_cons, List.cons_append]

theorem splitOnP_cons_blank {c : Char} (hc : isBlank c = true) (cs : List Char) :
    (c :: cs).splitOnP isBlank = [] :: cs.splitOnP isBlank := by
  rw [List.splitOnP_cons_eq_if_modifyHead, if_pos hc]

theorem splitOnP_cons_solid {c : Char} (hc : isBlank c = false) {cs w : List Char}
    {ws : List (List Char)} (h : cs.splitOnP isBlank = w :: ws) :
    (c :: cs).splitOnP isBlank = (c :: w) :: ws := by
  rw [List.splitOnP_cons_eq_if_modifyHead, if_neg (by simp [hc]), h, List.modifyHead_cons]

theorem exists_splitOnP_eq_cons (cs : List Char) :
    ∃ w ws, cs.splitOnP isBlank = w :: ws :=
  List.exists_cons_of_ne_nil (List.splitOnP_ne_nil _ _)

/-- No blank stands in a piece, and each piece is a part of the line, the first one at its start. -/
theorem splitOnP_spec {line w : List Char} {ws : List (List Char)}
    (h : line.splitOnP isBlank = w :: ws) :
    w <+: line ∧ (∀ v ∈ ws, v <:+: line) ∧ ∀ v ∈ w :: ws, ∀ c ∈ v, isBlank c = false := by
  induction line generalizing w ws with
  | nil =>
      rw [List.splitOnP_nil] at h
      cases h
      simp
  | cons c line ih =>
      obtain ⟨v, vs, hline⟩ := exists_splitOnP_eq_cons line
      obtain ⟨hv, hvs, hsolid⟩ := ih hline
      by_cases hc : isBlank c = true
      · rw [splitOnP_cons_blank hc, hline] at h
        cases h
        refine ⟨List.nil_prefix, ?_, ?_⟩
        · rw [List.forall_mem_cons]
          exact ⟨List.infix_cons hv.isInfix, fun u hu => List.infix_cons (hvs u hu)⟩
        · rw [List.forall_mem_cons]
          exact ⟨by simp, hsolid⟩
      · rw [Bool.not_eq_true] at hc
        rw [splitOnP_cons_solid hc hline] at h
        cases h
        rw [List.forall_mem_cons] at hsolid ⊢
        refine ⟨List.cons_prefix_cons.mpr ⟨rfl, hv⟩, fun u hu => List.infix_cons (hvs u hu), ?_,
          hsolid.2⟩
        exact List.forall_mem_cons.mpr ⟨hc, hsolid.1⟩

theorem isWord_of_mem_words {line w : List Char} (h : w ∈ words line) : IsWord w := by
  obtain ⟨hw, hne⟩ := List.mem_filter.mp h
  obtain ⟨v, vs, hline⟩ := exists_splitOnP_eq_cons line
  refine ⟨by simpa using hne, ?_⟩
  rw [hline] at hw
  exact (splitOnP_spec hline).2.2 w hw

theorem infix_of_mem_words {line w : List Char} (h : w ∈ words line) : w <:+: line := by
  obtain ⟨hw, -⟩ := List.mem_filter.mp h
  obtain ⟨v, vs, hline⟩ := exists_splitOnP_eq_cons line
  obtain ⟨hv, hvs, -⟩ := splitOnP_spec hline
  rw [hline] at hw
  rcases List.mem_cons.mp hw with rfl | hw
  · exact hv.isInfix
  · exact hvs w hw

theorem words_of_isWord {w : List Char} (h : IsWord w) : words w = [w] := by
  rw [words, List.splitOnP_eq_singleton h.solid]
  simp [h.nonempty]

theorem words_unwords {ws : List (List Char)} (h : ∀ w ∈ ws, IsWord w) :
    words (unwords ws) = ws := by
  induction ws with
  | nil => simp [words, unwords, List.splitOnP_nil]
  | cons w ws ih =>
      obtain ⟨hw, hws⟩ := List.forall_mem_cons.mp h
      cases ws with
      | nil => simpa [unwords] using words_of_isWord hw
      | cons v ws =>
          have hsplit : words (unwords (w :: v :: ws)) = words w ++ words (unwords (v :: ws)) := by
            rw [unwords_cons_cons, words, List.splitOnP_append_cons _ _ (by decide),
              List.filter_append]
            rfl
          rw [hsplit, ih hws, words_of_isWord hw, List.singleton_append]

theorem pair_infix_append_cons {x y c : Char} (hx : x ≠ c) (hy : y ≠ c) {as bs : List Char}
    (h : [x, y] <:+: as ++ c :: bs) : [x, y] <:+: as ∨ [x, y] <:+: bs := by
  induction as with
  | nil =>
      rcases List.infix_cons_iff.mp h with h | h
      · exact absurd (List.cons_prefix_cons.mp h).1 hx
      · exact .inr h
  | cons a as ih =>
      rcases List.infix_cons_iff.mp h with h | h
      · obtain ⟨hxa, hrest⟩ := List.cons_prefix_cons.mp h
        cases as with
        | nil => exact absurd (List.cons_prefix_cons.mp hrest).1 hy
        | cons b as =>
            have hyb : y = b := (List.cons_prefix_cons.mp hrest).1
            exact .inl (List.IsPrefix.isInfix ⟨as, by rw [hxa, hyb]; rfl⟩)
      · exact (ih h).imp_left List.infix_cons

theorem exists_infix_of_pair_infix_unwords {x y : Char} (hx : x ≠ ' ') (hy : y ≠ ' ')
    {ws : List (List Char)} (h : [x, y] <:+: unwords ws) : ∃ w ∈ ws, [x, y] <:+: w := by
  induction ws with
  | nil => simp [unwords] at h
  | cons w ws ih =>
      cases ws with
      | nil => exact ⟨w, List.mem_singleton_self w, by simpa [unwords] using h⟩
      | cons v ws =>
          rw [unwords_cons_cons] at h
          rcases pair_infix_append_cons hx hy h with h | h
          · exact ⟨w, List.mem_cons_self, h⟩
          · obtain ⟨u, hu, h⟩ := ih h
            exact ⟨u, List.mem_cons_of_mem _ hu, h⟩

end ShaderDialects.Text
