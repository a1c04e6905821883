import ShaderDialects.Package.Normal
import ShaderDialects.Proofs.Text.Lines
import ShaderDialects.Proofs.Text.Words

namespace ShaderDialects.Package

open Text (isBlank words unwords)

def scanLine : Bool → List Char → List Char × Bool
  | true, '*' :: '/' :: cs =>
      let (rest, inside) := scanLine false cs
      (' ' :: rest, inside)
  | true, _ :: cs => scanLine true cs
  | true, [] => ([], true)
  | false, '/' :: '/' :: _ => ([], false)
  | false, '/' :: '*' :: cs => scanLine true cs
  | false, c :: cs =>
      let (rest, inside) := scanLine false cs
      (c :: rest, inside)
  | false, [] => ([], false)

section Searching

variable {x y c : Char} {cs : List Char}

theorem pairIndex?_here (x y : Char) (cs : List Char) :
    pairIndex? x y (x :: y :: cs) = some ⟨0, Nat.zero_lt_succ _⟩ := by
  rw [pairIndex?, if_pos ⟨rfl, rfl⟩]

theorem pairIndex?_later (h : ∀ rest, c = x → cs ≠ y :: rest) :
    pairIndex? x y (c :: cs) = (pairIndex? x y cs).map Fin.succ := by
  rw [pairIndex?, if_neg]
  rintro ⟨hc, hcs⟩
  obtain ⟨rest, rfl⟩ := List.head?_eq_some_iff.mp hcs
  exact h rest hc rfl

theorem stripComments_code (h : ∀ rest, c = '/' → cs ≠ '/' :: rest)
    (h' : ∀ rest, c = '/' → cs ≠ '*' :: rest) :
    stripComments false (c :: cs) =
      (c :: (stripComments false cs).1, (stripComments false cs).2) := by
  rw [stripComments, stripComments, pairIndex?_later h, pairIndex?_later h']
  cases pairIndex? '/' '/' cs with
  | none => cases pairIndex? '/' '*' cs <;> rfl
  | some i =>
      cases pairIndex? '/' '*' cs with
      | none => rfl
      | some j => by_cases hij : i < j <;> simp [hij]

theorem stripComments_block (h : ∀ rest, c = '*' → cs ≠ '/' :: rest) :
    stripComments true (c :: cs) = stripComments true cs := by
  rw [stripComments, stripComments, pairIndex?_later h]
  cases pairIndex? '*' '/' cs <;> rfl

/-- Searching for one marker after the other finds the comments that the scan does. -/
theorem stripComments_eq_scanLine (inside : Bool) (line : List Char) :
    stripComments inside line = scanLine inside line := by
  fun_induction scanLine inside line with
  | case1 cs code inside h ih =>
      rw [stripComments, pairIndex?_here]
      simp [ih, h]
  | case2 c cs hclose ih => rw [stripComments_block hclose, ih]
  | case3 => simp [stripComments, pairIndex?]
  | case4 cs =>
      rw [stripComments, pairIndex?_here, pairIndex?_later (by simp)]
      cases pairIndex? '/' '*' ('/' :: cs) with
      | none => rfl
      | some j => simp
  | case5 cs ih =>
      rw [stripComments, pairIndex?_here, pairIndex?_later (by simp)]
      cases pairIndex? '/' '/' ('*' :: cs) with
      | none => simp [ih]
      | some j => simp [ih]
  | case6 c cs hline hblock code inside h ih => rw [stripComments_code hline hblock, ih, h]
  | case7 => simp [stripComments, pairIndex?]

theorem normalLines_cons (inside : Bool) (line : List Char) (lines : List (List Char)) :
    normalLines inside (line :: lines) =
      if (collapse (scanLine inside line).1).isEmpty then normalLines (scanLine inside line).2 lines
      else collapse (scanLine inside line).1 :: normalLines (scanLine inside line).2 lines := by
  rw [normalLines, stripComments_eq_scanLine]

end Searching

/-- The only blank left is the space. -/
def Spaced (cs : List Char) : Prop := ∀ c ∈ cs, isBlank c = true → c = ' '

theorem Spaced.cons {c : Char} {cs : List Char} (hc : isBlank c = true → c = ' ') (h : Spaced cs) :
    Spaced (c :: cs) :=
  List.forall_mem_cons.mpr ⟨hc, h⟩

theorem Spaced.push {cs : List Char} (h : Spaced cs) (c : Char) : Spaced (pushSpaced c cs) := by
  unfold pushSpaced
  by_cases hc : isBlank c = true
  · rw [if_pos hc]
    split
    · exact h
    · exact h
    · exact h.cons fun _ => rfl
  · rw [if_neg hc]
    exact h.cons fun hb => absurd hb hc

theorem spaced_collapse (line : List Char) : Spaced (collapse line) := by
  have h : Spaced (line.foldr pushSpaced []) := by
    induction line with
    | nil => exact nofun
    | cons c line ih => exact ih.push c
  rw [collapse]
  split
  next rest heq => exact fun c hc => h c (by simp [heq, hc])
  · exact h

section Pushing

variable {c d : Char}

theorem pushSpaced_solid (hc : isBlank c = false) (rest : List Char) :
    pushSpaced c rest = c :: rest := by
  unfold pushSpaced
  rw [if_neg (by simp [hc])]

theorem pushSpaced_nil (hc : isBlank c = true) : pushSpaced c [] = [] := by
  rw [pushSpaced, if_pos hc]

theorem pushSpaced_space (hc : isBlank c = true) (rest : List Char) :
    pushSpaced c (' ' :: rest) = ' ' :: rest := by
  rw [pushSpaced, if_pos hc]

theorem pushSpaced_word (hc : isBlank c = true) (hd : isBlank d = false) (rest : List Char) :
    pushSpaced c (d :: rest) = ' ' :: d :: rest := by
  rw [pushSpaced, if_pos hc]
  rintro rfl
  exact absurd hd (by decide)

end Pushing

/-- The words of a line after its first piece each get a space in front; the first piece, which is
empty if the line starts with a blank, gets none. -/
theorem foldr_pushSpaced {line w : List Char} {ws : List (List Char)}
    (h : line.splitOnP isBlank = w :: ws) :
    line.foldr pushSpaced [] = w ++ (ws.filter fun v => !v.isEmpty).flatMap (' ' :: ·) := by
  induction line generalizing w ws with
  | nil =>
      rw [List.splitOnP_nil] at h
      cases h
      rfl
  | cons c line ih =>
      obtain ⟨v, vs, hline⟩ := Text.exists_splitOnP_eq_cons line
      rw [List.foldr_cons, ih hline]
      by_cases hc : isBlank c = true
      · rw [Text.splitOnP_cons_blank hc, hline] at h
        cases h
        cases v with
        | nil =>
            rw [List.filter_cons_of_neg (by simp)]
            cases vs.filter fun v => !v.isEmpty with
            | nil => exact pushSpaced_nil hc
            | cons u us => exact pushSpaced_space hc _
        | cons d v =>
            have hd : isBlank d = false :=
              (Text.splitOnP_spec hline).2.2 (d :: v) List.mem_cons_self d List.mem_cons_self
            rw [List.filter_cons_of_pos (by simp), List.flatMap_cons]
            exact pushSpaced_word hc hd _
      · rw [Bool.not_eq_true] at hc
        rw [Text.splitOnP_cons_solid hc hline] at h
        cases h
        exact pushSpaced_solid hc _

theorem collapse_eq_unwords (line : List Char) : collapse line = unwords (words line) := by
  obtain ⟨w, ws, hline⟩ := Text.exists_splitOnP_eq_cons line
  rw [collapse, foldr_pushSpaced hline, words, hline]
  cases w with
  | nil =>
      rw [List.filter_cons_of_neg (by simp)]
      cases ws.filter fun v => !v.isEmpty with
      | nil => rfl
      | cons v vs =>
          rw [Text.unwords_cons]
          rfl
  | cons d w =>
      have hd : isBlank d = false :=
        (Text.splitOnP_spec hline).2.2 (d :: w) List.mem_cons_self d List.mem_cons_self
      rw [List.filter_cons_of_pos (by simp), Text.unwords_cons]
      split
      · rename_i heq
        cases heq
        exact absurd hd (by decide)
      · rfl

theorem spaced_of_mem_normalLines {inside : Bool} {lines : List (List Char)} {l : List Char}
    (h : l ∈ normalLines inside lines) : Spaced l := by
  induction lines generalizing inside with
  | nil => simp [normalLines] at h
  | cons line lines ih =>
      rw [normalLines] at h
      simp only at h
      split at h
      · exact ih h
      · rcases List.mem_cons.mp h with rfl | h
        · exact spaced_collapse _
        · exact ih h

theorem exists_mem_normalLines {s : Text.Source} {lines : List String}
    (h : normalize s = .ok lines) {l : String} (hl : l ∈ lines) :
    ∃ raw, l.toList ∈ normalLines false raw := by
  obtain ⟨raw, _, h⟩ := Except.bind_eq_ok.mp h
  obtain rfl := Except.pure_eq_ok.mp h
  obtain ⟨cs, hcs, rfl⟩ := List.mem_map.mp hl
  rw [String.toList_ofList]
  exact ⟨_, hcs⟩

theorem feed_not_mem_of_normalize {s : Text.Source} {lines : List String}
    (h : normalize s = .ok lines) {l : String} (hl : l ∈ lines) : '\n' ∉ l.toList := by
  obtain ⟨raw, hl⟩ := exists_mem_normalLines h hl
  intro hn
  have hspace := spaced_of_mem_normalLines hl '\n' hn (by decide)
  exact absurd hspace (by decide)

def normalText (text : String) : List String :=
  (normalLines false (Text.textLines text.toList)).map String.ofList

theorem normalize_ofString (text : String) :
    normalize (.ofString text) = .ok (normalText text) := by
  have hraw : normalize (.ofString text) = .ok ((normalLines false
      (((Text.textLines text.toList).map String.ofList).map String.toList)).map String.ofList) := by
    rw [normalize, Text.lines_ofString]
    rfl
  have hid : String.toList ∘ String.ofList = id := funext fun _ => String.toList_ofList
  rw [hraw, List.map_map, hid, List.map_id, normalText]

end ShaderDialects.Package
