import Mathlib.Data.List.Basic
import ShaderDialects.Proofs.Except
import ShaderDialects.Text.Lines

namespace ShaderDialects.Text

def encoded (cs : List Char) : List UInt8 := cs.flatMap String.utf8EncodeChar

def splitChars : List Char → List (List Char) × List Char
  | [] => ([], [])
  | c :: cs =>
      let (lines, last) := splitChars cs
      if c = '\n' then ([] :: lines, last)
      else match lines with
        | [] => ([], c :: last)
        | line :: lines => ((c :: line) :: lines, last)

def dropReturnChar (line : List Char) : List Char :=
  if line.getLast? = some '\r' then line.dropLast else line

def textLines (cs : List Char) : List (List Char) :=
  let (ended, last) := splitChars cs
  ended.map dropReturnChar ++ if last.isEmpty then [] else [last]

theorem encoded_append (cs ds : List Char) : encoded (cs ++ ds) = encoded cs ++ encoded ds :=
  List.flatMap_append

theorem encoded_eq_nil {cs : List Char} : encoded cs = [] ↔ cs = [] := by
  cases cs <;> simp [encoded]

/-- A byte of a character is outside of ASCII, or it is all of the character. -/
theorem byte_cases {c : Char} {b : UInt8} (h : b ∈ String.utf8EncodeChar c) :
    128 ≤ b ∨ String.utf8EncodeChar c = [b] ∧ c.toNat = b.toNat := by
  have hhigh (x y : UInt8) (hy : 128 ≤ y) : 128 ≤ x ||| y := by
    rw [UInt8.or_comm]
    exact UInt8.le_trans hy UInt8.left_le_or
  rcases Char.utf8Size_eq c with hs | hs | hs | hs
  · right
    have hb := String.utf8EncodeChar_eq_singleton hs
    have hle : c.val.toNat ≤ 127 := Char.utf8Size_eq_one_iff.mp hs
    rw [hb, List.mem_singleton] at h
    subst h
    refine ⟨hb, ?_⟩
    rw [UInt32.toNat_toUInt8, Nat.mod_eq_of_lt (by omega)]
    rfl
  all_goals left
  · rw [String.utf8EncodeChar_eq_cons_cons hs] at h
    simp only [List.mem_cons, List.not_mem_nil, or_false] at h
    rcases h with rfl | rfl <;> exact hhigh _ _ (by decide)
  · rw [String.utf8EncodeChar_eq_cons_cons_cons hs] at h
    simp only [List.mem_cons, List.not_mem_nil, or_false] at h
    rcases h with rfl | rfl | rfl <;> exact hhigh _ _ (by decide)
  · rw [String.utf8EncodeChar_eq_cons_cons_cons_cons hs] at h
    simp only [List.mem_cons, List.not_mem_nil, or_false] at h
    rcases h with rfl | rfl | rfl | rfl <;> exact hhigh _ _ (by decide)

theorem eq_of_mem_utf8EncodeChar {c d : Char} {b : UInt8} (hb : b < 128) (hd : d.toNat = b.toNat)
    (h : b ∈ String.utf8EncodeChar c) : c = d := by
  rcases byte_cases h with hle | ⟨-, hc⟩
  · exact absurd (UInt8.lt_of_lt_of_le hb hle) (UInt8.lt_irrefl b)
  · exact Char.toNat_inj.mp (hc.trans hd.symm)

theorem splitLines_append {bs rest : List UInt8} (h : 10 ∉ bs) :
    splitLines (bs ++ rest) =
      match (splitLines rest).1 with
      | [] => ([], bs ++ (splitLines rest).2)
      | line :: lines => ((bs ++ line) :: lines, (splitLines rest).2) := by
  induction bs with
  | nil => cases hl : splitLines rest with | mk lines last => cases lines <;> simp [hl]
  | cons b bs ih =>
      obtain ⟨hb, hbs⟩ := not_or.mp (List.mem_cons.not.mp h)
      rw [List.cons_append, splitLines, ih hbs]
      cases (splitLines rest).1 <;> simp [Ne.symm hb]

theorem splitLines_encoded (cs : List Char) :
    splitLines (encoded cs) = ((splitChars cs).1.map encoded, encoded (splitChars cs).2) := by
  induction cs with
  | nil => rfl
  | cons c cs ih =>
      by_cases hc : c = '\n'
      · subst hc
        have he : encoded ('\n' :: cs) = 10 :: encoded cs := rfl
        rw [he, splitLines, ih, splitChars]
        rfl
      · have hn : 10 ∉ String.utf8EncodeChar c := fun h =>
          hc (eq_of_mem_utf8EncodeChar (by decide) (by decide) h)
        have he : encoded (c :: cs) = String.utf8EncodeChar c ++ encoded cs := rfl
        rw [he, splitLines_append hn, ih, splitChars]
        cases hl : (splitChars cs).1 <;> simp [hc, hl, encoded]

theorem dropReturn_encoded (line : List Char) :
    dropReturn (encoded line) = encoded (dropReturnChar line) := by
  rcases List.eq_nil_or_concat line with rfl | ⟨init, c, rfl⟩
  · rfl
  · rw [List.concat_eq_append, encoded_append]
    have he : encoded [c] = String.utf8EncodeChar c := List.flatMap_singleton _ _
    by_cases hc : c = '\r'
    · subst hc
      have hr : encoded ['\r'] = [13] := rfl
      simp [dropReturn, dropReturnChar, hr]
    · have hlast : (encoded init ++ encoded [c]).getLast? ≠ some 13 := by
        intro h
        have hne : encoded [c] ≠ [] := by simp [encoded_eq_nil]
        rw [List.getLast?_append_of_ne_nil _ hne, he] at h
        exact hc (eq_of_mem_utf8EncodeChar (by decide) (by decide) (List.mem_of_getLast? h))
      have hchar : (init ++ [c]).getLast? ≠ some '\r' := by simpa using hc
      rw [dropReturn, if_neg hlast, dropReturnChar, if_neg hchar, encoded_append]

theorem decodeLine_encoded (cs : List Char) : decodeLine (encoded cs) = .ok (String.ofList cs) := by
  have hb : (⟨(encoded cs).toArray⟩ : ByteArray) = (String.ofList cs).toUTF8 := by
    apply ByteArray.ext
    rw [← Array.toList_inj, String.toUTF8_eq_toByteArray, String.toByteArray_ofList,
      List.utf8Encode, List.toList_data_toByteArray]
    rfl
  have hd : String.fromUTF8? (String.ofList cs).toUTF8 = some (String.ofList cs) :=
    dif_pos (String.ofList cs).isValidUTF8
  rw [decodeLine, hb, hd]

theorem bytes_ofString (s : String) : (Source.ofString s).bytes = encoded s.toList := by
  rw [Source.ofString, String.toUTF8_eq_toByteArray, ← String.utf8Encode_toList, List.utf8Encode,
    List.toList_data_toByteArray]
  rfl

theorem lines_ofString (s : String) :
    (Source.ofString s).lines = .ok ((textLines s.toList).map String.ofList) := by
  have hended : ((splitChars s.toList).1.map encoded).mapM (fun line => decodeLine (dropReturn line))
      = .ok (((splitChars s.toList).1.map dropReturnChar).map String.ofList) := by
    rw [Except.mapM_eq_ok, List.map_map, List.forall₂_map_left_iff, List.forall₂_map_right_iff,
      List.forall₂_same]
    intro line _
    rw [dropReturn_encoded, decodeLine_encoded]
    rfl
  rw [Source.lines, bytes_ofString, splitLines_encoded, textLines]
  simp only [hended]
  cases (splitChars s.toList).2 with
  | nil => simp [Source.ofString, encoded, Bind.bind, Except.bind, Pure.pure, Except.pure]
  | cons c cs =>
      have hne : encoded (c :: cs) ≠ [] := by simp [encoded_eq_nil]
      simp [Source.ofString, decodeLine_encoded, hne, Bind.bind, Except.bind, Pure.pure,
        Except.pure]

end ShaderDialects.Text
