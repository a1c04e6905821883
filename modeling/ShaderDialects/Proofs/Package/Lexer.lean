import ShaderDialects.Proofs.Package.Normal

namespace ShaderDialects.Package

open Text (words unwords)

inductive Region where
  | code
  | lineComment
  | blockComment

/-- What is left of a text without its comments. A line comment ends before a line feed. A block
comment ends at the first `*/` after its `/*`; it leaves its line feeds, and a space for its end. -/
def scan : Region → List Char → List Char
  | _, [] => []
  | .code, '/' :: '/' :: cs => scan .lineComment cs
  | .code, '/' :: '*' :: cs => scan .blockComment cs
  | .code, c :: cs => c :: scan .code cs
  | .lineComment, '\n' :: cs => '\n' :: scan .code cs
  | .lineComment, _ :: cs => scan .lineComment cs
  | .blockComment, '*' :: '/' :: cs => ' ' :: scan .code cs
  | .blockComment, '\n' :: cs => '\n' :: scan .blockComment cs
  | .blockComment, _ :: cs => scan .blockComment cs

/-- The lines of the scanned text, each as its words with one space between them, without those in
which no word is left. -/
def scannedLines (text : List Char) : List (List Char) :=
  (((scan .code text).splitOn '\n').map fun line => unwords (words line)).filter
    fun line => !line.isEmpty

section Lines

variable {c : Char} {cs l : List Char} {ls : List (List Char)}

theorem splitOn_feed (cs : List Char) : ('\n' :: cs).splitOn '\n' = [] :: cs.splitOn '\n' := by
  rw [List.splitOn_cons_eq_if_modifyHead, if_pos (by decide)]

theorem splitOn_cons (hc : c ≠ '\n') (h : cs.splitOn '\n' = l :: ls) :
    (c :: cs).splitOn '\n' = (c :: l) :: ls := by
  rw [List.splitOn_cons_eq_if_modifyHead, if_neg (by simpa using hc), h, List.modifyHead_cons]

theorem exists_splitOn_eq_cons (cs : List Char) : ∃ l ls, cs.splitOn '\n' = l :: ls :=
  List.exists_cons_of_ne_nil (List.splitOn_ne_nil _ _)

theorem prefix_of_splitOn (h : cs.splitOn '\n' = l :: ls) : l <+: cs := by
  induction cs generalizing l ls with
  | nil =>
      rw [List.splitOn_nil] at h
      cases h
      exact List.nil_prefix
  | cons c cs ih =>
      by_cases hc : c = '\n'
      · rw [hc, splitOn_feed] at h
        cases h
        exact List.nil_prefix
      · obtain ⟨m, ms, hcs⟩ := exists_splitOn_eq_cons cs
        rw [splitOn_cons hc hcs] at h
        cases h
        exact List.cons_prefix_cons.mpr ⟨rfl, ih hcs⟩

theorem ne_cons_of_splitOn {d : Char} (h : cs.splitOn '\n' = l :: ls)
    (hd : ∀ rest, cs ≠ d :: rest) (rest : List Char) : l ≠ d :: rest := by
  rintro rfl
  obtain ⟨more, hmore⟩ := prefix_of_splitOn h
  exact hd (rest ++ more) hmore.symm

theorem splitOn_eq_splitChars (cs : List Char) :
    cs.splitOn '\n' = (Text.splitChars cs).1 ++ [(Text.splitChars cs).2] := by
  induction cs with
  | nil => rfl
  | cons c cs ih =>
      by_cases hc : c = '\n'
      · rw [hc, splitOn_feed, ih, Text.splitChars]
        rfl
      · rw [Text.splitChars]
        cases hsplit : Text.splitChars cs with
        | mk lines last =>
            rw [hsplit] at ih
            cases lines with
            | nil => simpa [hc] using splitOn_cons hc ih
            | cons line lines => simpa [hc] using splitOn_cons hc ih

end Lines

section Stripping

variable {c : Char} {cs : List Char}

theorem scanLine_code (h : ∀ rest, c = '/' → cs ≠ '/' :: rest)
    (h' : ∀ rest, c = '/' → cs ≠ '*' :: rest) :
    scanLine false (c :: cs) =
      (c :: (scanLine false cs).1, (scanLine false cs).2) := by
  rw [scanLine]
  · exact h
  · exact h'

theorem scanLine_block (h : ∀ rest, c = '*' → cs ≠ '/' :: rest) :
    scanLine true (c :: cs) = scanLine true cs := by
  rw [scanLine]
  exact h

def stripLines : Bool → List (List Char) → List (List Char)
  | _, [] => []
  | inside, line :: lines =>
      (scanLine inside line).1 :: stripLines (scanLine inside line).2 lines

theorem normalLines_eq (inside : Bool) (lines : List (List Char)) :
    normalLines inside lines =
      ((stripLines inside lines).map collapse).filter fun line => !line.isEmpty := by
  induction lines generalizing inside with
  | nil => rfl
  | cons line lines ih =>
      rw [stripLines, List.map_cons, List.filter_cons]
      rw [normalLines_cons, ih]
      cases (collapse (scanLine inside line).1).isEmpty <;> rfl

/-- The lines that are left of a text which the scanner enters in a region. In a line comment
nothing is left of the first line, and the others start outside of comments. -/
def Region.strip : Region → List (List Char) → List (List Char)
  | .code, lines => stripLines false lines
  | .lineComment, lines => [] :: stripLines false lines.tail
  | .blockComment, lines => stripLines true lines

theorem splitOn_scan (region : Region) (cs : List Char) :
    (scan region cs).splitOn '\n' = region.strip (cs.splitOn '\n') := by
  fun_induction scan region cs with
  | case1 region => cases region <;> rfl
  | case2 cs ih =>
      obtain ⟨l, ls, h⟩ := exists_splitOn_eq_cons cs
      rw [ih, splitOn_cons (by decide) (splitOn_cons (by decide) h), h]
      rfl
  | case3 cs ih =>
      obtain ⟨l, ls, h⟩ := exists_splitOn_eq_cons cs
      rw [ih, splitOn_cons (by decide) (splitOn_cons (by decide) h), h]
      rfl
  | case4 c cs hline hblock ih =>
      by_cases hc : c = '\n'
      · rw [hc, splitOn_feed, splitOn_feed, ih]
        rfl
      · obtain ⟨l, ls, h⟩ := exists_splitOn_eq_cons cs
        have hcode : scanLine false (c :: l) =
            (c :: (scanLine false l).1, (scanLine false l).2) :=
          scanLine_code
            (fun rest hc => ne_cons_of_splitOn h (fun more => hline more hc) rest)
            (fun rest hc => ne_cons_of_splitOn h (fun more => hblock more hc) rest)
        rw [h] at ih
        rw [splitOn_cons hc ih, splitOn_cons hc h, Region.strip, stripLines, hcode]
  | case5 cs ih =>
      rw [splitOn_feed, splitOn_feed, ih]
      rfl
  | case6 c cs hc ih =>
      obtain ⟨l, ls, h⟩ := exists_splitOn_eq_cons cs
      rw [ih, splitOn_cons hc h, h]
      rfl
  | case7 cs ih =>
      obtain ⟨l, ls, h⟩ := exists_splitOn_eq_cons cs
      rw [h] at ih
      rw [splitOn_cons (by decide) ih, splitOn_cons (by decide) (splitOn_cons (by decide) h)]
      rfl
  | case8 cs ih =>
      rw [splitOn_feed, splitOn_feed, ih]
      rfl
  | case9 c cs hclose hc ih =>
      obtain ⟨l, ls, h⟩ := exists_splitOn_eq_cons cs
      have hblock : scanLine true (c :: l) = scanLine true l :=
        scanLine_block fun rest hc => ne_cons_of_splitOn h (fun more => hclose more hc) rest
      rw [ih, splitOn_cons hc h, h]
      simp only [Region.strip, stripLines, hblock]

end Stripping

section Returns

theorem append_return_ne_cons {d : Char} {cs : List Char} (hd : d ≠ '\r')
    (h : ∀ rest, cs ≠ d :: rest) (rest : List Char) : cs ++ ['\r'] ≠ d :: rest := by
  cases cs with
  | nil => exact fun heq => hd (List.cons.inj heq).1.symm
  | cons e cs =>
      rintro ⟨⟩
      exact h cs rfl

theorem scanLine_return (inside : Bool) (line : List Char) :
    ∃ blanks, (blanks = [] ∨ blanks = ['\r']) ∧ scanLine inside (line ++ ['\r']) =
      ((scanLine inside line).1 ++ blanks, (scanLine inside line).2) := by
  fun_induction scanLine inside line with
  | case1 cs code inside h ih =>
      obtain ⟨blanks, hblanks, ih⟩ := ih
      refine ⟨blanks, hblanks, ?_⟩
      rw [List.cons_append, List.cons_append, scanLine, ih, h]
      rfl
  | case2 c cs hclose ih =>
      obtain ⟨blanks, hblanks, ih⟩ := ih
      refine ⟨blanks, hblanks, ?_⟩
      rw [List.cons_append, scanLine_block, ih]
      exact fun rest hc => append_return_ne_cons (by decide) (fun more => hclose more hc) rest
  | case3 => exact ⟨[], .inl rfl, rfl⟩
  | case4 cs => exact ⟨[], .inl rfl, rfl⟩
  | case5 cs ih =>
      obtain ⟨blanks, hblanks, ih⟩ := ih
      refine ⟨blanks, hblanks, ?_⟩
      rw [List.cons_append, List.cons_append, scanLine, ih]
  | case6 c cs hline hblock code inside h ih =>
      obtain ⟨blanks, hblanks, ih⟩ := ih
      refine ⟨blanks, hblanks, ?_⟩
      rw [List.cons_append, scanLine_code, ih, h]
      · rfl
      · exact fun rest hc => append_return_ne_cons (by decide) (fun more => hline more hc) rest
      · exact fun rest hc => append_return_ne_cons (by decide) (fun more => hblock more hc) rest
  | case7 => exact ⟨['\r'], .inr rfl, rfl⟩

theorem collapse_append_return (line : List Char) : collapse (line ++ ['\r']) = collapse line := by
  have hfold : (line ++ ['\r']).foldr pushSpaced [] = line.foldr pushSpaced [] :=
    List.foldr_append
  rw [collapse, hfold, ← collapse]

theorem normalLines_cons_return (inside : Bool) (line : List Char) (lines : List (List Char)) :
    normalLines inside ((line ++ ['\r']) :: lines) = normalLines inside (line :: lines) := by
  obtain ⟨blanks, hblanks, h⟩ := scanLine_return inside line
  have hcode : collapse ((scanLine inside line).1 ++ blanks) =
      collapse (scanLine inside line).1 := by
    rcases hblanks with rfl | rfl
    · rw [List.append_nil]
    · exact collapse_append_return _
  rw [normalLines_cons, normalLines_cons, h, hcode]

theorem normalLines_map_dropReturnChar (inside : Bool) (lines rest : List (List Char)) :
    normalLines inside (lines.map Text.dropReturnChar ++ rest) =
      normalLines inside (lines ++ rest) := by
  induction lines generalizing inside with
  | nil => rfl
  | cons line lines ih =>
      have hdrop (rest : List (List Char)) : normalLines inside (Text.dropReturnChar line :: rest) =
          normalLines inside (line :: rest) := by
        rw [Text.dropReturnChar]
        split
        next hlast =>
          obtain ⟨init, rfl⟩ := List.getLast?_eq_some_iff.mp hlast
          rw [List.dropLast_concat, normalLines_cons_return]
        next => rfl
      rw [List.map_cons, List.cons_append, hdrop]
      simp only [List.cons_append, normalLines, ih]

theorem normalLines_concat_nil (inside : Bool) (lines : List (List Char)) :
    normalLines inside (lines ++ [[]]) = normalLines inside lines := by
  induction lines generalizing inside with
  | nil => cases inside <;> simp [normalLines_cons, scanLine, collapse]
  | cons line lines ih => simp only [List.cons_append, normalLines, ih]

theorem normalLines_textLines (inside : Bool) (cs : List Char) :
    normalLines inside (Text.textLines cs) = normalLines inside (cs.splitOn '\n') := by
  rw [splitOn_eq_splitChars, Text.textLines, normalLines_map_dropReturnChar]
  cases (Text.splitChars cs).2 with
  | nil => rw [List.isEmpty_nil, if_pos rfl, List.append_nil, normalLines_concat_nil]
  | cons c last => rfl

end Returns

/-- The normal lines of a text are those that one scan of it leaves. -/
theorem normalize_ofString_eq_scannedLines (text : String) :
    normalize (.ofString text) = .ok ((scannedLines text.toList).map String.ofList) := by
  have hlines : normalLines false (Text.textLines text.toList) = scannedLines text.toList := by
    have hcollapse : collapse = fun line => unwords (words line) := funext collapse_eq_unwords
    rw [normalLines_textLines, normalLines_eq, scannedLines, splitOn_scan, hcollapse]
    rfl
  rw [normalize_ofString, normalText, hlines]

/-- Markers that overlap: the second slash of `//` opens no block comment, a block comment is not
closed by its own star, and a star before a line feed closes nothing. -/
example : scannedLines "a//*b\nc/*/d*//e/**/f /*g*\n/\th*/ */".toList =
    ["a".toList, "c /e f".toList, "*/".toList] := by
  decide +kernel

end ShaderDialects.Package
