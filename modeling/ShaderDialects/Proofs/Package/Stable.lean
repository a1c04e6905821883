import ShaderDialects.Proofs.Package.Comments
import ShaderDialects.Proofs.Package.Lexer

namespace ShaderDialects.Package

open Text (OneLine)

/-- No comment opens in the characters. -/
structure Unmarked (cs : List Char) : Prop where
  line : ¬ ['/', '/'] <:+: cs
  block : ¬ ['/', '*'] <:+: cs

section Markers

variable {c : Char} {cs : List Char}

theorem unmarked_nil : Unmarked [] := ⟨by simp, by simp⟩

theorem pair_infix_cons {x y : Char} :
    [x, y] <:+: c :: cs ↔ (c = x ∧ ∃ rest, cs = y :: rest) ∨ [x, y] <:+: cs := by
  rw [List.infix_cons_iff, List.cons_prefix_cons, List.cons_prefix_iff]
  simp [eq_comm]

theorem unmarked_cons : Unmarked (c :: cs) ↔
    (∀ rest, c = '/' → cs ≠ '/' :: rest) ∧ (∀ rest, c = '/' → cs ≠ '*' :: rest) ∧
      Unmarked cs := by
  constructor
  · rintro ⟨hline, hblock⟩
    rw [pair_infix_cons, not_or] at hline hblock
    exact ⟨fun rest hc hcs => hline.1 ⟨hc, rest, hcs⟩,
      fun rest hc hcs => hblock.1 ⟨hc, rest, hcs⟩, hline.2, hblock.2⟩
  · rintro ⟨hline, hblock, h⟩
    constructor
    · rw [pair_infix_cons, not_or]
      exact ⟨fun ⟨hc, rest, hcs⟩ => hline rest hc hcs, h.line⟩
    · rw [pair_infix_cons, not_or]
      exact ⟨fun ⟨hc, rest, hcs⟩ => hblock rest hc hcs, h.block⟩

theorem scanLine_of_unmarked (h : Unmarked cs) : scanLine false cs = (cs, false) := by
  induction cs with
  | nil => rfl
  | cons c cs ih =>
      obtain ⟨hline, hblock, h⟩ := unmarked_cons.mp h
      rw [scanLine_code hline hblock, ih h]

theorem scanLine_ne_cons {d : Char} (hslash : ∀ rest, cs ≠ '/' :: rest)
    (hd : ∀ rest, cs ≠ d :: rest) (rest : List Char) : (scanLine false cs).1 ≠ d :: rest := by
  cases cs with
  | nil => exact List.cons_ne_nil d rest |>.symm
  | cons e cs =>
      have he : e ≠ '/' := fun he => hslash cs (he ▸ rfl)
      rw [scanLine_code (fun _ h => absurd h he) (fun _ h => absurd h he)]
      intro heq
      exact hd cs ((List.cons.inj heq).1 ▸ rfl)

theorem unmarked_scanLine (inside : Bool) (line : List Char) :
    Unmarked (scanLine inside line).1 := by
  fun_induction scanLine inside line with
  | case1 cs code inside h ih =>
      rw [h] at ih
      exact unmarked_cons.mpr ⟨fun _ h => absurd h (by decide), fun _ h => absurd h (by decide), ih⟩
  | case2 c cs hclose ih => exact ih
  | case3 => exact unmarked_nil
  | case4 cs => exact unmarked_nil
  | case5 cs ih => exact ih
  | case6 c cs hline hblock code inside h ih =>
      -- no comment starts right after a slash that is kept, so what follows the slash stays there
      have hleft (d : Char) (hd : ∀ rest, c = '/' → cs ≠ d :: rest) (rest : List Char)
          (hc : c = '/') : (scanLine false cs).1 ≠ d :: rest :=
        scanLine_ne_cons (fun more => hline more hc) (fun more => hd more hc) rest
      rw [h] at ih hleft
      exact unmarked_cons.mpr ⟨hleft '/' hline, hleft '*' hblock, ih⟩
  | case7 => exact unmarked_nil

/-- Two characters that are no blanks meet in a line only if they met before. -/
theorem unmarked_collapse (h : Unmarked cs) : Unmarked (collapse cs) := by
  have hpair {x y : Char} (hx : x ≠ ' ') (hy : y ≠ ' ') (hxy : [x, y] <:+: collapse cs) :
      [x, y] <:+: cs := by
    rw [collapse_eq_unwords] at hxy
    obtain ⟨w, hw, hxy⟩ := Text.exists_infix_of_pair_infix_unwords hx hy hxy
    exact hxy.trans (Text.infix_of_mem_words hw)
  exact ⟨fun hm => h.line (hpair (by decide) (by decide) hm),
    fun hm => h.block (hpair (by decide) (by decide) hm)⟩

theorem collapse_collapse (line : List Char) : collapse (collapse line) = collapse line := by
  rw [collapse_eq_unwords, collapse_eq_unwords,
    Text.words_unwords fun w hw => Text.isWord_of_mem_words hw]

end Markers

/-- A line that a normal text can have. -/
structure NormalLine (l : String) : Prop where
  nonempty : l ≠ ""
  spaced : Spaced l.toList
  unmarked : Unmarked l.toList
  collapsed : collapse l.toList = l.toList

namespace NormalLine

variable {l : String}

theorem not_mem (h : NormalLine l) {c : Char} (hb : Text.isBlank c = true) (hc : c ≠ ' ') :
    c ∉ l.toList :=
  fun hmem => hc (h.spaced c hmem hb)

theorem oneLine (h : NormalLine l) : OneLine l := h.not_mem (by decide) (by decide)

theorem dropReturnChar (h : NormalLine l) : Text.dropReturnChar l.toList = l.toList :=
  Text.dropReturnChar_of_not_mem (h.not_mem (by decide) (by decide))

theorem settled (h : NormalLine l) : Settled l := by
  refine ⟨h.oneLine, ?_⟩
  rw [h.dropReturnChar, scanLine_of_unmarked h.unmarked]

theorem lineCode (h : NormalLine l) : lineCode (Text.dropReturnChar l.toList) = l.toList := by
  rw [h.dropReturnChar, Package.lineCode, scanLine_of_unmarked h.unmarked, h.collapsed]

end NormalLine

theorem mem_stripLines {inside : Bool} {lines : List (List Char)} {code : List Char}
    (h : code ∈ stripLines inside lines) :
    ∃ inside line, code = (scanLine inside line).1 := by
  induction lines generalizing inside with
  | nil => cases h
  | cons line lines ih =>
      rcases List.mem_cons.mp h with rfl | h
      · exact ⟨inside, line, rfl⟩
      · exact ih h

theorem normalLine_of_normalize {source : Text.Source} {lines : List String}
    (h : normalize source = .ok lines) : ∀ l ∈ lines, NormalLine l := by
  intro l hl
  obtain ⟨raw, hl⟩ := exists_mem_normalLines h hl
  have hspaced := spaced_of_mem_normalLines hl
  rw [normalLines_eq] at hl
  obtain ⟨hl, hne⟩ := List.mem_filter.mp hl
  obtain ⟨code, hcode, heq⟩ := List.mem_map.mp hl
  obtain ⟨inside, line, rfl⟩ := mem_stripLines hcode
  refine ⟨?_, hspaced, ?_, ?_⟩
  · rintro rfl
    simp at hne
  · rw [← heq]
    exact unmarked_collapse (unmarked_scanLine inside line)
  · rw [← heq, collapse_collapse]

theorem normalText_of_normalLine {ls : List String} (h : ∀ l ∈ ls, NormalLine l) :
    normalText (joinLines ls) = ls := by
  have hcode : codeOf ls = ls.map String.toList := by
    have hmap : ls.map (fun l => lineCode (Text.dropReturnChar l.toList)) = ls.map String.toList :=
      List.map_congr_left fun l hl => (h l hl).lineCode
    rw [codeOf, hmap, List.filter_eq_self]
    intro cs hcs
    obtain ⟨l, hl, rfl⟩ := List.mem_map.mp hcs
    simpa using (h l hl).nonempty
  rw [normalText_joinLines fun l hl => (h l hl).settled, hcode, List.map_map]
  simp

namespace Compacted

variable {H : Type} [DecidableEq H] {hash : ByteArray → H} {c : Compacted H}

/-- Every text is kept under its own hash, and all of its lines are normal. -/
def Kept (hash : ByteArray → H) (c : Compacted H) : Prop :=
  ∀ blob ∈ c.blobs, blob.1 = address hash blob.2 ∧ ∀ l ∈ blob.2, NormalLine l

theorem Kept.insert (h : Kept hash c) (v : Version) {lines : List String}
    (hl : ∀ l ∈ lines, NormalLine l) : Kept hash (c.insert hash v lines) := by
  intro blob hblob
  rw [Compacted.insert] at hblob
  split at hblob
  · exact h blob hblob
  · rcases List.mem_append.mp hblob with hblob | hblob
    · exact h blob hblob
    · obtain rfl := List.mem_singleton.mp hblob
      exact ⟨rfl, hl⟩

theorem Kept.insertAll {sources : List (Version × Text.Source)} {c' : Compacted H}
    (h : Kept hash c) (hc : insertAll hash c sources = .ok c') : Kept hash c' := by
  induction sources generalizing c with
  | nil =>
      cases hc
      exact h
  | cons s sources ih =>
      obtain ⟨lines, hlines, hc⟩ := Except.bind_eq_ok.mp hc
      exact ih (h.insert s.1 (normalLine_of_normalize hlines)) hc

theorem kept_of_ofSources {sources : List (Version × Text.Source)}
    (h : ofSources hash sources = .ok c) : Kept hash c := by
  obtain ⟨c', hc', h⟩ := Except.bind_eq_ok.mp h
  have hempty : Kept hash ({} : Compacted H) := List.forall_mem_nil _
  have hkept : Kept hash c' := hempty.insertAll (Except.mapError_eq_ok.mp hc')
  split at h
  · cases h
    exact hkept
  · cases h

theorem Kept.of_lines? (h : Kept hash c) {v : Version} {lines : List String}
    (hl : c.lines? v = some lines) :
    c.versions.lookup v = some (address hash lines) ∧
      c.blobs.lookup (address hash lines) = some lines ∧ ∀ l ∈ lines, NormalLine l := by
  obtain ⟨key, hv, hb⟩ := Option.bind_eq_some_iff.mp hl
  obtain ⟨pre, post, hblobs, -⟩ := List.lookup_eq_some_iff.mp hb
  obtain ⟨hkey, hnormal⟩ := h (key, lines) (by simp [hblobs])
  obtain rfl : key = address hash lines := hkey
  exact ⟨hv, hb, hnormal⟩

theorem Kept.of_text? (h : Kept hash c) {v : Version} {text : String}
    (ht : c.text? v = some text) : c.lines? v = some (normalText text) := by
  obtain ⟨lines, hl, rfl⟩ := Option.map_eq_some_iff.mp ht
  rw [normalText_of_normalLine (h.of_lines? hl).2.2, hl]

theorem exists_recompacted (h : Kept hash c) {texts : List (Version × String)}
    (hn : (texts.map Prod.fst).Nodup) (ht : ∀ t ∈ texts, c.text? t.1 = some t.2) :
    ∃ c', ofSources hash (texts.map fun t => (t.1, .ofString t.2)) = .ok c' ∧
      ∀ t ∈ texts, c'.lines? t.1 = c.lines? t.1 ∧
        c'.versions.lookup t.1 = c.versions.lookup t.1 := by
  have hlines (t : Version × String) (hmem : t ∈ texts) :
      c.lines? t.1 = some (normalText t.2) := h.of_text? (ht t hmem)
  -- two texts with one hash have been compacted to one, so the hash tells the texts apart
  have hinj : Set.InjOn (address hash)
      {ls | ls ∈ (texts.map fun t => (t.1, normalText t.2)).map Prod.snd} := by
    have hkept (ls : List String)
        (hls : ls ∈ (texts.map fun t => (t.1, normalText t.2)).map Prod.snd) :
        c.blobs.lookup (address hash ls) = some ls := by
      rw [List.map_map] at hls
      obtain ⟨t, hmem, rfl⟩ := List.mem_map.mp hls
      exact (h.of_lines? (hlines t hmem)).2.1
    intro ls hls ms hms heq
    have hfound := hkept ls hls
    rw [heq, hkept ms hms] at hfound
    exact (Option.some.inj hfound).symm
  have hversions : ((texts.map fun t => (t.1, normalText t.2)).map Prod.fst).Nodup := by
    rwa [List.map_map]
  obtain ⟨c', hc', hholds⟩ := exists_ofSources (forall₂_normalizes texts) hinj hversions
  refine ⟨c', hc', fun t hmem => ?_⟩
  have hlines' : c'.lines? t.1 = some (normalText t.2) :=
    hholds.lines (t.1, normalText t.2) (List.mem_map_of_mem hmem)
  rw [hlines', hlines t hmem, ((kept_of_ofSources hc').of_lines? hlines').1,
    (h.of_lines? (hlines t hmem)).1]
  exact ⟨rfl, rfl⟩

end Compacted

open Compacted (ofSources)

/-- Normal lines are not empty, and no line ends and no comment opens in them; their text has the
same normal lines again. So the texts of compacted sources are compacted to the lines and hashes
that they have, whatever the hash function. -/
theorem normalize_stable {H : Type} [DecidableEq H] (hash : ByteArray → H) :
    (∀ source lines, normalize source = .ok lines →
      (∀ l ∈ lines, l ≠ "" ∧ '\n' ∉ l.toList ∧ ¬ ['/', '/'] <:+: l.toList ∧
        ¬ ['/', '*'] <:+: l.toList) ∧
      normalize (.ofString (joinLines lines)) = .ok lines) ∧
    ∀ sources c, ofSources hash sources = .ok c → ∀ texts : List (Version × String),
      (texts.map Prod.fst).Nodup → (∀ t ∈ texts, c.text? t.1 = some t.2) →
      ∃ c', ofSources hash (texts.map fun t => (t.1, .ofString t.2)) = .ok c' ∧
        ∀ t ∈ texts, c'.lines? t.1 = c.lines? t.1 ∧
          c'.versions.lookup t.1 = c.versions.lookup t.1 := by
  refine ⟨fun source lines h => ?_, fun sources c h texts hn ht => ?_⟩
  · have hnormal := normalLine_of_normalize h
    refine ⟨fun l hl => ?_, ?_⟩
    · have hl := hnormal l hl
      exact ⟨hl.nonempty, hl.oneLine, hl.unmarked.line, hl.unmarked.block⟩
    · rw [normalize_ofString, normalText_of_normalLine hnormal]
  · exact Compacted.exists_recompacted (Compacted.kept_of_ofSources h) hn ht

/-- Slashes and stars that comments, blanks and line ends hold apart stay apart. -/
theorem normalize_stable_apart :
    normalize (.ofString "a/ /**// b /*\n x */ /\n*c //") = .ok ["a/ / b", "/", "*c"] ∧
    normalize (.ofString (joinLines ["a/ / b", "/", "*c"])) = .ok ["a/ / b", "/", "*c"] ∧
    ∃ c, ofSources ByteArray.data
        [(.full .v330, .ofString "a/ /**// b /*\n x */ /\n*c //"),
          (.embedded .v300, .ofString "y; //")] = .ok c ∧
      c.text? (.full .v330) = some "a/ / b\n/\n*c\n" ∧
      ∃ c', ofSources ByteArray.data [(.full .v330, .ofString "a/ / b\n/\n*c\n")] = .ok c' ∧
        c'.lines? (.full .v330) = c.lines? (.full .v330) ∧
        c'.versions.lookup (.full .v330) = c.versions.lookup (.full .v330) := by
  have hlines : normalText "a/ /**// b /*\n x */ /\n*c //" = ["a/ / b", "/", "*c"] := by
    decide +kernel
  have hnormal : normalize (.ofString "a/ /**// b /*\n x */ /\n*c //") =
      .ok ["a/ / b", "/", "*c"] := by
    rw [normalize_ofString, hlines]
  refine ⟨hnormal, ((normalize_stable ByteArray.data).1 _ _ hnormal).2, ?_⟩
  have hread := forall₂_normalizes [(.full .v330, "a/ /**// b /*\n x */ /\n*c //"),
    (.embedded .v300, "y; //")]
  have hinj := (address_injOn (fun _ _ => ByteArray.ext)).mono
    (feed_not_mem_of_normalizes hread)
  obtain ⟨c, hc, h⟩ := Compacted.exists_ofSources hread hinj (by decide)
  have htext : c.text? (.full .v330) = some "a/ / b\n/\n*c\n" := by
    rw [Compacted.text?, h.lines (.full .v330, _) (List.mem_cons_self ..), hlines]
    decide
  obtain ⟨c', hc', hsame⟩ := (normalize_stable ByteArray.data).2 _ c hc
    [(.full .v330, "a/ / b\n/\n*c\n")] (by decide) (by simpa using htext)
  exact ⟨c, hc, htext, c', hc', hsame _ (List.mem_singleton_self _)⟩

end ShaderDialects.Package
