import Mathlib.Data.List.Induction
import Mathlib.Data.List.Nodup
import Mathlib.Data.List.Perm.Subperm
import Mathlib.Data.Set.Function
import ShaderDialects.Package.Compacted
import ShaderDialects.Proofs.Package.Normal

namespace ShaderDialects.Package

section Distinct

variable {α : Type} [BEq α] [LawfulBEq α] {as : List α}

theorem eraseDups_concat (as : List α) (a : α) :
    (as ++ [a]).eraseDups = if a ∈ as then as.eraseDups else as.eraseDups ++ [a] := by
  rw [List.eraseDups_append]
  by_cases h : a ∈ as <;> simp [List.removeAll, List.eraseDups_cons, h]

theorem nodup_eraseDups (as : List α) : as.eraseDups.Nodup := by
  induction as using List.reverseRecOn with
  | nil => exact List.nodup_nil
  | append_singleton as a ih =>
      rw [eraseDups_concat]
      by_cases h : a ∈ as
      · rwa [if_pos h]
      · rw [if_neg h, List.nodup_append]
        refine ⟨ih, List.nodup_singleton a, ?_⟩
        rintro b hb _ hc rfl
        rw [List.mem_singleton.mp hc] at hb
        exact h (List.mem_eraseDups.mp hb)

theorem eraseDups_of_nodup (h : as.Nodup) : as.eraseDups = as := by
  induction as using List.reverseRecOn with
  | nil => rfl
  | append_singleton as a ih =>
      rw [List.nodup_append] at h
      have ha : a ∉ as := fun ha => h.2.2 a ha a (List.mem_singleton_self a) rfl
      rw [eraseDups_concat, if_neg ha, ih h.1]

theorem length_eraseDups_eq_iff : as.eraseDups.length = as.length ↔ as.Nodup := by
  constructor
  · intro h
    have hnodup := nodup_eraseDups as
    have hsub : as.eraseDups.Subperm as := hnodup.subperm fun a ha => List.mem_eraseDups.mp ha
    exact (hsub.perm_of_length_le h.ge).nodup_iff.mp hnodup
  · intro h
    rw [eraseDups_of_nodup h]

end Distinct

section Entries

variable {α β : Type} [DecidableEq α]

theorem lookup_cons_ite {j : α} {e : α × β} {es : List (α × β)} :
    (e :: es).lookup j = if j = e.1 then some e.2 else es.lookup j := by
  rw [List.lookup_cons]
  by_cases h : j = e.1
  · simp [h]
  · rw [if_neg h, beq_false_of_ne h]

theorem lookup_map_key [BEq β] [LawfulBEq β] {key : β → α} {b : β} {bs : List β}
    (h : ∀ b' ∈ bs, key b' = key b → b' = b) :
    (bs.map fun b' => (key b', b')).lookup (key b) = if b ∈ bs then some b else none := by
  induction bs with
  | nil => rfl
  | cons b' bs ih =>
      rw [List.forall_mem_cons] at h
      rw [List.map_cons, lookup_cons_ite, ih h.2]
      by_cases hb : b' = b
      · simp [hb]
      · have hk : key b ≠ key b' := fun hk => hb (h.1 hk.symm)
        simp [hk, Ne.symm hb]

theorem lookup_setEntry {k j : α} {b : β} {es : List (α × β)} :
    (setEntry k b es).lookup j = if j = k then some b else es.lookup j := by
  induction es with
  | nil => rw [setEntry, lookup_cons_ite]
  | cons e es ih =>
      rw [setEntry, lookup_cons_ite]
      by_cases hk : e.1 = k
      · rw [if_pos hk, lookup_cons_ite, hk]
        by_cases hj : j = k <;> simp [hj]
      · rw [if_neg hk, lookup_cons_ite, ih]
        by_cases hj : j = e.1
        · simp [hj, hk]
        · simp [hj]

theorem lookup_eq_some_of_nodup {es : List (α × β)} {e : α × β} (h : (es.map Prod.fst).Nodup)
    (he : e ∈ es) : es.lookup e.1 = some e.2 := by
  induction es with
  | nil => cases he
  | cons e' es ih =>
      rw [List.map_cons, List.nodup_cons] at h
      rw [lookup_cons_ite]
      rcases List.mem_cons.mp he with rfl | he
      · rw [if_pos rfl]
      · have hne : e.1 ≠ e'.1 := fun hk => h.1 (hk ▸ List.mem_map_of_mem he)
        rw [if_neg hne, ih h.2 he]

theorem keys_setEntry {k : α} {b : β} {es : List (α × β)} :
    (setEntry k b es).map Prod.fst =
      if k ∈ es.map Prod.fst then es.map Prod.fst else es.map Prod.fst ++ [k] := by
  induction es with
  | nil => rfl
  | cons e es ih =>
      rw [setEntry]
      by_cases hk : e.1 = k
      · simp [hk]
      · rw [if_neg hk, List.map_cons, ih, List.map_cons]
        by_cases hm : k ∈ es.map Prod.fst
        · rw [if_pos hm, if_pos (List.mem_cons_of_mem _ hm)]
        · have hm' : k ∉ e.1 :: es.map Prod.fst := by
            rw [List.mem_cons, not_or]
            exact ⟨Ne.symm hk, hm⟩
          rw [if_neg hm, if_neg hm', List.cons_append]

end Entries

theorem toList_joinLines (lines : List String) :
    (joinLines lines).toList = lines.flatMap fun l => l.toList ++ ['\n'] := by
  induction lines with
  | nil => rfl
  | cons l lines ih => simpa [joinLines] using ih

theorem joinLines_injective {ls ms : List String} (hl : ∀ l ∈ ls, '\n' ∉ l.toList)
    (hm : ∀ m ∈ ms, '\n' ∉ m.toList) (h : joinLines ls = joinLines ms) : ls = ms := by
  rw [← String.toList_inj, toList_joinLines, toList_joinLines] at h
  induction ls generalizing ms with
  | nil => cases ms <;> simp_all
  | cons l ls ih =>
      cases ms with
      | nil => simp at h
      | cons m ms =>
          rw [List.forall_mem_cons] at hl hm
          simp only [List.flatMap_cons, List.append_assoc, List.singleton_append] at h
          obtain ⟨hlm, hrest⟩ := List.append_sep_inj hl.1 hm.1 h
          rw [String.toList_inj.mp hlm, ih hl.2 hm.2 hrest]

variable {H : Type} {hash : ByteArray → H}

def address (hash : ByteArray → H) (lines : List String) : H := hash (joinLines lines).toUTF8

theorem address_injOn (hhash : hash.Injective) :
    Set.InjOn (address hash) {ls | ∀ l ∈ ls, '\n' ∉ l.toList} := by
  intro ls hl ms hm h
  exact joinLines_injective hl hm (String.toByteArray_inj.mp (hhash h))

def Normalizes (s : Version × Text.Source) (cell : Version × List String) : Prop :=
  s.1 = cell.1 ∧ normalize s.2 = .ok cell.2

theorem versions_eq_of_normalizes {sources : List (Version × Text.Source)}
    {cells : List (Version × List String)} (h : List.Forall₂ Normalizes sources cells) :
    sources.map Prod.fst = cells.map Prod.fst := by
  induction h with
  | nil => rfl
  | cons hs _ ih => rw [List.map_cons, List.map_cons, hs.1, ih]

theorem feed_not_mem_of_normalizes {sources : List (Version × Text.Source)}
    {cells : List (Version × List String)} (h : List.Forall₂ Normalizes sources cells) :
    ∀ ls ∈ cells.map Prod.snd, ∀ l ∈ ls, '\n' ∉ l.toList := by
  intro ls hls l hl
  obtain ⟨cell, hcell, rfl⟩ := List.mem_map.mp hls
  obtain ⟨k, hk⟩ := List.mem_iff_getElem?.mp hcell
  obtain ⟨s, -, -, hs⟩ := h.getElem?_left hk
  exact feed_not_mem_of_normalize hs hl

theorem forall₂_normalizes (texts : List (Version × String)) :
    List.Forall₂ Normalizes (texts.map fun t => (t.1, .ofString t.2))
      (texts.map fun t => (t.1, normalText t.2)) := by
  rw [List.forall₂_map_left_iff, List.forall₂_map_right_iff, List.forall₂_same]
  exact fun t _ => ⟨rfl, normalize_ofString t.2⟩

namespace Compacted

/-- What has been inserted so far: each text once, under its hash, and each version once, with the
hash of the last text given for it. -/
structure Tracks (hash : ByteArray → H) (cells : List (Version × List String))
    (c : Compacted H) : Prop where
  blobs : c.blobs = (cells.map Prod.snd).eraseDups.map fun ls => (address hash ls, ls)
  keys : c.versions.map Prod.fst = (cells.map Prod.fst).eraseDups
  last : ∀ v, c.versions.lookup v = (cells.reverse.lookup v).map (address hash)

variable {cells : List (Version × List String)} {c : Compacted H}

theorem tracks_nil : Tracks hash [] ({} : Compacted H) := ⟨rfl, rfl, fun _ => rfl⟩

variable [DecidableEq H]

theorem Tracks.lookup_blobs (h : Tracks hash cells c) {lines : List String}
    (hinj : ∀ ls ∈ cells.map Prod.snd, address hash ls = address hash lines → ls = lines) :
    c.blobs.lookup (address hash lines) =
      if lines ∈ cells.map Prod.snd then some lines else none := by
  rw [h.blobs, lookup_map_key fun ls hls => hinj ls (List.mem_eraseDups.mp hls)]
  simp only [List.mem_eraseDups]

theorem Tracks.insert (h : Tracks hash cells c) (v : Version) (lines : List String)
    (hinj : ∀ ls ∈ cells.map Prod.snd, address hash ls = address hash lines → ls = lines) :
    Tracks hash (cells ++ [(v, lines)]) (c.insert hash v lines) := by
  refine ⟨?_, ?_, fun w => ?_⟩
  · have hblobs : (c.insert hash v lines).blobs =
        if (c.blobs.lookup (address hash lines)).isSome then c.blobs
        else c.blobs ++ [(address hash lines, lines)] := rfl
    rw [hblobs, h.lookup_blobs hinj, List.map_append, List.map_cons, List.map_nil,
      eraseDups_concat]
    by_cases hmem : lines ∈ cells.map Prod.snd
    · rw [if_pos hmem, if_pos hmem, Option.isSome_some, if_pos rfl, h.blobs]
    · rw [if_neg hmem, if_neg hmem, List.map_append, ← h.blobs]
      rfl
  · have hkeys : (c.insert hash v lines).versions =
        setEntry v (address hash lines) c.versions := rfl
    rw [hkeys, keys_setEntry, h.keys, List.map_append, List.map_singleton, eraseDups_concat]
    simp only [List.mem_eraseDups]
  · have hkeys : (c.insert hash v lines).versions =
        setEntry v (address hash lines) c.versions := rfl
    rw [hkeys, lookup_setEntry, h.last, List.reverse_concat, lookup_cons_ite]
    by_cases hw : w = v <;> simp [hw]

theorem Tracks.insertAll {sources : List (Version × Text.Source)}
    {more : List (Version × List String)} (h : Tracks hash cells c)
    (hread : List.Forall₂ Normalizes sources more)
    (hinj : Set.InjOn (address hash) {ls | ls ∈ (cells ++ more).map Prod.snd}) :
    ∃ c', insertAll hash c sources = .ok c' ∧ Tracks hash (cells ++ more) c' := by
  induction hread generalizing cells c with
  | nil => exact ⟨c, rfl, by rwa [List.append_nil]⟩
  | @cons s cell sources more hs _ ih =>
      obtain ⟨v, source⟩ := s
      obtain ⟨_, lines⟩ := cell
      obtain ⟨rfl, hlines⟩ := hs
      rw [List.append_cons] at hinj ⊢
      have hstep := h.insert v lines fun ls hls => by
        refine hinj ?_ ?_
        · simp only [List.map_append]
          exact List.mem_append_left _ (List.mem_append_left _ hls)
        · simp
      obtain ⟨c', hc', htracks⟩ := ih hstep hinj
      exact ⟨c', Except.bind_eq_ok.mpr ⟨lines, hlines, hc'⟩, htracks⟩

theorem insertAll_eq_error {pre post : List (Version × Text.Source)} {s : Version × Text.Source}
    {e : Text.ReadError} (hpre : ∀ r ∈ pre, ∃ lines, normalize r.2 = .ok lines)
    (hs : normalize s.2 = .error e) : insertAll hash c (pre ++ s :: post) = .error e := by
  induction pre generalizing c with
  | nil =>
      rw [List.nil_append, Compacted.insertAll, hs]
      rfl
  | cons r pre ih =>
      obtain ⟨⟨lines, hlines⟩, hpre⟩ := List.forall_mem_cons.mp hpre
      rw [List.cons_append, Compacted.insertAll, hlines]
      exact ih hpre

/-- The compacted form of versions with their lines: nothing is lost, and versions share a text
exactly if their lines are equal. -/
structure Holds (hash : ByteArray → H) (cells : List (Version × List String))
    (c : Compacted H) : Prop where
  versions : c.versions.map Prod.fst = cells.map Prod.fst
  blobs : c.blobs = (cells.map Prod.snd).eraseDups.map fun ls => (address hash ls, ls)
  lines : ∀ cell ∈ cells, c.lines? cell.1 = some cell.2
  others : ∀ v ∉ cells.map Prod.fst, c.lines? v = none
  shared : ∀ a ∈ cells, ∀ b ∈ cells, c.versions.lookup a.1 = c.versions.lookup b.1 ↔ a.2 = b.2

theorem Tracks.holds (h : Tracks hash cells c) (hnodup : (cells.map Prod.fst).Nodup)
    (hinj : Set.InjOn (address hash) {ls | ls ∈ cells.map Prod.snd}) : Holds hash cells c := by
  have hlast (a : Version × List String) (ha : a ∈ cells) :
      c.versions.lookup a.1 = some (address hash a.2) := by
    have hrev : (cells.reverse.map Prod.fst).Nodup := by
      rwa [List.map_reverse, List.nodup_reverse]
    rw [h.last, lookup_eq_some_of_nodup hrev (List.mem_reverse.mpr ha), Option.map_some]
  refine ⟨?_, h.blobs, ?_, ?_, ?_⟩
  · rw [h.keys, eraseDups_of_nodup hnodup]
  · intro a ha
    have hmem : a.2 ∈ cells.map Prod.snd := List.mem_map_of_mem ha
    rw [lines?, hlast a ha, Option.bind_eq_bind, Option.bind_some,
      h.lookup_blobs fun ls hls => hinj hls hmem, if_pos hmem]
  · intro v hv
    have hnone : cells.reverse.lookup v = none := by
      rw [List.lookup_eq_none_iff]
      intro a ha
      have hmem : a.1 ∈ cells.map Prod.fst := List.mem_map_of_mem (List.mem_reverse.mp ha)
      exact bne_iff_ne.mpr fun hva => hv (hva ▸ hmem)
    rw [lines?, h.last, hnone]
    rfl
  · intro a ha b hb
    rw [hlast a ha, hlast b hb, Option.some_inj]
    exact ⟨fun he => hinj (List.mem_map_of_mem ha) (List.mem_map_of_mem hb) he,
      fun he => congrArg _ he⟩

theorem exists_insertAll {sources : List (Version × Text.Source)}
    (hread : List.Forall₂ Normalizes sources cells)
    (hinj : Set.InjOn (address hash) {ls | ls ∈ cells.map Prod.snd}) :
    ∃ c, insertAll hash {} sources = .ok c ∧ Tracks hash cells c :=
  tracks_nil.insertAll hread hinj

theorem exists_ofSources {sources : List (Version × Text.Source)}
    (hread : List.Forall₂ Normalizes sources cells)
    (hinj : Set.InjOn (address hash) {ls | ls ∈ cells.map Prod.snd})
    (hnodup : (cells.map Prod.fst).Nodup) :
    ∃ c, ofSources hash sources = .ok c ∧ Holds hash cells c := by
  obtain ⟨c, hc, htracks⟩ := exists_insertAll hread hinj
  have hholds := htracks.holds hnodup hinj
  have hlen : c.versions.length = sources.length := by
    rw [← List.length_map Prod.fst, hholds.versions, List.length_map, hread.length_eq]
  refine ⟨c, ?_, hholds⟩
  rw [ofSources, hc]
  exact if_pos hlen

/-- Sources with different versions are compacted, a repeated version is refused with the number of
sources and of versions, and so is the first source that cannot be read. -/
theorem ofSources_exact (hhash : hash.Injective) (sources : List (Version × Text.Source)) :
    (∀ cells, List.Forall₂ Normalizes sources cells →
      ((sources.map Prod.fst).Nodup →
        ∃ c, ofSources hash sources = .ok c ∧ Holds hash cells c) ∧
      (¬ (sources.map Prod.fst).Nodup →
        ofSources hash sources =
          .error (.repeatedVersion sources.length (sources.map Prod.fst).eraseDups.length))) ∧
    ∀ pre s post e, sources = pre ++ s :: post →
      (∀ r ∈ pre, ∃ lines, normalize r.2 = .ok lines) → normalize s.2 = .error e →
      ofSources hash sources = .error (.read e) := by
  refine ⟨fun cells hread => ?_, ?_⟩
  · have hversions := versions_eq_of_normalizes hread
    have hinj : Set.InjOn (address hash) {ls | ls ∈ cells.map Prod.snd} :=
      (address_injOn hhash).mono (feed_not_mem_of_normalizes hread)
    refine ⟨fun hnodup => exists_ofSources hread hinj (hversions ▸ hnodup), fun hrepeat => ?_⟩
    obtain ⟨c, hc, htracks⟩ := exists_insertAll hread hinj
    have hlen : c.versions.length = (sources.map Prod.fst).eraseDups.length := by
      rw [← List.length_map Prod.fst, htracks.keys, hversions]
    have hne : c.versions.length ≠ sources.length := by
      rw [hlen, ← List.length_map Prod.fst]
      exact fun h => hrepeat (length_eraseDups_eq_iff.mp h)
    rw [ofSources, hc, ← hlen]
    exact if_neg hne
  · rintro pre s post e rfl hpre hs
    rw [ofSources, insertAll_eq_error hpre hs]
    rfl

/-- The first and the last of three texts differ in layout alone and share their lines; a version
given twice is refused, and so is a source that is not text. -/
theorem ofSources_exact_shared :
    (ByteArray.data).Injective ∧
    (∃ c, ofSources ByteArray.data
        [(.full .v330, .ofString "void main() \x7b\n  x;\n\x7d\n"),
          (.embedded .v300, .ofString "y;"),
          (.full .v110, .ofString "void main()\t\x7b // first\r\n\nx; /* */\n\x7d")] = .ok c ∧
      c.lines? (.full .v110) = some ["void main() \x7b", "x;", "\x7d"] ∧
      c.lines? (.embedded .v300) = some ["y;"] ∧ c.lines? (.full .v120) = none ∧
      c.versions.lookup (.full .v110) = c.versions.lookup (.full .v330) ∧ c.unique = 2) ∧
    ofSources ByteArray.data [(.full .v330, .ofString "x;"), (.embedded .v300, .ofString "y;"),
      (.full .v330, .ofString "z;")] = .error (.repeatedVersion 3 2) ∧
    ofSources ByteArray.data [(.full .v330, .ofString "x;"), (.embedded .v300, { bytes := [255] }),
      (.full .v110, { bytes := [], failure := some "lost" })] = .error (.read .invalidUTF8) := by
  have hinj : (ByteArray.data).Injective := fun _ _ => ByteArray.ext
  refine ⟨hinj, ?_, ?_, ?_⟩
  · have hread := forall₂_normalizes [(.full .v330, "void main() \x7b\n  x;\n\x7d\n"),
      (.embedded .v300, "y;"), (.full .v110, "void main()\t\x7b // first\r\n\nx; /* */\n\x7d")]
    obtain ⟨c, hc, h⟩ := ((ofSources_exact hinj _).1 _ hread).1 (by decide)
    have hmain : normalText "void main() \x7b\n  x;\n\x7d\n" =
        ["void main() \x7b", "x;", "\x7d"] := by
      decide +kernel
    have hlast : normalText "void main()\t\x7b // first\r\n\nx; /* */\n\x7d" =
        ["void main() \x7b", "x;", "\x7d"] := by
      decide +kernel
    have hother : normalText "y;" = ["y;"] := by decide +kernel
    simp only [List.map_cons, List.map_nil, hmain, hlast, hother] at h
    refine ⟨c, hc, h.lines (_, _) (by simp), h.lines (_, _) (by simp),
      h.others (.full .v120) (by decide),
      (h.shared (_, _) (by simp) (_, ["void main() \x7b", "x;", "\x7d"]) (by simp)).mpr rfl, ?_⟩
    rw [unique, h.blobs]
    decide
  · have hread := forall₂_normalizes [(.full .v330, "x;"), (.embedded .v300, "y;"),
      (.full .v330, "z;")]
    exact ((ofSources_exact hinj _).1 _ hread).2 (by decide)
  · refine (ofSources_exact hinj _).2 [(.full .v330, .ofString "x;")] _ _ _ rfl ?_ rfl
    intro r hr
    obtain rfl := List.mem_singleton.mp hr
    exact ⟨_, normalize_ofString _⟩

end Compacted

end ShaderDialects.Package
