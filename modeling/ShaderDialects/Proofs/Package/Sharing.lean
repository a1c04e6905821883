import ShaderDialects.Builtin.Standard
import ShaderDialects.Dialect.Text
import ShaderDialects.Proofs.Lowering.Observation
import ShaderDialects.Proofs.Package.Compacted

namespace ShaderDialects.Package

section Entries

variable {α β : Type} [DecidableEq α] {k : α} {b : β} {es : List (α × β)}

theorem setEntry_of_not_mem (h : k ∉ es.map Prod.fst) : setEntry k b es = es ++ [(k, b)] := by
  induction es with
  | nil => rfl
  | cons e es ih =>
      rw [List.map_cons, List.mem_cons, not_or] at h
      rw [setEntry, if_neg (Ne.symm h.1), ih h.2, List.cons_append]

theorem lookup_isSome_iff_mem_keys : (es.lookup k).isSome = true ↔ k ∈ es.map Prod.fst := by
  rw [List.lookup_isSome_iff, List.mem_map]
  simp only [beq_iff_eq, eq_comm (a := k)]

end Entries

namespace Compacted

variable {H : Type} {hash : ByteArray → H} {cells : List (Version × List String)}
  {c : Compacted H}

/-- Lines given for different versions, as they are kept under any hash. -/
structure Files (hash : ByteArray → H) (cells : List (Version × List String))
    (c : Compacted H) : Prop where
  versions : c.versions = cells.map fun cell => (cell.1, address hash cell.2)
  keys : (c.blobs.map Prod.fst).Nodup
  kept : ∀ cell ∈ cells, address hash cell.2 ∈ c.blobs.map Prod.fst

theorem Files.keys_eq (h : Files hash cells c) : c.versions.map Prod.fst = cells.map Prod.fst := by
  rw [h.versions, List.map_map]
  rfl

theorem Files.lookup (h : Files hash cells c) (hn : (cells.map Prod.fst).Nodup)
    {v : Version} {lines : List String} (hcell : (v, lines) ∈ cells) :
    c.versions.lookup v = some (address hash lines) := by
  have hmem : (v, address hash lines) ∈ c.versions := by
    rw [h.versions]
    exact List.mem_map.mpr ⟨(v, lines), hcell, rfl⟩
  exact lookup_eq_some_of_nodup (by rwa [h.keys_eq]) hmem

variable [DecidableEq H]

theorem Files.insert (h : Files hash cells c) {v : Version} (hv : v ∉ cells.map Prod.fst)
    (lines : List String) : Files hash (cells ++ [(v, lines)]) (c.insert hash v lines) := by
  have hblobs : (c.insert hash v lines).blobs.map Prod.fst =
      if address hash lines ∈ c.blobs.map Prod.fst then c.blobs.map Prod.fst
      else c.blobs.map Prod.fst ++ [address hash lines] := by
    have hinsert : (c.insert hash v lines).blobs =
        if (c.blobs.lookup (address hash lines)).isSome then c.blobs
        else c.blobs ++ [(address hash lines, lines)] := rfl
    rw [hinsert]
    by_cases hmem : address hash lines ∈ c.blobs.map Prod.fst
    · rw [if_pos (lookup_isSome_iff_mem_keys.mpr hmem), if_pos hmem]
    · rw [if_neg (mt lookup_isSome_iff_mem_keys.mp hmem), if_neg hmem, List.map_append]
      rfl
  refine ⟨?_, ?_, ?_⟩
  · rw [Compacted.insert, setEntry_of_not_mem (by rwa [h.keys_eq]), h.versions, List.map_append]
    rfl
  · rw [hblobs]
    split
    next => exact h.keys
    next hnew =>
      refine List.nodup_append.mpr ⟨h.keys, List.nodup_singleton _, ?_⟩
      rintro k hk _ hk' rfl
      exact hnew (List.mem_singleton.mp hk' ▸ hk)
  · intro cell hcell
    rw [hblobs]
    rcases List.mem_append.mp hcell with hcell | hcell
    · have hmem := h.kept cell hcell
      split
      next => exact hmem
      next => exact List.mem_append_left _ hmem
    · obtain rfl := List.mem_singleton.mp hcell
      split
      next hmem => exact hmem
      next => exact List.mem_append_right _ (List.mem_singleton_self _)

theorem Files.insertAll {sources : List (Version × Text.Source)}
    {more : List (Version × List String)} (h : Files hash cells c)
    (hread : List.Forall₂ Normalizes sources more) (hn : ((cells ++ more).map Prod.fst).Nodup) :
    ∃ c', insertAll hash c sources = .ok c' ∧ Files hash (cells ++ more) c' := by
  induction hread generalizing cells c with
  | nil => exact ⟨c, rfl, by rwa [List.append_nil]⟩
  | @cons s cell sources more hs _ ih =>
      obtain ⟨v, source⟩ := s
      obtain ⟨_, lines⟩ := cell
      obtain ⟨rfl, hlines⟩ := hs
      have hv : v ∉ cells.map Prod.fst := by
        rw [List.map_append, List.nodup_append] at hn
        exact fun hv => hn.2.2 v hv v List.mem_cons_self rfl
      rw [List.append_cons] at hn ⊢
      obtain ⟨c', hc', hfiles⟩ := ih (h.insert hv lines) hn
      exact ⟨c', Except.bind_eq_ok.mpr ⟨lines, hlines, hc'⟩, hfiles⟩

theorem keys_normalText (texts : List (Version × String)) :
    (texts.map fun t => (t.1, normalText t.2)).map Prod.fst = texts.map Prod.fst := by
  simp only [List.map_map, Function.comp_def]

theorem exists_files (hash : ByteArray → H) {texts : List (Version × String)}
    (hn : (texts.map Prod.fst).Nodup) :
    ∃ c, ofSources hash (texts.map fun t => (t.1, .ofString t.2)) = .ok c ∧
      Files hash (texts.map fun t => (t.1, normalText t.2)) c := by
  have hstart : Files hash [] ({} : Compacted H) := ⟨rfl, List.nodup_nil, nofun⟩
  obtain ⟨c, hc, hfiles⟩ := hstart.insertAll (forall₂_normalizes texts) (by
    rwa [List.nil_append, keys_normalText])
  refine ⟨c, ?_, hfiles⟩
  rw [ofSources, hc]
  refine if_pos ?_
  rw [hfiles.versions]
  simp

theorem exists_shared {texts : List (Version × String)} (hn : (texts.map Prod.fst).Nodup)
    {v w : Version} {text : String} (hv : (v, text) ∈ texts) (hw : (w, text) ∈ texts) :
    ∃ c, ofSources hash (texts.map fun t => (t.1, .ofString t.2)) = .ok c ∧
      ∃ k, c.versions.lookup v = some k ∧ c.versions.lookup w = some k ∧
        (c.blobs.map Prod.fst).count k = 1 := by
  obtain ⟨c, hc, hfiles⟩ := exists_files hash hn
  have hn' : ((texts.map fun t => (t.1, normalText t.2)).map Prod.fst).Nodup := by
    rwa [keys_normalText]
  have hcell {u : Version} (hu : (u, text) ∈ texts) :
      (u, normalText text) ∈ texts.map fun t => (t.1, normalText t.2) :=
    List.mem_map.mpr ⟨(u, text), hu, rfl⟩
  exact ⟨c, hc, address hash (normalText text), hfiles.lookup hn' (hcell hv),
    hfiles.lookup hn' (hcell hw),
    List.count_eq_one_of_mem hfiles.keys (hfiles.kept (v, normalText text) (hcell hv))⟩

end Compacted

theorem text_withVersion {d : Dialect.Shader} {w : Version} {config : Dialect.Config}
    (hf : d.version.family = w.family) (hdirective : config.versionDirective = false)
    (hcomments : config.sourceComments = false) :
    ({ d with version := w } : Dialect.Shader).text config = d.text config := by
  have hheader : ({ d with version := w } : Dialect.Shader).headerLines config =
      d.headerLines config := by
    simp only [Dialect.Shader.headerLines, hdirective, hcomments, hf]
    rfl
  unfold Dialect.Shader.text Dialect.Shader.pieces Dialect.Shader.lines
  rw [hheader]

open Lowering (Alike lower)

/-- Versions that lowering cannot tell apart give the same shader but for the version, or none in
either; if the text does not note the version, it is the same, and compaction keeps it once. -/
theorem lower_eq_of_alike {p : Program} {s : Shader} {closure : Closure} {table : Table}
    {v w : Version} (h : Alike p s closure table v w) :
    (lower p s closure w table).toOption =
      (lower p s closure v table).toOption.map (fun d => { d with version := w }) ∧
    ∀ d e, lower p s closure v table = .ok d → lower p s closure w table = .ok e →
      ∀ config : Dialect.Config, config.versionDirective = false →
        config.sourceComments = false → d.text config = e.text config ∧
        ∀ {H : Type} [DecidableEq H] (hash : ByteArray → H) (texts : List (Version × String)),
          (texts.map Prod.fst).Nodup → (v, d.text config) ∈ texts → (w, e.text config) ∈ texts →
          ∃ c, Compacted.ofSources hash (texts.map fun t => (t.1, .ofString t.2)) = .ok c ∧
            ∃ k, c.versions.lookup v = some k ∧ c.versions.lookup w = some k ∧
              (c.blobs.map Prod.fst).count k = 1 := by
  refine ⟨?_, fun d e hd he config hdirective hcomments => ?_⟩
  · cases hv : lower p s closure v table with
    | ok d =>
        rw [h.lower hv]
        rfl
    | error e =>
        -- had the other version a result, this one had it too
        cases hw : lower p s closure w table with
        | ok d => cases (h.symm.lower hw).symm.trans hv
        | error e' => rfl
  · obtain ⟨_, _, _, _, _, _, _, _, rfl, _⟩ := Lowering.lower_eq_ok.mp hd
    obtain rfl := Except.ok.inj ((h.lower hd).symm.trans he)
    have htext := text_withVersion (w := w) h.family hdirective hcomments
    refine ⟨htext.symm, fun hash texts hn hv hw => ?_⟩
    rw [htext] at hw
    exact Compacted.exists_shared hn hv hw

namespace Rounded

def float : Ty := .leaf .float

def program : Program where
  terms := [⟨"round", .external "round" (.function [.float] .float), {}⟩]

def shader : Shader where
  name := "rounded"
  stage := .fragment
  inputs := [⟨"shade", float, {}⟩]
  outputs := [⟨⟨"color", float, {}⟩, .attachment 0⟩]
  assignments := [⟨0, .apply ⟨float, {}⟩ 0 [.input ⟨float, {}⟩ 0]⟩]

def closure : Closure := .placed [.term 0]

end Rounded

open Rounded in
/-- The emulation is named alike in both versions, and a poor hash serves as well. -/
theorem lower_eq_of_alike_rounded :
    Alike program shader closure .standard (.full .v110) (.full .v120) ∧
    ∃ d e, lower program shader closure (.full .v110) .standard = .ok d ∧
      lower program shader closure (.full .v120) .standard = .ok e ∧
      e = { d with version := .full .v120 } ∧ d.decls.length = 1 ∧ d.text {} = e.text {} ∧
      ∃ c, Compacted.ofSources ByteArray.size
          [(.full .v110, .ofString (d.text {})), (.full .v120, .ofString (e.text {}))] = .ok c ∧
        ∃ k, c.versions.lookup (.full .v110) = some k ∧ c.versions.lookup (.full .v120) = some k ∧
          (c.blobs.map Prod.fst).count k = 1 := by
  have halike : Alike program shader closure .standard (.full .v110) (.full .v120) :=
    ⟨rfl, rfl, rfl, fun i t hi ht => by
      obtain rfl : i = 0 := by simpa [Rounded.closure] using hi
      cases ht
      rfl⟩
  obtain ⟨d, hd, hdecls⟩ : ∃ d, lower program shader closure (.full .v110) .standard = .ok d ∧
      d.decls.length = 1 :=
    Except.exists_eq_ok_of_toOption_map (by decide +kernel)
  obtain ⟨hsame, hall⟩ := lower_eq_of_alike halike
  rw [hd] at hsame
  obtain ⟨e, he, hversion⟩ :
      ∃ e, lower program shader closure (.full .v120) .standard = .ok e ∧
        e = { d with version := .full .v120 } :=
    Except.exists_eq_ok_of_toOption_map (f := id) (by rw [hsame]; rfl)
  obtain ⟨htext, hshared⟩ := hall d e hd he {} rfl rfl
  have hkept := hshared ByteArray.size [(.full .v110, d.text {}), (.full .v120, e.text {})]
    (by simp) (by simp) (by simp)
  exact ⟨halike, d, e, hd, he, hversion, hdecls, htext, hkept⟩

end ShaderDialects.Package
