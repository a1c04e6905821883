import ShaderDialects.Package.Digest
import ShaderDialects.Proofs.Legality.Request
import ShaderDialects.Proofs.Lowering.Faults
import ShaderDialects.Proofs.Package.Sharing

namespace ShaderDialects.Package

open Legality (Request)

section Collect

variable {α : Type} {results : List (Except Error α)}

theorem mapM_id_oks (xs : List α) :
    (xs.map Except.ok).mapM id = (.ok xs : Except Error (List α)) := by
  induction xs with
  | nil => rfl
  | cons x xs ih =>
      rw [List.map_cons, List.mapM_cons, ih]
      rfl

theorem mapM_id_error (xs : List α) (e : Error) (post : List (Except Error α)) :
    (xs.map Except.ok ++ Except.error e :: post).mapM id = .error e := by
  induction xs with
  | nil => rfl
  | cons x xs ih =>
      rw [List.map_cons, List.cons_append, List.mapM_cons, ih]
      rfl

theorem collect_of_faultless (h : ∀ e, .error e ∈ results → e.isFault = false) :
    collect results = results.mapM id := by
  rw [collect]
  split
  · rename_i e he
    have hfault := List.find?_some he
    simp [h e (List.mem_of_find?_eq_some he)] at hfault
  · rfl

theorem chunks_append {n : Nat} {xs ys : List α} (hn : 0 < n) (hx : xs.length = n) :
    chunks n (xs ++ ys) = xs :: chunks n ys := by
  have hne : ¬ (n = 0 ∨ xs ++ ys = []) := by
    rw [List.append_eq_nil_iff, not_or]
    refine ⟨by omega, fun h => ?_⟩
    rw [h.1, List.length_nil] at hx
    omega
  rw [chunks, if_neg hne, List.take_left' hx, List.drop_left' hx]

theorem chunks_halves {n : Nat} {xs ys : List α} (hn : 0 < n) (hx : xs.length = n)
    (hy : ys.length = n) : chunks n (xs ++ ys) = [xs, ys] := by
  have hlast : chunks n ys = [ys] := by
    have hnil : chunks n ([] : List α) = [] := by rw [chunks, if_pos (.inr rfl)]
    rw [← List.append_nil ys, chunks_append hn hy, hnil, List.append_nil]
  rw [chunks_append hn hx, hlast]

theorem length_second_chunk {n : Nat} {xs first second : List α} {rest : List (List α)}
    (h : chunks n xs = first :: second :: rest) :
    n < xs.length ∧ n + second.length ≤ xs.length := by
  rw [chunks] at h
  split at h
  next => cases h
  next =>
    have htail := (List.cons_eq_cons.mp h).2
    rw [chunks] at htail
    split at htail
    next => cases htail
    next hleft =>
      have hlen := List.length_pos_iff.mpr (not_or.mp hleft).2
      rw [← (List.cons_eq_cons.mp htail).1, List.length_take]
      rw [List.length_drop] at hlen ⊢
      omega

end Collect

/-- It makes no difference to the results whether they come from the pool. -/
theorem Options.each_eq_map (options : Options) {α β : Type} (f : α → β) (xs : List α) :
    options.each f xs = xs.map f := by
  rw [each]
  split
  · refine List.ext_getElem? fun i => ?_
    rw [options.pool.getElem?_run, List.getElem?_map]
  · rfl

theorem isEmpty_eq_false {vs : VersionSet} {pre post : List Version} {v : Version}
    (h : vs.toList = pre ++ v :: post) : vs.isEmpty = false := by
  refine Bool.eq_false_iff.mpr fun hempty => ?_
  rw [VersionSet.isEmpty, decide_eq_true_iff] at hempty
  have hv : v ∈ vs.toList := by simp [h]
  rw [vs.mem_toList, hempty, VersionSet.contains_empty] at hv
  cases hv

theorem forall_or_first {α : Type} (P : α → Prop) (xs : List α) :
    (∀ x ∈ xs, P x) ∨ ∃ pre x post, xs = pre ++ x :: post ∧ (∀ y ∈ pre, P y) ∧ ¬ P x := by
  induction xs with
  | nil => exact .inl nofun
  | cons x xs ih =>
      by_cases hx : P x
      · rcases ih with ih | ⟨pre, y, post, rfl, hpre, hy⟩
        · exact .inl (List.forall_mem_cons.mpr ⟨hx, ih⟩)
        · exact .inr ⟨x :: pre, y, post, rfl, List.forall_mem_cons.mpr ⟨hx, hpre⟩, hy⟩
      · exact .inr ⟨[], x, xs, rfl, nofun, hx⟩

section Cells

variable (options : Options) (p : Program) (s : Shader) (closure : Closure)

def Rendered (v : Version) (text : String) : Prop :=
  ∃ lowered, Lowering.lower p s closure v options.table = .ok lowered ∧
    (options.verify = true → Legality.checkLowered options.table lowered = .ok ()) ∧
    lowered.text options.config = text

inductive CellFails (v : Version) : Error → Prop
  | lowering {e : Lowering.Error} (h : Lowering.lower p s closure v options.table = .error e) :
      CellFails v (.lowering e)
  | legality {lowered : Dialect.Shader} {e : Legality.Error}
      (h : Lowering.lower p s closure v options.table = .ok lowered)
      (hverify : options.verify = true)
      (hcheck : Legality.checkLowered options.table lowered = .error e) :
      CellFails v (.legality e)

variable {options p s closure} {v : Version}

theorem renderCell_eq_ok {text : String} :
    renderCell options p s closure v = .ok text ↔ Rendered options p s closure v text := by
  rw [renderCell, Rendered, Except.bind_eq_ok]
  refine exists_congr fun lowered => and_congr Except.mapError_eq_ok ?_
  cases options.verify with
  | false => simp [Except.pure_eq_ok]
  | true => cases Legality.checkLowered options.table lowered <;> simp [Except.mapError]

theorem renderCell_eq_error {e : Error} :
    renderCell options p s closure v = .error e ↔ CellFails options p s closure v e := by
  rw [renderCell, Except.bind_eq_error, Except.mapError_eq_error]
  constructor
  · rintro (⟨e, h, rfl⟩ | ⟨lowered, h, hcheck⟩)
    · exact .lowering h
    · rw [Except.mapError_eq_ok] at h
      cases hverify : options.verify with
      | false =>
          rw [hverify, if_neg Bool.false_ne_true] at hcheck
          cases hcheck
      | true =>
          rw [hverify, if_pos rfl, Except.bind_eq_error, Except.mapError_eq_error] at hcheck
          rcases hcheck with ⟨e, hcheck, rfl⟩ | ⟨_, _, hpure⟩
          · exact .legality h hverify hcheck
          · cases hpure
  · rintro (h | ⟨h, hverify, hcheck⟩)
    · exact .inl ⟨_, h, rfl⟩
    · refine .inr ⟨_, Except.mapError_eq_ok.mpr h, ?_⟩
      rw [hverify, hcheck]
      rfl

theorem exists_cellFails (h : ¬ ∃ text, Rendered options p s closure v text) :
    ∃ e, CellFails options p s closure v e := by
  cases hv : renderCell options p s closure v with
  | ok text => exact absurd ⟨text, renderCell_eq_ok.mp hv⟩ h
  | error e => exact ⟨e, renderCell_eq_error.mp hv⟩

theorem CellFails.isFault_eq_false {e : Error} (hclosure : Closure.ofShader p s = .ok closure)
    (h : CellFails options p s closure v e) : e.isFault = false := by
  cases h with
  | legality => rfl
  | @lowering e h =>
      cases e with
      | fault f => exact absurd h (Lowering.faultless_lower hclosure v options.table f)
      | _ => rfl

theorem map_renderCell_of_rendered {vs : List Version} {texts : List String}
    (h : List.Forall₂ (Rendered options p s closure) vs texts) :
    vs.map (renderCell options p s closure) = texts.map Except.ok := by
  induction h with
  | nil => rfl
  | cons hv _ ih => rw [List.map_cons, List.map_cons, renderCell_eq_ok.mpr hv, ih]

theorem map_renderCell_of_cellFails {pre : List Version} {e : Error}
    (hpre : ∀ w ∈ pre, ∃ text, Rendered options p s closure w text)
    (h : CellFails options p s closure v e) (post : List Version) : ∃ texts : List String,
    (pre ++ v :: post).map (renderCell options p s closure) =
      texts.map Except.ok ++ .error e :: post.map (renderCell options p s closure) := by
  obtain ⟨texts, htexts⟩ := List.exists_forall₂ hpre
  refine ⟨texts, ?_⟩
  rw [List.map_append, List.map_cons, map_renderCell_of_rendered htexts, renderCell_eq_error.mpr h]

end Cells

/-- Both closures are found, and both shaders support what is asked for. -/
structure Checked (options : Options) (job : Job) (request : Request)
    (vc fc : Closure) (vs fs : VersionSet) : Prop where
  vertexClosure : Closure.ofShader job.program job.vertex = .ok vc
  fragmentClosure : Closure.ofShader job.program job.fragment = .ok fc
  vertexVersions : supportedVersions options job.program job.vertex vc request = .ok vs
  fragmentVersions : supportedVersions options job.program job.fragment fc request = .ok fs

/-- The shaders have a version in common, and every cell of either succeeds. -/
structure Succeeds (options : Options) (job : Job) (request : Request)
    (vc fc : Closure) (vs fs : VersionSet) : Prop
    extends Checked options job request vc fc vs fs where
  common : (vs.inter fs).isEmpty = false
  vertexCells : ∀ v ∈ (vs.inter fs).toList,
    ∃ text, Rendered options job.program job.vertex vc v text
  fragmentCells : ∀ v ∈ (vs.inter fs).toList,
    ∃ text, Rendered options job.program job.fragment fc v text

/-- The failures, in the order in which they count: closures, checks, a common version, and the
cells of the vertex and of the fragment shader, versions ascending. -/
inductive FirstFailure (options : Options) (job : Job) (request : Request) : Error → Prop
  | vertexClosure {e : Closure.Error}
      (h : Closure.ofShader job.program job.vertex = .error e) :
      FirstFailure options job request (.closure e)
  | fragmentClosure {vc : Closure} {e : Closure.Error}
      (hvertex : Closure.ofShader job.program job.vertex = .ok vc)
      (h : Closure.ofShader job.program job.fragment = .error e) :
      FirstFailure options job request (.closure e)
  | vertexCheck {vc fc : Closure} {e : Error}
      (hvertex : Closure.ofShader job.program job.vertex = .ok vc)
      (hfragment : Closure.ofShader job.program job.fragment = .ok fc)
      (h : supportedVersions options job.program job.vertex vc request = .error e) :
      FirstFailure options job request e
  | fragmentCheck {vc fc : Closure} {vs : VersionSet} {e : Error}
      (hvertex : Closure.ofShader job.program job.vertex = .ok vc)
      (hfragment : Closure.ofShader job.program job.fragment = .ok fc)
      (hcheck : supportedVersions options job.program job.vertex vc request = .ok vs)
      (h : supportedVersions options job.program job.fragment fc request = .error e) :
      FirstFailure options job request e
  | noCommonVersion {vc fc : Closure} {vs fs : VersionSet}
      (checked : Checked options job request vc fc vs fs) (h : (vs.inter fs).isEmpty = true) :
      FirstFailure options job request (.noCommonVersion job.name vs fs)
  | vertexCell {vc fc : Closure} {vs fs : VersionSet} {pre post : List Version} {v : Version}
      {e : Error} (checked : Checked options job request vc fc vs fs)
      (hversions : (vs.inter fs).toList = pre ++ v :: post)
      (hpre : ∀ w ∈ pre, ∃ text, Rendered options job.program job.vertex vc w text)
      (h : CellFails options job.program job.vertex vc v e) :
      FirstFailure options job request e
  | fragmentCell {vc fc : Closure} {vs fs : VersionSet} {pre post : List Version} {v : Version}
      {e : Error} (checked : Checked options job request vc fc vs fs)
      (hvertex : ∀ w ∈ (vs.inter fs).toList,
        ∃ text, Rendered options job.program job.vertex vc w text)
      (hversions : (vs.inter fs).toList = pre ++ v :: post)
      (hpre : ∀ w ∈ pre, ∃ text, Rendered options job.program job.fragment fc w text)
      (h : CellFails options job.program job.fragment fc v e) :
      FirstFailure options job request e

variable {H : Type}

/-- A shader packaged for versions: they are the keys of its sources, and each has the normal lines
of its own text. -/
structure Packages [DecidableEq H] (options : Options) (p : Program) (s : Shader) (closure : Closure)
    (vs : VersionSet) (packaged : PackagedShader H) : Prop where
  metadata : Metadata.ofShader p s options.table = .ok packaged.metadata
  versions : packaged.sources.versions.map Prod.fst = Version.all.filter vs.contains
  lines : ∀ v, vs.contains v = true → ∃ text, Rendered options p s closure v text ∧
    ∃ lines, normalize (.ofString text) = .ok lines ∧ packaged.sources.lines? v = some lines
  others : ∀ v, vs.contains v = false → packaged.sources.lines? v = none

structure Bundles [DecidableEq H] (options : Options) (job : Job) (vc fc : Closure) (vs : VersionSet)
    (b : Bundle H) : Prop where
  name : b.name = job.name
  versions : b.versions = vs
  vertex : Packages options job.program job.vertex vc vs b.vertex
  fragment : Packages options job.program job.fragment fc vs b.fragment

/-- No two different texts that a shader has in the versions are hashed alike. -/
def HashedApart (hash : ByteArray → H) (options : Options) (p : Program) (s : Shader)
    (closure : Closure) (versions : VersionSet) : Prop :=
  Set.InjOn hash {bytes | ∃ v text, versions.contains v = true ∧
    Rendered options p s closure v text ∧ bytes = (joinLines (normalText text)).toUTF8}

section Compile

variable [DecidableEq H] {hash : ByteArray → H} {options : Options} {job : Job} {request : Request}

theorem supportedVersions_error {p : Program} {s : Shader} {closure : Closure} {e : Error}
    (h : supportedVersions options p s closure request = .error e) :
    (∃ e', e = .listing e') ∨ ∃ e', e = .legality e' := by
  rw [supportedVersions, Except.bind_eq_error, Except.mapError_eq_error] at h
  rcases h with ⟨e', -, rfl⟩ | ⟨constructs, -, h⟩
  · exact .inl ⟨e', rfl⟩
  · obtain ⟨e', -, rfl⟩ := Except.mapError_eq_error.mp h
    exact .inr ⟨e', rfl⟩

/-- No failure comes from compaction or from cutting the texts into parts. -/
theorem FirstFailure.expected {e : Error} (h : FirstFailure options job request e) :
    (∀ c, e ≠ .compact c) ∧ ∀ n m, e ≠ .miscounted n m := by
  cases h with
  | vertexClosure | fragmentClosure | noCommonVersion => exact ⟨nofun, nofun⟩
  | vertexCheck _ _ h | fragmentCheck _ _ _ h =>
      rcases supportedVersions_error h with ⟨e', rfl⟩ | ⟨e', rfl⟩ <;> exact ⟨nofun, nofun⟩
  | vertexCell _ _ _ h | fragmentCell _ _ _ _ h => cases h <;> exact ⟨nofun, nofun⟩

/-- The versions in common are named exactly if those asked for are. -/
theorem Checked.named_iff {vc fc : Closure} {vs fs : VersionSet}
    (h : Checked options job request vc fc vs fs) : (vs.inter fs).Named ↔ request.Named := by
  obtain ⟨cs, -, hvs⟩ := Except.bind_eq_ok.mp h.vertexVersions
  obtain ⟨cs', -, hfs⟩ := Except.bind_eq_ok.mp h.fragmentVersions
  exact Legality.named_inter_iff_of_resolve (Except.mapError_eq_ok.mp hvs)
    (Except.mapError_eq_ok.mp hfs)

theorem succeeds_or_firstFailure (options : Options) (job : Job) (request : Request) :
    (∃ vc fc vs fs, Succeeds options job request vc fc vs fs) ∨
      ∃ e, FirstFailure options job request e := by
  cases hvc : Closure.ofShader job.program job.vertex with
  | error e => exact .inr ⟨_, .vertexClosure hvc⟩
  | ok vc =>
  cases hfc : Closure.ofShader job.program job.fragment with
  | error e => exact .inr ⟨_, .fragmentClosure hvc hfc⟩
  | ok fc =>
  cases hvs : supportedVersions options job.program job.vertex vc request with
  | error e => exact .inr ⟨_, .vertexCheck hvc hfc hvs⟩
  | ok vs =>
  cases hfs : supportedVersions options job.program job.fragment fc request with
  | error e => exact .inr ⟨_, .fragmentCheck hvc hfc hvs hfs⟩
  | ok fs =>
  have checked : Checked options job request vc fc vs fs := ⟨hvc, hfc, hvs, hfs⟩
  cases hempty : (vs.inter fs).isEmpty with
  | true => exact .inr ⟨_, .noCommonVersion checked hempty⟩
  | false =>
  rcases forall_or_first (fun v => ∃ text, Rendered options job.program job.vertex vc v text)
    (vs.inter fs).toList with hvertex | ⟨pre, v, post, hsplit, hpre, hv⟩
  · rcases forall_or_first (fun v => ∃ text, Rendered options job.program job.fragment fc v text)
      (vs.inter fs).toList with hfragment | ⟨pre, v, post, hsplit, hpre, hv⟩
    · exact .inl ⟨vc, fc, vs, fs, checked, hempty, hvertex, hfragment⟩
    · obtain ⟨e, he⟩ := exists_cellFails hv
      exact .inr ⟨e, .fragmentCell checked hvertex hsplit hpre he⟩
  · obtain ⟨e, he⟩ := exists_cellFails hv
    exact .inr ⟨e, .vertexCell checked hsplit hpre he⟩

namespace Checked

variable {vc fc : Closure} {vs fs : VersionSet}

def cells (_ : Checked options job request vc fc vs fs) : List (Except Error String) :=
  (vs.inter fs).toList.map (renderCell options job.program job.vertex vc)
    ++ (vs.inter fs).toList.map (renderCell options job.program job.fragment fc)

theorem collect_cells (h : Checked options job request vc fc vs fs) :
    collect h.cells = h.cells.mapM id := by
  refine collect_of_faultless fun e he => ?_
  rcases List.mem_append.mp he with he | he
  · obtain ⟨v, -, hv⟩ := List.mem_map.mp he
    exact (renderCell_eq_error.mp hv).isFault_eq_false h.vertexClosure
  · obtain ⟨v, -, hv⟩ := List.mem_map.mp he
    exact (renderCell_eq_error.mp hv).isFault_eq_false h.fragmentClosure

theorem compile_eq (h : Checked options job request vc fc vs fs)
    (hcommon : (vs.inter fs).isEmpty = false) :
    compile hash options job request =
      h.cells.mapM id >>= bundle hash options job (vs.inter fs) := by
  rw [compile, Except.bind_of_ok (Except.mapError_of_ok h.vertexClosure),
    Except.bind_of_ok (Except.mapError_of_ok h.fragmentClosure),
    Except.bind_of_ok h.vertexVersions, Except.bind_of_ok h.fragmentVersions, ← h.collect_cells,
    cells]
  simp only [hcommon, Bool.false_eq_true, if_false, options.each_eq_map, List.map_append,
    List.map_map]
  rfl

end Checked

theorem compile_of_firstFailure {e : Error} (h : FirstFailure options job request e) :
    compile hash options job request = .error e := by
  cases h with
  | vertexClosure h =>
      rw [compile, h]
      rfl
  | fragmentClosure hvertex h =>
      rw [compile, hvertex, h]
      rfl
  | vertexCheck hvertex hfragment h =>
      rw [compile, Except.bind_of_ok (Except.mapError_of_ok hvertex),
        Except.bind_of_ok (Except.mapError_of_ok hfragment), Except.bind_of_error h]
  | fragmentCheck hvertex hfragment hcheck h =>
      rw [compile, Except.bind_of_ok (Except.mapError_of_ok hvertex),
        Except.bind_of_ok (Except.mapError_of_ok hfragment), Except.bind_of_ok hcheck,
        Except.bind_of_error h]
  | noCommonVersion checked h =>
      rw [compile, Except.bind_of_ok (Except.mapError_of_ok checked.vertexClosure),
        Except.bind_of_ok (Except.mapError_of_ok checked.fragmentClosure),
        Except.bind_of_ok checked.vertexVersions, Except.bind_of_ok checked.fragmentVersions]
      simp only [h, if_true]
      rfl
  | @vertexCell vc fc vs fs pre post v e checked hversions hpre h =>
      obtain ⟨texts, htexts⟩ := map_renderCell_of_cellFails hpre h post
      rw [checked.compile_eq (isEmpty_eq_false hversions), Checked.cells, hversions, htexts,
        List.append_assoc, List.cons_append, mapM_id_error]
      rfl
  | @fragmentCell vc fc vs fs pre post v e checked hvertex hversions hpre h =>
      obtain ⟨texts, htexts⟩ := map_renderCell_of_cellFails hpre h post
      obtain ⟨before, hbefore⟩ := List.exists_forall₂ hvertex
      rw [checked.compile_eq (isEmpty_eq_false hversions), Checked.cells,
        map_renderCell_of_rendered hbefore, hversions, htexts, ← List.append_assoc,
        ← List.map_append, mapM_id_error]
      rfl

variable (hash) in
theorem Succeeds.exists_texts {vc fc : Closure} {vs fs : VersionSet}
    (h : Succeeds options job request vc fc vs fs) : ∃ vtexts ftexts,
      List.Forall₂ (Rendered options job.program job.vertex vc) (vs.inter fs).toList vtexts ∧
      List.Forall₂ (Rendered options job.program job.fragment fc) (vs.inter fs).toList ftexts ∧
      compile hash options job request =
        bundle hash options job (vs.inter fs) (vtexts ++ ftexts) := by
  obtain ⟨vtexts, hvtexts⟩ := List.exists_forall₂ h.vertexCells
  obtain ⟨ftexts, hftexts⟩ := List.exists_forall₂ h.fragmentCells
  refine ⟨vtexts, ftexts, hvtexts, hftexts, ?_⟩
  rw [h.compile_eq h.common, Checked.cells, map_renderCell_of_rendered hvtexts,
    map_renderCell_of_rendered hftexts, ← List.map_append, mapM_id_oks]
  rfl

omit [DecidableEq H] in
theorem HashedApart.injOn {p : Program} {s : Shader} {closure : Closure} {vs : VersionSet}
    (h : HashedApart hash options p s closure vs) {texts : List String}
    (htexts : List.Forall₂ (Rendered options p s closure) vs.toList texts) :
    Set.InjOn (address hash) {ls | ls ∈ texts.map normalText} := by
  have hbytes {text : String} (ht : text ∈ texts) :
      (joinLines (normalText text)).toUTF8 ∈ {bytes | ∃ v text, vs.contains v = true ∧
        Rendered options p s closure v text ∧ bytes = (joinLines (normalText text)).toUTF8} := by
    obtain ⟨k, hk⟩ := List.mem_iff_getElem?.mp ht
    obtain ⟨v, hv, hrendered⟩ := htexts.getElem?_left hk
    exact ⟨v, text, (vs.mem_toList v).mp (List.mem_of_getElem? hv), hrendered, rfl⟩
  have hfeed {text l : String} (hl : l ∈ normalText text) : '\n' ∉ l.toList :=
    feed_not_mem_of_normalize (normalize_ofString text) hl
  intro ls hls ms hms heq
  obtain ⟨text, ht, rfl⟩ := List.mem_map.mp hls
  obtain ⟨text', ht', rfl⟩ := List.mem_map.mp hms
  have hjoined := String.toByteArray_inj.mp (h (hbytes ht) (hbytes ht') heq)
  exact joinLines_injective (fun l hl => hfeed hl) (fun l hl => hfeed hl) hjoined

theorem zipWith_ofString (vs : List Version) (texts : List String) :
    vs.zipWith (fun v text => (v, Text.Source.ofString text)) texts =
      (vs.zip texts).map fun cell => (cell.1, .ofString cell.2) := by
  rw [List.zip, List.map_zipWith]

theorem map_fst_zip_eq_take {α β : Type} (xs : List α) (ys : List β) :
    (xs.zip ys).map Prod.fst = xs.take ys.length := by
  induction xs generalizing ys with
  | nil => simp
  | cons x xs ih => cases ys <;> simp [ih]

theorem packageShader_eq (hash : ByteArray → H) (options : Options) (p : Program) (s : Shader)
    (vs : VersionSet) (texts : List String) :
    ∃ sources : Compacted H,
      sources.versions.map Prod.fst = vs.toList.take texts.length ∧
      packageShader hash options p s vs texts =
        ((Metadata.ofShader p s options.table).mapError fun f => .lowering (.fault f)).map
          fun metadata => ⟨metadata, sources⟩ := by
  have hkeys := map_fst_zip_eq_take vs.toList texts
  have hnodup : ((vs.toList.zip texts).map Prod.fst).Nodup := by
    rw [hkeys]
    exact (List.take_sublist _ _).nodup vs.nodup_toList
  obtain ⟨c, hc, hfiles⟩ := Compacted.exists_files hash hnodup
  refine ⟨c, ?_, ?_⟩
  · rw [hfiles.keys_eq, Compacted.keys_normalText, hkeys]
  · rw [packageShader]
    cases Metadata.ofShader p s options.table with
    | error f => rfl
    | ok metadata =>
        rw [Except.bind_of_ok (Except.mapError_of_ok rfl)]
        simp only [zipWith_ofString]
        exact Except.bind_of_ok (Except.mapError_of_ok hc) _

theorem exists_packageShader {p : Program} {s : Shader} {closure : Closure} {vs : VersionSet}
    (hclosure : Closure.ofShader p s = .ok closure)
    (happart : HashedApart hash options p s closure vs) {texts : List String}
    (htexts : List.Forall₂ (Rendered options p s closure) vs.toList texts) :
    ∃ packaged, packageShader hash options p s vs texts = .ok packaged ∧
      Packages options p s closure vs packaged := by
  obtain ⟨⟨interface, supply⟩, hi⟩ :=
    Lowering.exists_assign hclosure (.forShader options.table.nativeNames)
  obtain ⟨metadata, hmetadata⟩ : ∃ m, Metadata.ofShader p s options.table = .ok m := by
    rw [Metadata.ofShader, Interface.ofShader, hi]
    exact ⟨_, rfl⟩
  have hlen := htexts.length_eq
  -- Each text keeps its version, since there are as many texts as versions.
  have hversions :
      ((vs.toList.zip texts).map fun cell => (cell.1, normalText cell.2)).map Prod.fst =
        vs.toList := by
    rw [List.map_map]
    exact List.map_fst_zip hlen.le
  have hlines : ((vs.toList.zip texts).map fun cell => (cell.1, normalText cell.2)).map Prod.snd =
      texts.map normalText := by
    have hsnd : (vs.toList.zip texts).map Prod.snd = texts := List.map_snd_zip hlen.ge
    rw [List.map_map, ← hsnd, List.map_map, hsnd]
    rfl
  obtain ⟨c, hc, hholds⟩ := Compacted.exists_ofSources
    (forall₂_normalizes (vs.toList.zip texts)) (by rw [hlines]; exact happart.injOn htexts)
    (by rw [hversions]; exact vs.nodup_toList)
  refine ⟨⟨metadata, c⟩, ?_, hmetadata, hholds.versions.trans hversions, fun v hv => ?_,
    fun v hv => ?_⟩
  · rw [packageShader, Except.bind_of_ok (Except.mapError_of_ok hmetadata)]
    simp only [zipWith_ofString]
    exact Except.bind_of_ok (Except.mapError_of_ok hc) _
  · obtain ⟨k, hk⟩ := List.mem_iff_getElem?.mp ((vs.mem_toList v).mpr hv)
    obtain ⟨text, htext, hrendered⟩ := htexts.getElem?_right hk
    refine ⟨text, hrendered, normalText text, normalize_ofString text, ?_⟩
    have hmem : (v, text) ∈ vs.toList.zip texts :=
      List.mem_of_getElem? (List.getElem?_zip_eq_some.mpr ⟨hk, htext⟩)
    exact hholds.lines (v, normalText text) (List.mem_map.mpr ⟨(v, text), hmem, rfl⟩)
  · refine hholds.others v fun hmem => ?_
    rw [hversions, vs.mem_toList, hv] at hmem
    cases hmem

theorem compile_of_succeeds {vc fc : Closure} {vs fs : VersionSet}
    (h : Succeeds options job request vc fc vs fs) (hnamed : (vs.inter fs).Named)
    (hvertex : HashedApart hash options job.program job.vertex vc (vs.inter fs))
    (hfragment : HashedApart hash options job.program job.fragment fc (vs.inter fs)) :
    ∃ b, compile hash options job request = .ok b ∧ Bundles options job vc fc (vs.inter fs) b := by
  obtain ⟨vtexts, ftexts, hvtexts, hftexts, hcompile⟩ := h.exists_texts hash
  obtain ⟨vertex, hv, hpv⟩ := exists_packageShader h.vertexClosure hvertex hvtexts
  obtain ⟨fragment, hf, hpf⟩ := exists_packageShader h.fragmentClosure hfragment hftexts
  refine ⟨⟨job.name, vs.inter fs, vertex, fragment⟩, ?_, rfl, rfl, hpv, hpf⟩
  have hsize : (vs.inter fs).size = (vs.inter fs).toList.length :=
    VersionSet.size_eq_length_toList_iff.mpr hnamed
  have hpos : 0 < (vs.inter fs).size := by
    rw [hsize, List.length_pos_iff]
    exact fun hnil => Bool.eq_false_iff.mp h.common (hnamed.isEmpty_iff.mpr hnil)
  have hchunks : chunks (vs.inter fs).size (vtexts ++ ftexts) = [vtexts, ftexts] :=
    chunks_halves hpos (hsize ▸ hvtexts.length_eq.symm) (hsize ▸ hftexts.length_eq.symm)
  rw [hcompile, bundle]
  simp only [hchunks]
  rw [Except.bind_of_ok hv, Except.bind_of_ok hf]
  rfl

/-- With more bits than versions, the parts that the texts are cut into are too long: there is no
second one, or it lacks texts. -/
theorem not_bundles_of_unnamed {vc fc vc' fc' : Closure} {vs fs : VersionSet} {b : Bundle H}
    (h : Succeeds options job request vc fc vs fs) (hnamed : ¬ (vs.inter fs).Named)
    (hb : compile hash options job request = .ok b) :
    ¬ Bundles options job vc' fc' (vs.inter fs) b := by
  intro hbundles
  obtain ⟨vtexts, ftexts, hvtexts, hftexts, hcompile⟩ := h.exists_texts hash
  rw [hcompile, bundle] at hb
  split at hb
  next first second rest hchunks =>
    obtain ⟨vertex, -, hb⟩ := Except.bind_eq_ok.mp hb
    obtain ⟨fragment, hf, hb⟩ := Except.bind_eq_ok.mp hb
    obtain rfl := Except.pure_eq_ok.mp hb
    obtain ⟨sources, hkeys, hpackage⟩ :=
      packageShader_eq hash options job.program job.fragment (vs.inter fs) second
    obtain ⟨metadata, -, rfl⟩ := Except.map_eq_ok.mp (hpackage.symm.trans hf)
    have htake : (vs.inter fs).toList.take second.length = (vs.inter fs).toList :=
      hkeys.symm.trans hbundles.fragment.versions
    have hlong : (vs.inter fs).toList.length ≤ second.length := List.take_eq_self_iff _ |>.mp htake
    have hshort := (length_second_chunk hchunks).2
    have hsize := (vs.inter fs).length_toList_le_size
    have hne := mt VersionSet.size_eq_length_toList_iff.mp hnamed
    rw [List.length_append, ← hvtexts.length_eq, ← hftexts.length_eq] at hshort
    omega
  next => cases hb

theorem compile_eq_miscounted {vc fc : Closure} {vs fs : VersionSet}
    (h : Succeeds options job request vc fc vs fs)
    (hsize : 2 * (vs.inter fs).toList.length ≤ (vs.inter fs).size) :
    compile hash options job request =
      .error (.miscounted (2 * (vs.inter fs).toList.length) (vs.inter fs).size) := by
  obtain ⟨vtexts, ftexts, hvtexts, hftexts, hcompile⟩ := h.exists_texts hash
  have hlen : (vtexts ++ ftexts).length = 2 * (vs.inter fs).toList.length := by
    rw [List.length_append, ← hvtexts.length_eq, ← hftexts.length_eq]
    omega
  rw [hcompile, bundle]
  split
  next hchunks =>
    have hlong := (length_second_chunk hchunks).1
    omega
  next =>
    rw [hlen]
    rfl

/-- Where a request asks for versions only, compiling gives a bundle exactly if every part of it
succeeds, and otherwise the first failure; what is left to compaction cannot fail. With a bit that
stands for no version the failures are the same, but there is no right bundle. -/
theorem compile_exact
    (hashed : ∀ vc fc vs fs, Checked options job request vc fc vs fs →
      HashedApart hash options job.program job.vertex vc (vs.inter fs) ∧
      HashedApart hash options job.program job.fragment fc (vs.inter fs)) :
    (request.Named →
      ((∃ b, compile hash options job request = .ok b) ↔
        ∃ vc fc vs fs, Succeeds options job request vc fc vs fs) ∧
      (∀ b, compile hash options job request = .ok b → ∃ vc fc vs fs,
        Checked options job request vc fc vs fs ∧ Bundles options job vc fc (vs.inter fs) b) ∧
      (∀ e, compile hash options job request = .error e ↔ FirstFailure options job request e) ∧
      ∀ e, compile hash options job request = .error e →
        (∀ c, e ≠ .compact c) ∧ ∀ n m, e ≠ .miscounted n m) ∧
    (∀ e, FirstFailure options job request e → compile hash options job request = .error e) ∧
    ∀ vc fc vs fs, Succeeds options job request vc fc vs fs →
      ((∃ b, compile hash options job request = .ok b ∧ Bundles options job vc fc (vs.inter fs) b) ↔
        request.Named) := by
  have hsuccess {vc fc : Closure} {vs fs : VersionSet} (hnamed : request.Named)
      (h : Succeeds options job request vc fc vs fs) :
      ∃ b, compile hash options job request = .ok b ∧ Bundles options job vc fc (vs.inter fs) b :=
    have ⟨hvertex, hfragment⟩ := hashed vc fc vs fs h.toChecked
    compile_of_succeeds h (h.named_iff.mpr hnamed) hvertex hfragment
  refine ⟨fun hnamed => ?_, fun e => compile_of_firstFailure, fun vc fc vs fs h => ?_⟩
  · -- Either everything succeeds or something fails first, and both determine the answer.
    have hfailure {e : Error} (h : compile hash options job request = .error e) :
        FirstFailure options job request e := by
      rcases succeeds_or_firstFailure options job request with ⟨vc, fc, vs, fs, hs⟩ | ⟨e', he'⟩
      · obtain ⟨b, hb, -⟩ := hsuccess hnamed hs
        cases hb.symm.trans h
      · cases (compile_of_firstFailure he').symm.trans h
        exact he'
    have hbundle {b : Bundle H} (h : compile hash options job request = .ok b) : ∃ vc fc vs fs,
        Succeeds options job request vc fc vs fs ∧ Bundles options job vc fc (vs.inter fs) b := by
      rcases succeeds_or_firstFailure options job request with ⟨vc, fc, vs, fs, hs⟩ | ⟨e', he'⟩
      · obtain ⟨b', hb', hbundles⟩ := hsuccess hnamed hs
        cases hb'.symm.trans h
        exact ⟨vc, fc, vs, fs, hs, hbundles⟩
      · cases (compile_of_firstFailure he').symm.trans h
    refine ⟨⟨?_, ?_⟩, ?_, fun e => ⟨hfailure, compile_of_firstFailure⟩, ?_⟩
    · rintro ⟨b, hb⟩
      obtain ⟨vc, fc, vs, fs, hs, -⟩ := hbundle hb
      exact ⟨vc, fc, vs, fs, hs⟩
    · rintro ⟨vc, fc, vs, fs, hs⟩
      obtain ⟨b, hb, -⟩ := hsuccess hnamed hs
      exact ⟨b, hb⟩
    · intro b hb
      obtain ⟨vc, fc, vs, fs, hs, hbundles⟩ := hbundle hb
      exact ⟨vc, fc, vs, fs, hs.toChecked, hbundles⟩
    · intro e he
      exact (hfailure he).expected
  · refine ⟨fun ⟨b, hb, hbundles⟩ => ?_, fun hnamed => hsuccess hnamed h⟩
    by_contra hnamed
    exact not_bundles_of_unnamed h (mt h.named_iff.mp hnamed) hb hbundles

omit [DecidableEq H] in
theorem hashedApart_of_lines {p : Program} {s : Shader} {closure : Closure} {vs : VersionSet}
    (texts : List (List String))
    (hmem : ∀ v ∈ vs.toList, ∃ lines ∈ texts,
      (renderCell options p s closure v).toOption.map normalText = some lines)
    (hnodup : (texts.map (address hash)).Nodup) : HashedApart hash options p s closure vs := by
  have hlines {v : Version} {text : String} (hv : vs.contains v = true)
      (ht : Rendered options p s closure v text) : normalText text ∈ texts := by
    obtain ⟨lines, hl, heq⟩ := hmem v ((vs.mem_toList v).mpr hv)
    rw [renderCell_eq_ok.mpr ht] at heq
    cases heq
    exact hl
  rintro _ ⟨v, text, hv, ht, rfl⟩ _ ⟨w, text', hw, ht', rfl⟩ heq
  rw [List.inj_on_of_nodup_map hnodup (hlines hv ht) (hlines hw ht') heq]

end Compile

/-! A shader that hands on its input, which is an attribute in one of three versions, and one that
gives every pixel the same depth. -/
namespace Level

def place : Ty := .leaf (.vector .float .four)

def job : Job where
  name := "level"
  program := {}
  vertex := {
    name := "placed"
    stage := .vertex
    inputs := [⟨"p", place, {}⟩]
    outputs := [⟨⟨"position", place, {}⟩, .position⟩]
    assignments := [⟨0, .input ⟨place, {}⟩ 0⟩] }
  fragment := {
    name := "sunk"
    stage := .fragment
    outputs := [⟨⟨"depth", .leaf .float, {}⟩, .depth⟩]
    assignments := [⟨0, .literal ⟨.leaf .float, {}⟩ (.float ⟨0x3f000000⟩)⟩] }

def versions : VersionSet := .ofList [.full .v120, .full .v330, .full .v410]

def request : Request where
  full := .exactly versions.full
  embedded := .skip

/-- One version, and a bit that stands for none. -/
def unnamed : Request where
  full := .exactly (VersionSet.full (.singleton (.full .v330)) ||| 1 <<< 13)
  embedded := .skip

def options : Options where
  table := .empty

end Level

theorem rendered_of_isOk {options : Options} {p : Program} {s : Shader} {closure : Closure}
    {vs : List Version} (h : ∀ v ∈ vs, (renderCell options p s closure v).isOk) :
    ∀ v ∈ vs, ∃ text, Rendered options p s closure v text := by
  intro v hv
  obtain ⟨text, htext⟩ := Except.exists_eq_ok_of_isOk (h v hv)
  exact ⟨text, renderCell_eq_ok.mp htext⟩

open Level in
theorem compile_exact_level :
    (∀ vc fc vs fs, Checked options job request vc fc vs fs →
      HashedApart Digest.ofBytes options job.program job.vertex vc (vs.inter fs) ∧
      HashedApart Digest.ofBytes options job.program job.fragment fc (vs.inter fs)) ∧
    ∃ b, compile Digest.ofBytes options job request = .ok b ∧
      b.vertex.sources.versions.map Prod.fst = [.full .v120, .full .v330, .full .v410] ∧
      b.fragment.sources.versions.map Prod.fst = [.full .v120, .full .v330, .full .v410] := by
  have hvc : Closure.ofShader job.program job.vertex = .ok (.placed []) := rfl
  have hfc : Closure.ofShader job.program job.fragment = .ok (.placed []) := rfl
  obtain ⟨vs, hvs, rfl⟩ : ∃ vs,
      supportedVersions options job.program job.vertex (.placed []) request = .ok vs ∧
      vs = versions :=
    Except.exists_eq_ok_of_toOption_map (f := id) (by decide +kernel)
  obtain ⟨fs, hfs, rfl⟩ : ∃ fs,
      supportedVersions options job.program job.fragment (.placed []) request = .ok fs ∧
      fs = versions :=
    Except.exists_eq_ok_of_toOption_map (f := id) (by decide +kernel)
  have hashed : ∀ vc fc vs fs, Checked options job request vc fc vs fs →
      HashedApart Digest.ofBytes options job.program job.vertex vc (vs.inter fs) ∧
      HashedApart Digest.ofBytes options job.program job.fragment fc (vs.inter fs) := by
    rintro vc fc vs fs ⟨hvc', hfc', hvs', hfs'⟩
    cases hvc.symm.trans hvc'
    cases hfc.symm.trans hfc'
    cases hvs.symm.trans hvs'
    cases hfs.symm.trans hfs'
    constructor
    · exact hashedApart_of_lines
        [["attribute vec4 p;", "void main() \x7b", "gl_Position = p;", "\x7d"],
        ["in vec4 p;", "void main() \x7b", "gl_Position = p;", "\x7d"]] (by decide +kernel)
        (by decide +kernel)
    · exact hashedApart_of_lines [["void main() \x7b", "gl_FragDepth = 0.5;", "\x7d"]]
        (by decide +kernel) (by simp)
  obtain ⟨hok, hbundle, -⟩ := (compile_exact hashed).1 (by decide)
  obtain ⟨b, hb⟩ := hok.mpr ⟨_, _, _, _, ⟨hvc, hfc, hvs, hfs⟩, by decide,
    rendered_of_isOk (by decide +kernel), rendered_of_isOk (by decide +kernel)⟩
  obtain ⟨vc, fc, vs, fs, ⟨hvc', hfc', hvs', hfs'⟩, hbundles⟩ := hbundle b hb
  cases hvc.symm.trans hvc'
  cases hfc.symm.trans hfc'
  cases hvs.symm.trans hvs'
  cases hfs.symm.trans hfs'
  exact ⟨hashed, b, hb, hbundles.vertex.versions, hbundles.fragment.versions⟩

open Level in
/-- Two bits make one part of two texts, which leaves none for the fragment shader. -/
theorem compile_miscounts_unnamed :
    (∃ vc fc vs fs, Succeeds options job unnamed vc fc vs fs) ∧
      compile Digest.ofBytes options job unnamed = .error (.miscounted 2 2) := by
  have hclosure : Closure.ofShader job.program job.vertex = .ok (.placed []) ∧
      Closure.ofShader job.program job.fragment = .ok (.placed []) := ⟨rfl, rfl⟩
  obtain ⟨vs, hvs, hvertex⟩ : ∃ vs,
      supportedVersions options job.program job.vertex (.placed []) unnamed = .ok vs ∧
      vs = ⟨0x2020, 0⟩ :=
    Except.exists_eq_ok_of_toOption_map (f := id) (by decide +kernel)
  obtain ⟨fs, hfs, hfragment⟩ : ∃ fs,
      supportedVersions options job.program job.fragment (.placed []) unnamed = .ok fs ∧
      fs = ⟨0x2020, 0⟩ :=
    Except.exists_eq_ok_of_toOption_map (f := id) (by decide +kernel)
  subst hvertex hfragment
  have hsucceeds : Succeeds options job unnamed (.placed []) (.placed []) ⟨0x2020, 0⟩ ⟨0x2020, 0⟩ :=
    ⟨⟨hclosure.1, hclosure.2, hvs, hfs⟩, by decide, rendered_of_isOk (by decide +kernel),
      rendered_of_isOk (by decide +kernel)⟩
  exact ⟨⟨_, _, _, _, hsucceeds⟩, compile_eq_miscounted hsucceeds (by decide)⟩

end ShaderDialects.Package
