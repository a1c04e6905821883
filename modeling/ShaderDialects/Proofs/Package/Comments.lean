import ShaderDialects.Proofs.Lowering.Quiet
import ShaderDialects.Proofs.Package.Program
import ShaderDialects.Proofs.Package.Sharing

namespace ShaderDialects

open Text (OneLine)

namespace Text

theorem splitChars_line {l : List Char} (h : '\n' ∉ l) (rest : List Char) :
    splitChars (l ++ '\n' :: rest) = (l :: (splitChars rest).1, (splitChars rest).2) := by
  induction l with
  | nil => simp [splitChars]
  | cons c l ih =>
      obtain ⟨hc, hl⟩ := not_or.mp (mt List.mem_cons.mpr h)
      simp [splitChars, ih hl, Ne.symm hc]

theorem dropReturnChar_cons {c : Char} {cs : List Char} (h : cs ≠ []) :
    dropReturnChar (c :: cs) = c :: dropReturnChar cs := by
  cases cs with
  | nil => exact absurd rfl h
  | cons d cs =>
      rw [dropReturnChar, dropReturnChar, List.getLast?_cons_cons]
      split
      · rfl
      · rfl

theorem dropReturnChar_of_not_mem {cs : List Char} (h : '\r' ∉ cs) : dropReturnChar cs = cs :=
  if_neg fun hlast => h (List.mem_of_getLast? hlast)

end Text

namespace Package

open Legality (Request)

theorem textLines_joinLines {ls : List String} (h : ∀ l ∈ ls, OneLine l) :
    Text.textLines (joinLines ls).toList = ls.map fun l => Text.dropReturnChar l.toList := by
  have hsplit : Text.splitChars (joinLines ls).toList = (ls.map String.toList, []) := by
    rw [toList_joinLines]
    induction ls with
    | nil => rfl
    | cons l ls ih =>
        obtain ⟨hl, hls⟩ := List.forall_mem_cons.mp h
        rw [List.flatMap_cons, List.append_assoc, List.singleton_append, Text.splitChars_line hl,
          ih hls]
        rfl
  rw [Text.textLines, hsplit]
  simp

/-- What is left of a line that no comment is open at. -/
def lineCode (line : List Char) : List Char := collapse (scanLine false line).1

/-- The line stands by itself: no line ends in it, and no comment is open at its end. -/
structure Settled (line : String) : Prop where
  oneLine : OneLine line
  closes : (scanLine false (Text.dropReturnChar line.toList)).2 = false

theorem normalLines_of_closes {lines : List (List Char)}
    (h : ∀ line ∈ lines, (scanLine false line).2 = false) :
    normalLines false lines = (lines.map lineCode).filter fun code => !code.isEmpty := by
  induction lines with
  | nil => rfl
  | cons line lines ih =>
      obtain ⟨hline, hlines⟩ := List.forall_mem_cons.mp h
      rw [normalLines_cons, hline, ih hlines, List.map_cons, List.filter_cons, lineCode]
      cases (collapse (scanLine false line).1).isEmpty <;> rfl

def codeOf (ls : List String) : List (List Char) :=
  (ls.map fun l => lineCode (Text.dropReturnChar l.toList)).filter fun code => !code.isEmpty

theorem normalText_joinLines {ls : List String} (h : ∀ l ∈ ls, Settled l) :
    normalText (joinLines ls) = (codeOf ls).map String.ofList := by
  rw [normalText, textLines_joinLines fun l hl => (h l hl).oneLine, normalLines_of_closes, codeOf,
    List.map_map]
  · rfl
  · exact List.forall_mem_map.mpr fun l hl => (h l hl).closes

theorem scanLine_of_isQuiet {cs : List Char} (h : Text.isQuiet cs = true) :
    scanLine false cs = (cs, false) := by
  fun_induction Text.isQuiet cs with
  | case1 => rfl
  | case2 cs ih =>
      rw [scanLine, scanLine, ih h]
      all_goals simp
  | case3 c cs _ ih =>
      rw [Bool.and_eq_true] at h
      rw [scanLine, ih h.2]
      all_goals
        rintro _ rfl
        exact absurd h.1 (by decide)

theorem settled_of_quiet {line : String} (h : Text.Quiet line) : Settled line := by
  have hreturn : '\r' ∉ line.toList := Text.not_mem_of_isQuiet (by decide) (by decide) h
  refine ⟨h.oneLine, ?_⟩
  rw [Text.dropReturnChar_of_not_mem hreturn, scanLine_of_isQuiet h]

structure Codeless (line : String) : Prop where
  oneLine : OneLine line
  stripped : scanLine false (Text.dropReturnChar line.toList) = ([], false)

theorem codeless_empty : Codeless "" := ⟨by decide, rfl⟩

theorem codeless_comment {t : String} (h : OneLine t) : Codeless ("// " ++ t) := by
  refine ⟨OneLine.append (by decide) h, ?_⟩
  have hlist : ("// " ++ t).toList = '/' :: '/' :: ' ' :: t.toList := String.toList_append
  -- a carriage return at the end is dropped from the comment, never from the slashes
  rw [hlist, Text.dropReturnChar_cons (List.cons_ne_nil _ _),
    Text.dropReturnChar_cons (List.cons_ne_nil _ _)]
  rfl

/-- `Annotates ls ms`: the lines `ls` are `ms` with lines in between of which nothing is left. -/
inductive Annotates : List String → List String → Prop
  | nil : Annotates [] []
  | skip {l ls ms} (hl : Codeless l) (h : Annotates ls ms) : Annotates (l :: ls) ms
  | keep {ls ms} (l : String) (h : Annotates ls ms) : Annotates (l :: ls) (l :: ms)

namespace Annotates

variable {ls ls' ms ms' : List String}

theorem refl (ls : List String) : Annotates ls ls := by
  induction ls with
  | nil => exact .nil
  | cons l ls ih => exact .keep l ih

theorem append (h : Annotates ls ms) (h' : Annotates ls' ms') :
    Annotates (ls ++ ls') (ms ++ ms') := by
  induction h with
  | nil => exact h'
  | skip hl _ ih => exact .skip hl ih
  | keep l _ ih => exact .keep l ih

theorem flatMap {α : Type} {f g : α → List String} {xs : List α}
    (h : ∀ x ∈ xs, Annotates (f x) (g x)) : Annotates (xs.flatMap f) (xs.flatMap g) := by
  induction xs with
  | nil => exact .nil
  | cons x xs ih =>
      obtain ⟨hx, hxs⟩ := List.forall_mem_cons.mp h
      exact hx.append (ih hxs)

theorem ended (h : Annotates ls ms) :
    Annotates (if ls.isEmpty then [] else ls ++ [""]) (if ms.isEmpty then [] else ms ++ [""]) := by
  cases ls with
  | nil =>
      cases h
      exact .nil
  | cons l ls =>
      cases ms with
      | nil => exact h.append (.skip codeless_empty .nil)
      | cons m ms => exact h.append (.refl [""])

theorem settled (h : Annotates ls ms) (hm : ∀ m ∈ ms, Settled m) : ∀ l ∈ ls, Settled l := by
  induction h with
  | nil => exact hm
  | skip hl _ ih =>
      exact List.forall_mem_cons.mpr ⟨⟨hl.oneLine, by rw [hl.stripped]⟩, ih hm⟩
  | keep l _ ih =>
      obtain ⟨hl, hm⟩ := List.forall_mem_cons.mp hm
      exact List.forall_mem_cons.mpr ⟨hl, ih hm⟩

theorem codeOf_eq (h : Annotates ls ms) : codeOf ls = codeOf ms := by
  simp only [codeOf]
  induction h with
  | nil => rfl
  | skip hl _ ih =>
      rw [List.map_cons, List.filter_cons, lineCode, hl.stripped]
      exact ih
  | keep l _ ih => rw [List.map_cons, List.map_cons, List.filter_cons, List.filter_cons, ih]

theorem normalText_eq (h : Annotates ls ms) (hm : ∀ m ∈ ms, Settled m) :
    normalText (joinLines ls) = normalText (joinLines ms) := by
  rw [normalText_joinLines (h.settled hm), normalText_joinLines hm, h.codeOf_eq]

end Annotates

section Shader

open Dialect (Config Decl)

variable {d : Dialect.Shader}

theorem oneLine_versionName (v : Version) : OneLine v.name := by
  cases v with
  | embedded v => cases v <;> decide
  | full v => cases v <;> decide

theorem annotates_headerLines (hn : OneLine d.name) (config : Config) :
    Annotates (d.headerLines { config with sourceComments := true })
      (d.headerLines { config with sourceComments := false }) := by
  have hcomment : Codeless
      ("// " ++ d.stage.name ++ " shader `" ++ d.name ++ "` for " ++ d.version.name) := by
    have hstage : OneLine d.stage.name := by cases d.stage <;> decide
    have htext := (((hstage.append (by decide : OneLine " shader `")).append hn).append
      (by decide : OneLine "` for ")).append (oneLine_versionName d.version)
    simpa only [String.append_assoc] using codeless_comment htext
  exact ((((Annotates.refl _).append (.skip hcomment .nil)).append (.refl _)).append
    (.refl _)).append (.refl _)

theorem annotates_lines (hn : OneLine d.name) (ho : ∀ decl ∈ d.decls, OneLine decl.origin.text)
    (config : Config) :
    Annotates (d.lines { config with sourceComments := true })
      (d.lines { config with sourceComments := false }) := by
  have hheader := (annotates_headerLines hn config).ended
  refine (hheader.append (.flatMap fun decl hdecl => ?_)).append (.refl _)
  exact ((Annotates.skip (codeless_comment (ho decl hdecl)) .nil).append (.refl _)).append (.refl _)

/-- A shader of quiet pieces has the same normal text with comments and without, if all that the
comments show is on one line. -/
theorem normalText_text (Q : d.Quiet) (hn : OneLine d.name)
    (ho : ∀ decl ∈ d.decls, OneLine decl.origin.text) (config : Config) :
    normalText (d.text { config with sourceComments := true }) =
      normalText (d.text { config with sourceComments := false }) :=
  (annotates_lines hn ho config).normalText_eq fun line hline =>
    settled_of_quiet (Q.lines rfl line hline)

end Shader

section Factoring

variable {α β : Type}

theorem mapM_id_map (f : α → β) (xs : List (Except Error α)) :
    (xs.map (Except.map f)).mapM id = (xs.mapM id).map (List.map f) := by
  induction xs with
  | nil => rfl
  | cons x xs ih =>
      rw [List.map_cons, List.mapM_cons, List.mapM_cons, ih]
      cases x with
      | error e => rfl
      | ok a => cases xs.mapM id <;> rfl

def isFaulty : Except Error α → Bool
  | .error e => e.isFault
  | .ok _ => false

theorem collect_eq (results : List (Except Error α)) :
    collect results =
      match results.find? isFaulty with
      | some (.error e) => .error e
      | _ => results.mapM id :=
  rfl

theorem collect_map (f : α → β) (xs : List (Except Error α)) :
    collect (xs.map (Except.map f)) = (collect xs).map (List.map f) := by
  have hfault : isFaulty ∘ Except.map f = isFaulty := funext fun x => by cases x <;> rfl
  rw [collect_eq, collect_eq, List.find?_map, hfault]
  cases xs.find? isFaulty with
  | none => exact mapM_id_map f xs
  | some x =>
      cases x with
      | error e => rfl
      | ok a => exact mapM_id_map f xs

theorem mem_of_collect {results : List (Except Error α)} {xs : List α}
    (h : collect results = .ok xs) {x : α} (hx : x ∈ xs) : .ok x ∈ results := by
  rw [collect] at h
  split at h
  · cases h
  · obtain ⟨k, hk⟩ := List.mem_iff_getElem?.mp hx
    obtain ⟨y, hy, rfl⟩ := (Except.mapM_eq_ok.mp h).getElem?_left hk
    exact List.mem_of_getElem? hy

theorem chunks_map (f : α → β) (n : Nat) (xs : List α) :
    chunks n (xs.map f) = (chunks n xs).map (List.map f) := by
  fun_induction chunks n xs with
  | case1 xs h =>
      rw [chunks, if_pos (by simpa using h)]
      rfl
  | case2 xs h ih =>
      rw [chunks, if_neg (by simpa using h), List.map_cons, ← ih, List.map_take, List.map_drop]

end Factoring

section Lowered

variable (options : Options)

def lowerCell (p : Program) (s : Shader) (closure : Closure) (v : Version) :
    Except Error Dialect.Shader := do
  let lowered ← (Lowering.lower p s closure v options.table).mapError .lowering
  if options.verify then
    (Legality.checkLowered options.table lowered).mapError .legality
  return lowered

def lowerAll (job : Job) (request : Request) :
    Except Error (VersionSet × List Dialect.Shader) := do
  let vertexClosure ← (Closure.ofShader job.program job.vertex).mapError .closure
  let fragmentClosure ← (Closure.ofShader job.program job.fragment).mapError .closure
  let ofVertex ← supportedVersions options job.program job.vertex vertexClosure request
  let ofFragment ← supportedVersions options job.program job.fragment fragmentClosure request
  let versions := ofVertex.inter ofFragment
  if versions.isEmpty then
    throw (.noCommonVersion job.name ofVertex ofFragment)
  let lowered ← collect
    (versions.toList.map (lowerCell options job.program job.vertex vertexClosure)
      ++ versions.toList.map (lowerCell options job.program job.fragment fragmentClosure))
  return (versions, lowered)

variable {options}

theorem renderCell_eq (p : Program) (s : Shader) (closure : Closure) (v : Version) :
    renderCell options p s closure v =
      (lowerCell options p s closure v).map fun d => d.text options.config := by
  rw [renderCell, lowerCell]
  cases Lowering.lower p s closure v options.table with
  | error e => rfl
  | ok d =>
      rw [Except.bind_of_ok (Except.mapError_of_ok rfl),
        Except.bind_of_ok (Except.mapError_of_ok rfl)]
      cases options.verify with
      | false => rfl
      | true => cases Legality.checkLowered options.table d <;> rfl

theorem map_renderCell_eq (p : Program) (s : Shader) (closure : Closure) (vs : List Version) :
    vs.map (renderCell options p s closure) =
      (vs.map (lowerCell options p s closure)).map (Except.map fun d => d.text options.config) := by
  rw [List.map_map]
  exact List.map_congr_left fun v _ => renderCell_eq p s closure v

/-- Texts are made of lowered shaders at the very end, and only there does it matter whether they
have comments. -/
theorem compile_eq {H : Type} [DecidableEq H] (hash : ByteArray → H) (job : Job) (request : Request) :
    compile hash options job request = lowerAll options job request >>= fun r =>
      bundle hash options job r.1 (r.2.map fun d => d.text options.config) := by
  rw [compile, lowerAll]
  cases Closure.ofShader job.program job.vertex with
  | error e => rfl
  | ok vc =>
  cases Closure.ofShader job.program job.fragment with
  | error e => rfl
  | ok fc =>
  rw [Except.bind_of_ok (Except.mapError_of_ok rfl), Except.bind_of_ok (Except.mapError_of_ok rfl),
    Except.bind_of_ok (Except.mapError_of_ok rfl), Except.bind_of_ok (Except.mapError_of_ok rfl)]
  cases supportedVersions options job.program job.vertex vc request with
  | error e => rfl
  | ok vs =>
  cases supportedVersions options job.program job.fragment fc request with
  | error e => rfl
  | ok fs =>
  simp only [Except.bind_of_ok rfl]
  cases (vs.inter fs).isEmpty with
  | true => rfl
  | false =>
      simp only [options.each_eq_map, List.map_append, List.map_map, Function.comp_def]
      rw [map_renderCell_eq, map_renderCell_eq, ← List.map_append, collect_map]
      cases collect ((vs.inter fs).toList.map (lowerCell options job.program job.vertex vc) ++
        (vs.inter fs).toList.map (lowerCell options job.program job.fragment fc)) <;> rfl

theorem lower_of_lowerCell {p : Program} {s : Shader} {closure : Closure} {v : Version}
    {d : Dialect.Shader} (h : lowerCell options p s closure v = .ok d) :
    Lowering.lower p s closure v options.table = .ok d := by
  obtain ⟨lowered, hl, h⟩ := Except.bind_eq_ok.mp h
  rw [Except.mapError_eq_ok] at hl
  cases hv : options.verify with
  | false =>
      rw [hv] at h
      cases h
      exact hl
  | true =>
      rw [hv] at h
      obtain ⟨_, -, h⟩ := Except.bind_eq_ok.mp h
      cases h
      exact hl

theorem lower_of_lowerAll {job : Job} {request : Request} {r : VersionSet × List Dialect.Shader}
    (h : lowerAll options job request = .ok r) {d : Dialect.Shader} (hd : d ∈ r.2) :
    ∃ s closure v, (s = job.vertex ∨ s = job.fragment) ∧
      Closure.ofShader job.program s = .ok closure ∧
      Lowering.lower job.program s closure v options.table = .ok d := by
  obtain ⟨vc, hvc, h⟩ := Except.bind_eq_ok.mp h
  obtain ⟨fc, hfc, h⟩ := Except.bind_eq_ok.mp h
  obtain ⟨vs, -, h⟩ := Except.bind_eq_ok.mp h
  obtain ⟨fs, -, h⟩ := Except.bind_eq_ok.mp h
  cases hempty : (vs.inter fs).isEmpty with
  | true =>
      simp only [hempty] at h
      cases h
  | false =>
      simp only [hempty] at h
      obtain ⟨lowered, hl, h⟩ := Except.bind_eq_ok.mp h
      cases h
      rcases List.mem_append.mp (mem_of_collect hl hd) with hmem | hmem
      · obtain ⟨v, -, hv⟩ := List.mem_map.mp hmem
        exact ⟨_, vc, v, .inl rfl, Except.mapError_eq_ok.mp hvc, lower_of_lowerCell hv⟩
      · obtain ⟨v, -, hv⟩ := List.mem_map.mp hmem
        exact ⟨_, fc, v, .inr rfl, Except.mapError_eq_ok.mp hfc, lower_of_lowerCell hv⟩

end Lowered

section Texts

variable {H : Type} [DecidableEq H] {hash : ByteArray → H} {options : Options} {p : Program}
  {s : Shader} {vs : VersionSet}

theorem insertAll_texts {texts texts' : List String}
    (h : texts.map normalText = texts'.map normalText) (versions : List Version)
    (c : Compacted H) :
    c.insertAll hash (versions.zipWith (fun v text => (v, Text.Source.ofString text)) texts) =
      c.insertAll hash (versions.zipWith (fun v text => (v, Text.Source.ofString text)) texts') := by
  induction versions generalizing texts texts' c with
  | nil => rfl
  | cons v versions ih =>
      cases texts with
      | nil =>
          obtain rfl := List.map_eq_nil_iff.mp h.symm
          rfl
      | cons t texts =>
          cases texts' with
          | nil => cases h
          | cons t' texts' =>
              obtain ⟨ht, hts⟩ := List.cons_eq_cons.mp h
              rw [List.zipWith_cons_cons, List.zipWith_cons_cons, Compacted.insertAll,
                Compacted.insertAll, normalize_ofString, normalize_ofString, ht]
              exact ih hts _

theorem packageShader_congr {texts texts' : List String}
    (h : texts.map normalText = texts'.map normalText) :
    packageShader hash options p s vs texts = packageShader hash options p s vs texts' := by
  have hlen : texts.length = texts'.length := by simpa using congrArg List.length h
  simp only [packageShader, Compacted.ofSources, insertAll_texts h, List.length_zipWith, hlen]

theorem packageShader_alike {α : Type} (hash : ByteArray → H) (options : Options) (p : Program)
    (s : Shader) (vs : VersionSet) (xs : List α) (f g : α → String) :
    ∃ c c' : Compacted H, c.versions.map Prod.fst = c'.versions.map Prod.fst ∧
      packageShader hash options p s vs (xs.map f) =
        ((Metadata.ofShader p s options.table).mapError fun f => .lowering (.fault f)).map
          (fun metadata => ⟨metadata, c⟩) ∧
      packageShader hash options p s vs (xs.map g) =
        ((Metadata.ofShader p s options.table).mapError fun f => .lowering (.fault f)).map
          (fun metadata => ⟨metadata, c'⟩) := by
  obtain ⟨c, hc, hf⟩ := packageShader_eq hash options p s vs (xs.map f)
  obtain ⟨c', hc', hg⟩ := packageShader_eq hash options p s vs (xs.map g)
  refine ⟨c, c', ?_, hf, hg⟩
  rw [hc, hc', List.length_map, List.length_map]

end Texts

/-- A packaged shader without its texts: what it shows, and the versions it has a text for. -/
def PackagedShader.outline {H : Type} (s : PackagedShader H) : Metadata × List Version :=
  (s.metadata, s.sources.versions.map Prod.fst)

def Bundle.outline {H : Type} (b : Bundle H) :
    String × VersionSet × (Metadata × List Version) × (Metadata × List Version) :=
  (b.name, b.versions, b.vertex.outline, b.fragment.outline)

section Bundle

variable {H : Type} [DecidableEq H] {hash : ByteArray → H} {options : Options} {job : Job}
  {vs : VersionSet} {α : Type} {xs : List α} {f g : α → String}

theorem bundle_outline (f g : α → String) (xs : List α) :
    (bundle hash options job vs (xs.map f)).map Bundle.outline =
      (bundle hash options job vs (xs.map g)).map Bundle.outline := by
  rw [bundle, bundle, chunks_map, chunks_map, List.length_map, List.length_map]
  rcases chunks vs.size xs with - | ⟨as, - | ⟨bs, rest⟩⟩
  · rfl
  · rfl
  · obtain ⟨c, c', hc, hvertex, hvertex'⟩ :=
      packageShader_alike hash options job.program job.vertex vs as f g
    obtain ⟨e, e', he, hfragment, hfragment'⟩ :=
      packageShader_alike hash options job.program job.fragment vs bs f g
    simp only [List.map_cons, hvertex, hvertex', hfragment, hfragment']
    cases Metadata.ofShader job.program job.vertex options.table with
    | error fault => rfl
    | ok m =>
        cases Metadata.ofShader job.program job.fragment options.table with
        | error fault => rfl
        | ok m' =>
            refine congrArg Except.ok ?_
            simp only [Bundle.outline, PackagedShader.outline, hc, he]

theorem bundle_congr (h : ∀ x ∈ xs, normalText (f x) = normalText (g x)) :
    bundle hash options job vs (xs.map f) = bundle hash options job vs (xs.map g) := by
  have hmap : xs.map (normalText ∘ f) = xs.map (normalText ∘ g) := List.map_congr_left h
  have hchunks := congrArg (chunks vs.size) hmap
  rw [chunks_map, chunks_map] at hchunks
  rw [bundle, bundle, chunks_map, chunks_map, List.length_map, List.length_map]
  rcases hc : chunks vs.size xs with - | ⟨as, - | ⟨bs, rest⟩⟩
  · rfl
  · rfl
  · simp only [hc, List.map_cons, List.cons.injEq] at hchunks
    have has : (as.map f).map normalText = (as.map g).map normalText := by
      simpa only [List.map_map] using hchunks.1
    have hbs : (bs.map f).map normalText = (bs.map g).map normalText := by
      simpa only [List.map_map] using hchunks.2.1
    simp only [List.map_cons, packageShader_congr has, packageShader_congr hbs]

end Bundle

def Options.commenting (options : Options) (comments : Bool) : Options :=
  { options with config := { options.config with sourceComments := comments } }

def OneLineNames (p : Program) (s : Shader) : Prop :=
  ∀ closure, Closure.ofShader p s = .ok closure → ∀ n ∈ toldNames p s closure, OneLine n

variable {H : Type} [DecidableEq H] (hash : ByteArray → H)

theorem compile_commenting (options : Options) (job : Job) (request : Request) (comments : Bool) :
    compile hash (options.commenting comments) job request =
      lowerAll options job request >>= fun r => bundle hash options job r.1
        (r.2.map fun d => d.text { options.config with sourceComments := comments }) :=
  compile_eq hash job request

/-- With the standard table, comments make no difference to whether a job is compiled, nor to the
error it fails with, nor to anything of its bundle besides the texts. Texts are the same too where
each name that a comment shows is on one line. -/
theorem compile_comments (options : Options) (htable : options.table = .standard) (job : Job)
    (request : Request) :
    (∀ e, compile hash (options.commenting true) job request = .error e ↔
      compile hash (options.commenting false) job request = .error e) ∧
    (∀ b b', compile hash (options.commenting true) job request = .ok b →
      compile hash (options.commenting false) job request = .ok b' → b.outline = b'.outline) ∧
    (OneLineNames job.program job.vertex → OneLineNames job.program job.fragment →
      compile hash (options.commenting true) job request =
        compile hash (options.commenting false) job request) := by
  have houtline : (compile hash (options.commenting true) job request).map Bundle.outline =
      (compile hash (options.commenting false) job request).map Bundle.outline := by
    rw [compile_commenting, compile_commenting]
    cases lowerAll options job request with
    | error e => rfl
    | ok r => exact bundle_outline _ _ r.2
  refine ⟨fun e => ?_, fun b b' hb hb' => ?_, fun hvertex hfragment => ?_⟩
  · have hmap (x : Except Error (Bundle H)) : x = .error e ↔ x.map Bundle.outline = .error e := by
      cases x <;> simp [Except.map]
    rw [hmap, houtline, ← hmap]
  · rw [hb, hb'] at houtline
    exact Except.ok.inj houtline
  · rw [compile_commenting, compile_commenting]
    cases hr : lowerAll options job request with
    | error e => rfl
    | ok r =>
        refine bundle_congr fun d hd => ?_
        obtain ⟨s, closure, v, hs, hclosure, hlower⟩ := lower_of_lowerAll hr hd
        have hnames : ∀ n ∈ toldNames job.program s closure, OneLine n := by
          rcases hs with rfl | rfl
          · exact hvertex closure hclosure
          · exact hfragment closure hclosure
        have hquiet : options.table.Quiet := htable ▸ Table.quiet_standard
        obtain ⟨hname, horigins⟩ := Lowering.oneLine_lower hlower hquiet hnames
        exact normalText_text (Lowering.quiet_lower hlower hquiet) hname horigins options.config

namespace Commented

/-! Comments tell of a record, a function and an emulation in one job, and of a shader with a line
feed in its name in the other. -/

abbrev float : Ty := .leaf .float

abbrev vec4 : Ty := .leaf .vec4

def placed (name : String) : Shader where
  name := name
  stage := .vertex
  inputs := [⟨"place", vec4, {}⟩]
  outputs := [⟨⟨"position", vec4, {}⟩, .position⟩]
  assignments := [⟨0, .input ⟨vec4, {}⟩ 0⟩]

def filled (value : Expr) : Shader where
  name := "filled"
  stage := .fragment
  outputs := [⟨⟨"pixel", float, {}⟩, .depth⟩]
  assignments := [⟨0, value⟩]

def one : Expr := .literal ⟨float, {}⟩ (.float ⟨0x3f800000⟩)

def job : Job where
  name := "tinted"
  program := {
    records := [⟨"light", [⟨"level", float⟩], {}⟩]
    terms := [
      ⟨"curve", .external "tanh" (.function [.float] .float), {}⟩,
      ⟨"dim", .function [⟨0, "light", .record 0⟩] float
        (.apply ⟨float, {}⟩ 0 [.field ⟨float, {}⟩ (.bound ⟨.record 0, {}⟩ 0) 0]), {}⟩] }
  vertex := placed "placed"
  fragment := filled (.apply ⟨float, {}⟩ 1 [.construct ⟨.record 0, {}⟩ 0 [one]])

def broken : Job where
  name := "tinted"
  program := {}
  vertex := placed "placed\nhere"
  fragment := filled one

def request (v : FullVersion) : Request where
  full := .exactly (VersionSet.full (.ofList [.full v]))
  embedded := .skip

def vertexLines (r : VersionSet × List Dialect.Shader) (comments : Bool) :
    Option (List (List String)) :=
  let texts := r.2.map fun d => d.text { sourceComments := comments }
  (bundle Digest.ofBytes {} broken r.1 texts).toOption.map
    fun b => b.vertex.sources.blobs.map Prod.snd

def code : List String := ["in vec4 place;", "void main() \x7b", "gl_Position = place;", "\x7d"]

theorem vertex_names : OneLineNames job.program job.vertex := by
  intro closure h
  obtain rfl : (.placed [] : Closure) = closure := Except.ok.inj h
  decide

theorem fragment_names : OneLineNames job.program job.fragment := by
  intro closure h
  obtain rfl : (.placed [.record 0, .term 0, .term 1] : Closure) = closure := Except.ok.inj h
  decide

end Commented

open Commented in
theorem compile_comments_dimmed :
    ∃ b, compile Digest.ofBytes (Options.commenting {} true) job (request .v120) = .ok b ∧
      compile Digest.ofBytes (Options.commenting {} false) job (request .v120) = .ok b := by
  obtain ⟨b, hb⟩ : ∃ b,
      compile Digest.ofBytes (Options.commenting {} false) job (request .v120) = .ok b :=
    Except.exists_eq_ok_of_isOk (by decide +kernel)
  obtain ⟨-, -, heq⟩ := compile_comments Digest.ofBytes {} rfl job (request .v120)
  exact ⟨b, (heq vertex_names fragment_names).trans hb, hb⟩

open Commented in
/-- The part of a name after a line feed is packaged as code. -/
theorem compile_comments_broken :
    ∃ b b', compile Digest.ofBytes (Options.commenting {} true) broken (request .v330) = .ok b ∧
      compile Digest.ofBytes (Options.commenting {} false) broken (request .v330) = .ok b' ∧
      b.vertex.sources.blobs.map Prod.snd = ["here` for GLSL 330" :: code] ∧
      b'.vertex.sources.blobs.map Prod.snd = [code] := by
  have hlines : (lowerAll {} broken (request .v330)).toOption.map
      (fun r => (vertexLines r true, vertexLines r false)) =
        some (some ["here` for GLSL 330" :: code], some [code]) := by
    decide +kernel
  obtain ⟨r, hr, hlines⟩ := Except.exists_eq_ok_of_toOption_map hlines
  obtain ⟨hcommented, hplain⟩ := Prod.mk.inj hlines
  obtain ⟨b, hb, hblobs⟩ := Except.exists_eq_ok_of_toOption_map hcommented
  obtain ⟨b', hb', hblobs'⟩ := Except.exists_eq_ok_of_toOption_map hplain
  have hcompile (comments : Bool) :=
    (compile_commenting Digest.ofBytes {} broken (request .v330) comments).trans
      (Except.bind_of_ok hr _)
  exact ⟨b, b', (hcompile true).trans hb, (hcompile false).trans hb', hblobs, hblobs'⟩

end Package

end ShaderDialects
