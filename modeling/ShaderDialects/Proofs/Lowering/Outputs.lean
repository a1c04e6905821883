import ShaderDialects.Proofs.Lowering.Shader

namespace ShaderDialects

namespace Dialect

def Storage.isLegacy : Storage → Bool
  | .attribute | .varying => true
  | .input _ | .output _ _ => false

def Storage.isFlat : Storage → Bool
  | .input flat | .output flat _ => flat
  | .attribute | .varying => false

def Sink.isColor : Sink → Bool
  | fragColor | fragData _ => true
  | _ => false

def Shader.interpolated (d : Shader) : List InterfaceVar :=
  match d.stage with
  | .vertex => d.outputs
  | .fragment => d.inputs

end Dialect

namespace Lowering

open Dialect (InterfaceVar OutputWrite Sink)

/-- Where an output goes, if its identifier is `ident`. -/
inductive WrittenTo (s : Shader) (v : Version) (o : Output) (ident : String) : Sink → Prop where
  | varying (hs : s.stage = .vertex) (ht : o.target = .varying) : WrittenTo s v o ident (.var ident)
  | position (hs : s.stage = .vertex) (ht : o.target = .position) : WrittenTo s v o ident .position
  | depth (hs : s.stage = .fragment) (ht : o.target = .depth) : WrittenTo s v o ident .fragDepth
  | attachment {n} (hs : s.stage = .fragment) (ht : o.target = .attachment n)
      (hv : v.isLegacy = false) : WrittenTo s v o ident (.var ident)
  | color {n} (hs : s.stage = .fragment) (ht : o.target = .attachment n) (hv : v.isLegacy = true)
      (ha : s.attachments = [0]) : WrittenTo s v o ident .fragColor
  | data {n} (hs : s.stage = .fragment) (ht : o.target = .attachment n) (hv : v.isLegacy = true)
      (ha : s.attachments ≠ [0]) : WrittenTo s v o ident (.fragData n)

variable {g : Setting} {c : Context} {o : Output} {ident : String} {x : InterfaceVar}

theorem writtenTo_of_sink {sink : Sink} (h : g.sink o ident = .ok sink) :
    WrittenTo g.shader g.version o ident sink := by
  rw [Setting.sink] at h
  split at h
  next hs ht =>
    cases h
    exact .varying hs ht
  next hs ht =>
    cases h
    exact .position hs ht
  next hs ht =>
    cases h
    exact .depth hs ht
  next hs ht =>
    split at h
    next hv =>
      cases h
      exact .attachment hs ht (by simpa using hv)
    next hv =>
      have hv : g.version.isLegacy = true := by simpa using hv
      split at h
      next ha =>
        cases h
        exact .color hs ht hv ha
      next ha =>
        cases h
        exact .data hs ht hv ha
  next => cases h

section Variables

theorem Presents.exists_variable {d : Dialect.Shader} (P : Presents g d) {k : Nat} {leaf : Leaf}
    {n : String} (ho : g.outputs[k]? = some (o, ident)) (ht : o.ty = .leaf leaf)
    (hs : g.sink o ident = .ok (.var n)) : ∃ x ∈ d.outputs, x.name = n ∧ x.leaf = leaf := by
  obtain ⟨storage, hstorage⟩ : ∃ storage, g.outputStorage? leaf o.target = some storage := by
    cases writtenTo_of_sink hs with
    | varying _ ht | attachment _ ht => exact ⟨_, by rw [ht, Setting.outputStorage?]⟩
  obtain rfl := name_of_sink hs
  refine ⟨⟨n, leaf, storage⟩, P.mem_outputs.mpr ⟨k, o, n, ho, ?_⟩, rfl, rfl⟩
  exact outputVar?_eq_ok.mpr ⟨.var n, hs, .inl ⟨rfl, leaf, ht, by rw [hstorage]; rfl⟩⟩

theorem storage_of_outputVar? (h : g.outputVar? o ident = .ok (some x)) :
    x.storage.isLegacy = g.version.isLegacy ∧
      (g.shader.stage = .vertex → x.storage.isLegacy = false →
        x.storage.isFlat = x.leaf.isInteger) := by
  obtain ⟨sink, hsink, ⟨rfl, leaf, -, hx⟩ | ⟨-, hx⟩⟩ := outputVar?_eq_ok.mp h
  · cases writtenTo_of_sink hsink with
    | varying _ ht =>
        rw [ht] at hx
        cases hx
        cases g.version.isLegacy <;> simp [Dialect.Storage.isLegacy, Dialect.Storage.isFlat]
    | attachment hs ht hv =>
        rw [ht] at hx
        cases hx
        exact ⟨hv.symm, fun hvertex => by cases hs.symm.trans hvertex⟩
  · cases hx

theorem storage_of_inputVar {q : Slot} (h : g.inputVar q ident = .ok x) :
    x.storage.isLegacy = g.version.isLegacy ∧
      (g.shader.stage = .fragment → x.storage.isLegacy = false →
        x.storage.isFlat = x.leaf.isInteger) := by
  obtain ⟨leaf, -, rfl⟩ := inputVar_eq_ok.mp h
  simp only [Setting.inputStorage]
  cases g.shader.stage <;> cases g.version.isLegacy <;>
    simp [Dialect.Storage.isLegacy, Dialect.Storage.isFlat]

variable {d : Dialect.Shader} (P : Presents g d)
include P

theorem Presents.storage_input (hx : x ∈ d.inputs) :
    x.storage.isLegacy = g.version.isLegacy ∧
      (d.stage = .fragment → x.storage.isLegacy = false → x.storage.isFlat = x.leaf.isInteger) := by
  obtain ⟨q, _, ident, hvar⟩ := P.input_of_mem hx
  rw [P.stage]
  exact storage_of_inputVar hvar

theorem Presents.storage_output (hx : x ∈ d.outputs) :
    x.storage.isLegacy = g.version.isLegacy ∧
      (d.stage = .vertex → x.storage.isLegacy = false → x.storage.isFlat = x.leaf.isInteger) := by
  obtain ⟨k, o, ident, _, hvar⟩ := P.mem_outputs.mp hx
  rw [P.stage]
  exact storage_of_outputVar? hvar

end Variables

structure Carries (p : Program) (s : Shader) (d : Dialect.Shader) (a : Assignment) (w : OutputWrite)
    (o : Output) : Prop where
  output : s.outputs[a.output]? = some o
  leaf : o.ty = .leaf w.leaf
  value : ∃ c σ ss σ', c.program = p ∧ c.shader = s ∧ Lowers c (.value a.value w.value) σ ss σ'
  declared : ∀ n, w.sink = .var n → ∃ x ∈ d.outputs, x.name = n ∧ x.leaf = w.leaf
  color : w.sink = .fragColor → o.target = .attachment 0
  data : ∀ k, w.sink = .fragData k → o.target = .attachment k
  legacy : w.sink.isColor = true → d.version.isLegacy = true

theorem LowersAssignments.carries {d : Dialect.Shader} (P : Presents g d)
    (hv : d.version = g.version) (hp : c.program = g.program) (hs : c.shader = g.shader)
    {as : List Assignment} {σ σ' : Scope} {ws : List OutputWrite} {ss : List Dialect.Stmt}
    (h : LowersAssignments g c as σ ws ss σ') :
    List.Forall₂ (fun a w => ∃ o, Carries g.program g.shader d a w o) as ws := by
  induction h with
  | nil => exact .nil
  | @cons a as o ident leaf sink x ws σ σ₁ σ₂ ss₁ ss₂ ho ht hx hk _ ih =>
      have hout := (List.getElem?_zip_eq_some.mp ho).1
      have hwritten := writtenTo_of_sink hk
      refine .cons ⟨o, hout, ht, ⟨c, σ, ss₁, σ₁, hp, hs, hx⟩, ?_, ?_, ?_, ?_⟩ ih
      · rintro n rfl
        exact P.exists_variable ho ht hk
      · rintro rfl
        cases hwritten with
        | color _ htarget _ ha =>
            -- The only attachment is 0, and the output is one.
            have hmem : _ ∈ g.shader.attachments :=
              List.mem_filterMap.mpr ⟨o, List.mem_of_getElem? hout, by rw [htarget]⟩
            rw [ha] at hmem
            rw [htarget, List.mem_singleton.mp hmem]
      · rintro k rfl
        cases hwritten with
        | data _ htarget => exact htarget
      · rw [hv]
        intro hcolor
        cases hwritten with
        | color _ _ hv | data _ _ hv => exact hv
        | _ => cases hcolor

/-- Whether colors go to one builtin variable or to an array is decided for all of them. -/
theorem LowersAssignments.exclusive {as : List Assignment} {σ σ' : Scope} {ws : List OutputWrite}
    {ss : List Dialect.Stmt} (h : LowersAssignments g c as σ ws ss σ') {w w' : OutputWrite}
    (hw : w ∈ ws) (hw' : w' ∈ ws) (hcolor : w.sink = .fragColor) (k : Nat) :
    w'.sink ≠ .fragData k := by
  have hwritten {w : OutputWrite} (hw : w ∈ ws) :
      ∃ o ident, WrittenTo g.shader g.version o ident w.sink := by
    obtain ⟨j, hj⟩ := List.mem_iff_getElem?.mp hw
    obtain ⟨_, _, o, ident, _, _, hk⟩ := h.writes.getElem?_left hj
    exact ⟨o, ident, writtenTo_of_sink hk⟩
  intro hdata
  obtain ⟨_, _, hone⟩ := hwritten hw
  obtain ⟨_, _, hmany⟩ := hwritten hw'
  rw [hcolor] at hone
  rw [hdata] at hmany
  cases hone with
  | color _ _ _ ha =>
      cases hmany with
      | data _ _ _ hne => exact hne ha

/-- The outputs of a shader are written as they are assigned, and all that is written or declared
is there in the version. -/
structure WritesOutputs (p : Program) (s : Shader) (v : Version) (d : Dialect.Shader) : Prop where
  version : d.version = v
  writes : List.Forall₂ (fun a w => ∃ o, Carries p s d a w o) s.assignments d.main.outputs
  exclusive : ∀ w ∈ d.main.outputs, ∀ w' ∈ d.main.outputs, ∀ k,
    w.sink = .fragColor → w'.sink ≠ .fragData k
  storage : ∀ x ∈ d.inputs ++ d.outputs, x.storage.isLegacy = d.version.isLegacy
  flat : ∀ x ∈ d.interpolated, x.storage.isLegacy = false → x.leaf.isInteger = true →
    x.storage.isFlat = true

/-- Whatever is lowered has one write for each assignment, in order, to where its output goes. What
goes to a variable goes to one that is declared with the same type; colors go to builtin variables
in legacy versions only, as `gl_FragColor` if the only one is for attachment 0 and by attachment
otherwise; and integers that are interpolated are flat. -/
theorem writesOutputs_of_lower {p : Program} {s : Shader} {closure : Closure} {v : Version}
    {table : Table} {d : Dialect.Shader} (h : lower p s closure v table = .ok d) :
    WritesOutputs p s v d := by
  obtain ⟨i, supply, -, progress, -, hmain, P, -, hv, -⟩ := lower_eq_ok.mp h
  obtain ⟨_, _, _, _, -, ha, -⟩ := lowerMain_parts hmain
  refine ⟨hv, ha.carries P hv rfl rfl, fun w hw w' hw' k hk => ha.exclusive hw hw' hk k, ?_, ?_⟩
  · rw [hv]
    exact List.forall_mem_append.mpr
      ⟨fun x hx => (P.storage_input hx).1, fun x hx => (P.storage_output hx).1⟩
  · intro x hx hmodern hinteger
    rw [Dialect.Shader.interpolated] at hx
    rw [← hinteger]
    cases hs : d.stage with
    | vertex =>
        rw [hs] at hx
        exact (P.storage_output hx).2 hs hmodern
    | fragment =>
        rw [hs] at hx
        exact (P.storage_input hx).2 hs hmodern

namespace Glowing

/-! Two colors and a depth, one of the colors assigned twice; and a vertex that passes a number. -/

abbrev vec4 : Ty := .leaf .vec4

abbrev int : Ty := .leaf .int

def colors : Shader where
  name := "colors"
  stage := .fragment
  inputs := [⟨"place", vec4, {}⟩]
  outputs := [⟨⟨"color", vec4, {}⟩, .attachment 0⟩, ⟨⟨"glow", vec4, {}⟩, .attachment 1⟩,
    ⟨⟨"depth", .leaf .float, {}⟩, .depth⟩]
  assignments := [⟨1, .input ⟨vec4, {}⟩ 0⟩, ⟨0, .input ⟨vec4, {}⟩ 0⟩,
    ⟨2, .literal ⟨.leaf .float, {}⟩ (.float ⟨0⟩)⟩, ⟨1, .input ⟨vec4, {}⟩ 0⟩]

def counts : Shader where
  name := "counts"
  stage := .vertex
  inputs := [⟨"place", vec4, {}⟩, ⟨"index", int, {}⟩]
  outputs := [⟨⟨"position", vec4, {}⟩, .position⟩, ⟨⟨"count", int, {}⟩, .varying⟩]
  assignments := [⟨1, .input ⟨int, {}⟩ 1⟩, ⟨0, .input ⟨vec4, {}⟩ 0⟩]

end Glowing

open Glowing in
theorem writesOutputs_of_lower_glowing :
    (∃ d, lower {} colors (.placed []) (.full .v110) .empty = .ok d ∧
      d.main.outputs.map OutputWrite.sink = [.fragData 1, .fragData 0, .fragDepth, .fragData 1] ∧
      WritesOutputs {} colors (.full .v110) d) ∧
    ∃ d, lower {} counts (.placed []) (.full .v330) .empty = .ok d ∧
      d.interpolated.map InterfaceVar.storage = [.output true none] ∧
      WritesOutputs {} counts (.full .v330) d := by
  have hcolors : (lower {} colors (.placed []) (.full .v110) .empty).map
      (fun d => d.main.outputs.map OutputWrite.sink) =
      .ok [.fragData 1, .fragData 0, .fragDepth, .fragData 1] := rfl
  have hcounts : (lower {} counts (.placed []) (.full .v330) .empty).map
      (fun d => d.interpolated.map InterfaceVar.storage) = .ok [.output true none] := rfl
  obtain ⟨d, hd, hsinks⟩ := Except.map_eq_ok.mp hcolors
  obtain ⟨e, he, hstorage⟩ := Except.map_eq_ok.mp hcounts
  exact ⟨⟨d, hd, hsinks, writesOutputs_of_lower hd⟩, e, he, hstorage, writesOutputs_of_lower he⟩

end Lowering

end ShaderDialects
