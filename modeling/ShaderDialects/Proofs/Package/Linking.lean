import ShaderDialects.Proofs.Identifier.Agreement
import ShaderDialects.Proofs.Identifier.Interface
import ShaderDialects.Proofs.Lowering.Shader
import ShaderDialects.Proofs.Package.Program

namespace ShaderDialects.Package

open Identifier (Apart Supply sanitize)
open Legality (Request)

section Naming

variable {supply : Supply} {p : Program} {s : Shader} {table : Table} {m : Metadata}

theorem nameItems_getElem? {slots : List Slot} {k : Nat} {slot : Slot}
    (h : slots[k]? = some slot) :
    (Interface.nameItems supply slots).1[k]? = some ⟨slot.name,
      ((supply.freshAll id ((slots.map Slot.name).take k)).2.fresh slot.name).1, slot.ty⟩ := by
  have hitems : (Interface.nameItems supply slots).1 =
      ((supply.names id (slots.map Slot.name)).zip slots).map fun named =>
        ⟨named.2.name, named.1, named.2.ty⟩ := by
    rw [← Supply.names_map, ← Supply.freshAll_fst]
    rfl
  have hname : (supply.names id (slots.map Slot.name))[k]? =
      some ((supply.freshAll id ((slots.map Slot.name).take k)).2.fresh slot.name).1 := by
    rw [Supply.names_getElem?, List.getElem?_map, h]
    rfl
  have hzip : ((supply.names id (slots.map Slot.name)).zip slots)[k]? = some (_, slot) :=
    List.getElem?_zip_eq_some.mpr ⟨hname, h⟩
  rw [hitems, List.getElem?_map, hzip]
  rfl

/-- The labels of a shader that are named before its outputs from place `j` on. -/
def labelsBefore (s : Shader) (j : Nat) : List String :=
  s.inputs.map Slot.name ++ ((s.outputs.map Output.toSlot).map Slot.name).take j

theorem metadata_eq_ok (h : Metadata.ofShader p s table = .ok m) :
    ∃ i supply, Interface.assign p s (.forShader table.nativeNames) = .ok (i, supply) ∧
      m.inputs = i.inputs ∧ m.outputs = i.outputs := by
  obtain ⟨i, hi, h⟩ := Except.bind_eq_ok.mp h
  obtain ⟨⟨i', supply⟩, hassign, rfl⟩ := Except.map_eq_ok.mp hi
  obtain rfl := Except.pure_eq_ok.mp h
  exact ⟨i', supply, hassign, rfl, rfl⟩

theorem items_of_assign {i : Interface} {left : Supply}
    (h : Interface.assign p s supply = .ok (i, left)) :
    i.inputs = (Interface.nameItems supply s.inputs).1 ∧
      i.outputs = (Interface.nameItems (supply.freshAll id (s.inputs.map Slot.name)).2
        (s.outputs.map Output.toSlot)).1 := by
  obtain ⟨uss, -, h⟩ := Interface.assign_eq_ok.mp h
  obtain rfl : (Interface.named supply s uss).1 = i := by rw [h]
  rw [← Interface.nameItems_supply]
  exact ⟨rfl, rfl⟩

theorem input_item {i : Interface} {left : Supply}
    (h : Interface.assign p s supply = .ok (i, left)) {k : Nat} {input : Slot}
    (hk : s.inputs[k]? = some input) :
    i.inputs[k]? = some ⟨input.name,
      ((supply.freshAll id ((s.inputs.map Slot.name).take k)).2.fresh input.name).1, input.ty⟩ := by
  rw [(items_of_assign h).1]
  exact nameItems_getElem? hk

theorem output_item {i : Interface} {left : Supply}
    (h : Interface.assign p s supply = .ok (i, left)) {k : Nat} {output : Output}
    (hk : s.outputs[k]? = some output) :
    i.outputs[k]? = some ⟨output.name,
      ((supply.freshAll id (labelsBefore s k)).2.fresh output.name).1, output.ty⟩ := by
  have hslot : (s.outputs.map Output.toSlot)[k]? = some output.toSlot := by
    rw [List.getElem?_map, hk]
    rfl
  rw [(items_of_assign h).2, labelsBefore, Supply.freshAll_append]
  exact nameItems_getElem? hslot

theorem take_inputs_idents {i : Interface} {left : Supply}
    (h : Interface.assign p s supply = .ok (i, left)) (k : Nat) :
    (i.inputs.take k).map Item.ident = supply.names id ((s.inputs.map Slot.name).take k) := by
  rw [(items_of_assign h).1, List.map_take, Interface.nameItems_idents, Supply.names_take]

theorem idents_before {i : Interface} {left : Supply}
    (h : Interface.assign p s supply = .ok (i, left)) (k : Nat) :
    i.inputs.map Item.ident ++ (i.outputs.take k).map Item.ident =
      supply.names id (labelsBefore s k) := by
  rw [(items_of_assign h).1, (items_of_assign h).2, List.map_take, Interface.nameItems_idents,
    Interface.nameItems_idents, labelsBefore, Supply.names_append, Supply.names_take]

end Naming

section Linking

variable {H : Type} [DecidableEq H] {hash : ByteArray → H} {options : Options} {job : Job}
  {request : Request} {b : Bundle H}

theorem packageShader_metadata {p : Program} {s : Shader} {vs : VersionSet} {texts : List String}
    {packaged : PackagedShader H} (h : packageShader hash options p s vs texts = .ok packaged) :
    Metadata.ofShader p s options.table = .ok packaged.metadata := by
  obtain ⟨metadata, hm, h⟩ := Except.bind_eq_ok.mp h
  obtain ⟨sources, -, h⟩ := Except.bind_eq_ok.mp h
  obtain rfl := Except.pure_eq_ok.mp h
  exact Except.mapError_eq_ok.mp hm

theorem metadata_of_compile (h : compile hash options job request = .ok b) :
    ∃ vc fc vs fs, Succeeds options job request vc fc vs fs ∧ b.versions = vs.inter fs ∧
      Metadata.ofShader job.program job.vertex options.table = .ok b.vertex.metadata ∧
      Metadata.ofShader job.program job.fragment options.table = .ok b.fragment.metadata := by
  rcases succeeds_or_firstFailure options job request with ⟨vc, fc, vs, fs, hs⟩ | ⟨e, he⟩
  · refine ⟨vc, fc, vs, fs, hs, ?_⟩
    rw [hs.compile_eq hs.common] at h
    obtain ⟨texts, -, h⟩ := Except.bind_eq_ok.mp h
    rw [bundle] at h
    split at h
    · obtain ⟨vertex, hv, h⟩ := Except.bind_eq_ok.mp h
      obtain ⟨fragment, hf, h⟩ := Except.bind_eq_ok.mp h
      obtain rfl := Except.pure_eq_ok.mp h
      exact ⟨rfl, packageShader_metadata hv, packageShader_metadata hf⟩
    · cases h
  · cases (compile_of_firstFailure he).symm.trans h

def TakesFrom (d : Dialect.Shader) (k : Nat) (name : String) : Prop :=
  ∃ x, d.inputs[k]? = some x ∧ x.name = name

def HandsOn (d : Dialect.Shader) (name : String) : Prop := ∃ x ∈ d.outputs, x.name = name

variable {p : Program} {s : Shader} {closure : Closure} {v : Version} {table : Table}
  {d : Dialect.Shader} {m : Metadata}

theorem presents_of_lower (h : Lowering.lower p s closure v table = .ok d)
    (hm : Metadata.ofShader p s table = .ok m) :
    ∃ i supply, Interface.Assigned p s i supply ∧
      Lowering.Presents ⟨p, s, v, table, i⟩ d ∧ m.inputs = i.inputs ∧ m.outputs = i.outputs := by
  obtain ⟨i, supply, hassign, _, _, _, hpresents, _⟩ := Lowering.lower_eq_ok.mp h
  obtain ⟨i', supply', hassign', hinputs, houtputs⟩ := metadata_eq_ok hm
  cases hassign.symm.trans hassign'
  exact ⟨i, supply, Interface.assigned_of_assign hassign, hpresents, hinputs, houtputs⟩

theorem takesFrom_of_lower (h : Lowering.lower p s closure v table = .ok d)
    (hm : Metadata.ofShader p s table = .ok m) {k : Nat} {x : Item} (hx : m.inputs[k]? = some x) :
    TakesFrom d k x.ident := by
  obtain ⟨i, supply, hassigned, hpresents, hinputs, -⟩ := presents_of_lower h hm
  have hnames := Lowering.inputVars_names hpresents.inputs hassigned.inputs
  have hk : (d.inputs.map Dialect.InterfaceVar.name)[k]? = some x.ident := by
    rw [hnames, ← hinputs, List.getElem?_map, hx]
    rfl
  rw [List.getElem?_map] at hk
  exact Option.map_eq_some_iff.mp hk

theorem handsOn_of_lower (h : Lowering.lower p s closure v table = .ok d)
    (hm : Metadata.ofShader p s table = .ok m) {k : Nat} {output : Output}
    (hk : s.outputs[k]? = some output) (htarget : output.target = .varying) {y : Item}
    (hy : m.outputs[k]? = some y) : HandsOn d y.ident := by
  obtain ⟨i, supply, -, hpresents, -, houtputs⟩ := presents_of_lower h hm
  let g : Lowering.Setting := ⟨p, s, v, table, i⟩
  have hout : g.outputs[k]? = some (output, y.ident) := by
    refine List.getElem?_zip_eq_some.mpr ⟨hk, ?_⟩
    rw [List.getElem?_map, ← houtputs, hy]
    rfl
  obtain ⟨vars, hvars, -⟩ := Lowering.outputVars_eq_ok.mp hpresents.outputs
  obtain ⟨x?, -, hx⟩ := hvars.getElem?_right hout
  obtain ⟨sink, hsink, hvar⟩ := Lowering.outputVar?_eq_ok.mp hx
  -- a varying goes to its own variable, or else the shader could not have been lowered
  have hown : sink = .var y.ident := by
    rw [Lowering.Setting.sink, htarget] at hsink
    cases hstage : g.shader.stage with
    | vertex =>
        rw [hstage] at hsink
        exact (Except.ok.inj hsink).symm
    | fragment =>
        rw [hstage] at hsink
        cases hsink
  rcases hvar with ⟨-, leaf, hty, hstorage⟩ | ⟨hnone, -⟩
  · rw [htarget, Lowering.Setting.outputStorage?, Option.map_some] at hstorage
    rw [← hstorage] at hx
    exact ⟨_, hpresents.mem_outputs.mpr ⟨k, output, y.ident, hout, hx⟩, rfl⟩
  · exact absurd hown (hnone _)

end Linking

/-- A fragment input and a varying of the vertex shader that have one name are linked in every
version, or in none. They are linked exactly if neither identifier was given before to something
else in the other shader, and so they are if no label before either reads like theirs. -/
theorem linked_iff_not_taken {H : Type} [DecidableEq H] {hash : ByteArray → H} {options : Options}
    {job : Job} {request : Request} {b : Bundle H} (h : compile hash options job request = .ok b)
    {i j : Nat} {input : Slot} {output : Output}
    (hi : job.fragment.inputs[i]? = some input) (hj : job.vertex.outputs[j]? = some output)
    (htarget : output.target = .varying) (hname : input.name = output.name) :
    ∃ x y, b.fragment.metadata.inputs[i]? = some x ∧ b.vertex.metadata.outputs[j]? = some y ∧
      x.name = input.name ∧ y.name = output.name ∧
      (∀ v, b.versions.contains v = true → ∃ vc fc dv df,
        Closure.ofShader job.program job.vertex = .ok vc ∧
        Closure.ofShader job.program job.fragment = .ok fc ∧
        Lowering.lower job.program job.vertex vc v options.table = .ok dv ∧
        Lowering.lower job.program job.fragment fc v options.table = .ok df ∧
        HandsOn dv y.ident ∧ TakesFrom df i x.ident) ∧
      (x.ident = y.ident ↔
        x.ident ∉ b.vertex.metadata.inputs.map Item.ident ++
            (b.vertex.metadata.outputs.take j).map Item.ident ∧
          y.ident ∉ (b.fragment.metadata.inputs.take i).map Item.ident) ∧
      ((∀ earlier ∈ (job.fragment.inputs.take i).map Slot.name ++ labelsBefore job.vertex j,
        Apart (sanitize output.name) (sanitize earlier)) → x.ident = y.ident) := by
  obtain ⟨vc, fc, vs, fs, hs, hversions, hvm, hfm⟩ := metadata_of_compile h
  obtain ⟨vi, vsupply, hva, hvin, hvout⟩ := metadata_eq_ok hvm
  obtain ⟨fi, fsupply, hfa, hfin, hfout⟩ := metadata_eq_ok hfm
  have hx := input_item hfa hi
  have hy := output_item hva hj
  rw [← hfin] at hx
  rw [← hvout] at hy
  refine ⟨_, _, hx, hy, rfl, rfl, ?_, ?_, ?_⟩
  · intro v hv
    rw [hversions] at hv
    have hmem := ((vs.inter fs).mem_toList v).mpr hv
    obtain ⟨_, dv, hdv, -⟩ := hs.vertexCells v hmem
    obtain ⟨_, df, hdf, -⟩ := hs.fragmentCells v hmem
    exact ⟨vc, fc, dv, df, hs.vertexClosure, hs.fragmentClosure, hdv, hdf,
      handsOn_of_lower hdv hvm hj htarget hy, takesFrom_of_lower hdf hfm hx⟩
  · rw [hvin, hvout, hfin, idents_before hva, take_inputs_idents hfa, hname]
    exact Supply.fresh_eq_iff
  · intro hapart
    rw [List.forall_mem_append, List.map_take] at hapart
    show Prod.fst _ = Prod.fst _
    rw [hname, Supply.fresh_freshAll_of_apart hapart.1, Supply.fresh_freshAll_of_apart hapart.2]

theorem apart_of_not_isPrefix {b c : String} (h : ¬ b.toList <+: c.toList)
    (h' : ¬ c.toList <+: b.toList) : Apart b c := by
  have hcandidate (b : String) (k : Nat) : b.toList <+: (Identifier.candidate b k).toList := by
    cases k with
    | zero => exact List.prefix_refl _
    | succ k =>
        rw [Identifier.candidate, Identifier.toList_numbered]
        exact List.prefix_append _ _
  refine fun k => ⟨fun heq => h ?_, fun heq => h' ?_⟩
  · rw [← heq]
    exact hcandidate b k
  · rw [← heq]
    exact hcandidate c k

namespace Tinted

def four : Ty := .leaf (.vector .float .four)

/-- A program of two shaders, of which the first hands a color on to the second. The color has the
given name, and so has the attribute that it comes from if `shared`. -/
def job (name : String) (shared : Bool) : Job where
  name := "tinted"
  program := {}
  vertex := {
    name := "placed"
    stage := .vertex
    inputs := [⟨"place", four, {}⟩, ⟨if shared then name else "paint", four, {}⟩]
    outputs := [⟨⟨"position", four, {}⟩, .position⟩, ⟨⟨name, four, {}⟩, .varying⟩]
    assignments := [⟨0, .input ⟨four, {}⟩ 0⟩, ⟨1, .input ⟨four, {}⟩ 1⟩] }
  fragment := {
    name := "filled"
    stage := .fragment
    inputs := [⟨name, four, {}⟩]
    outputs := [⟨⟨"pixel", four, {}⟩, .attachment 0⟩]
    assignments := [⟨0, .input ⟨four, {}⟩ 0⟩] }

def request : Request where
  full := .exactly (VersionSet.singleton (.full .v330)).full
  embedded := .skip

def options : Options where
  table := .empty

end Tinted

open Tinted in
/-- An attribute takes the name `color` before the varying does, but in one shader only. -/
theorem compile_splits_varying :
    ((job "color" true).vertex.inputs.map Slot.name).Nodup ∧
    ((job "color" true).vertex.outputs.map fun o => o.name).Nodup ∧
    ((job "color" true).fragment.inputs.map Slot.name).Nodup ∧
    ∃ b, compile Digest.ofBytes options (job "color" true) request = .ok b ∧
      b.vertex.metadata.outputs.map (fun y => (y.name, y.ident)) =
        [("position", "position"), ("color", "color_1")] ∧
      b.fragment.metadata.inputs.map (fun x => (x.name, x.ident)) = [("color", "color")] := by
  refine ⟨by decide, by decide, by decide, ?_⟩
  obtain ⟨b, hb, hnames⟩ : ∃ b, compile Digest.ofBytes options (job "color" true) request = .ok b ∧
      (b.vertex.metadata.outputs.map (fun y => (y.name, y.ident)),
        b.fragment.metadata.inputs.map (fun x => (x.name, x.ident))) =
      ([("position", "position"), ("color", "color_1")], [("color", "color")]) :=
    Except.exists_eq_ok_of_toOption_map (by decide +kernel)
  exact ⟨b, hb, (Prod.mk.inj hnames).1, (Prod.mk.inj hnames).2⟩

open Tinted in
/-- A word of the language gets the same suffix in both shaders. -/
theorem linked_iff_not_taken_varying :
    (∀ earlier ∈ labelsBefore (job "varying" false).vertex 1,
      Apart (sanitize "varying") (sanitize earlier)) ∧
    ∃ b x y, compile Digest.ofBytes options (job "varying" false) request = .ok b ∧
      b.fragment.metadata.inputs[0]? = some x ∧ b.vertex.metadata.outputs[1]? = some y ∧
      x.ident = "varying_1" ∧ y.ident = "varying_1" := by
  have hapart : ∀ earlier ∈ labelsBefore (job "varying" false).vertex 1,
      Apart (sanitize "varying") (sanitize earlier) := by
    have hlabels : ∀ earlier ∈ labelsBefore (job "varying" false).vertex 1,
        ¬ (sanitize "varying").toList <+: (sanitize earlier).toList ∧
          ¬ (sanitize earlier).toList <+: (sanitize "varying").toList := by
      decide +kernel
    intro earlier hmem
    obtain ⟨hpre, hpre'⟩ := hlabels earlier hmem
    exact apart_of_not_isPrefix hpre hpre'
  obtain ⟨b, hb, hnames⟩ : ∃ b, compile Digest.ofBytes options (job "varying" false) request = .ok b ∧
      b.vertex.metadata.outputs.map Item.ident = ["position", "varying_1"] :=
    Except.exists_eq_ok_of_toOption_map (by decide +kernel)
  obtain ⟨x, y, hx, hy, -, -, -, -, hlinked⟩ :=
    linked_iff_not_taken hb (i := 0) (j := 1) rfl rfl rfl rfl
  have hident : y.ident = "varying_1" := by
    have hat := congrArg (·[1]?) hnames
    rw [List.getElem?_map, hy] at hat
    exact Option.some.inj hat
  exact ⟨hapart, b, x, y, hb, hx, hy, (hlinked hapart).trans hident, hident⟩

end ShaderDialects.Package
