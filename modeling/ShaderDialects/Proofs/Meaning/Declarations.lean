import ShaderDialects.Proofs.Lowering.Declaration
import ShaderDialects.Proofs.Meaning.Simulation
import ShaderDialects.Proofs.Meaning.Weakening

namespace ShaderDialects.Lowering

open Dialect (Decl Env Stmt Variable)
open Identifier (Supply)
open Value (HasTys)

variable {α : Type}

section Params

variable {w : World α} {base : Supply} {globals : Env α} {params : List Binding}
  {args : List (Val α)}

theorem lookup_bindAll {names : List String} {vs : List (Dialect.Val α)} (hn : names.Nodup)
    (hl : names.length = vs.length) {k : Nat} {name : String} (hname : names[k]? = some name)
    {v : Dialect.Val α} (hv : vs[k]? = some v) (env : Env α) :
    List.lookup name (env.bindAll names vs) = some (.variable (some v)) := by
  rw [Env.bindAll_eq, List.lookup_append, lookup_zip hn (by simpa using hl) hname,
    List.getElem?_map, hv]
  rfl

theorem not_mem_bindAll {names : List String} {vs : List (Dialect.Val α)} {n : String}
    (h : n ∉ names) (env : Env α) : List.lookup n (env.bindAll names vs) = env.lookup n := by
  refine Env.lookup_append_of_not_mem fun hmem => h ?_
  obtain ⟨x, hx, rfl⟩ := List.mem_map.mp hmem
  obtain ⟨⟨n, v⟩, hnv, rfl⟩ := List.mem_map.mp hx
  exact (List.of_mem_zip hnv).1

theorem matches_params (σ : Scope) (hσ : ∀ n, base.Knows n → σ.supply.Knows n)
    (hn : (params.map Binding.id).Nodup) (ht : HasTys w.program args (params.map Binding.ty)) :
    Matches w base globals (σ.bindParams params).2 (params.map fun b => (b.id, b.ty))
      ((params.map Binding.id).zip args)
      (globals.bindAll (σ.bindParams params).1 (args.map w.image)) := by
  have hnames : (σ.bindParams params).1 = σ.supply.names Binding.name params :=
    σ.bindParams_names params
  have hlen : params.length = args.length := by simpa using ht.length_eq.symm
  constructor
  · intro n hk
    rw [Scope.bindParams_supply]
    exact (hσ n hk).freshAll _ _
  · intro n hk
    refine not_mem_bindAll (fun hmem => ?_) _
    exact Supply.not_knows_freshAll (hnames ▸ hmem) (hσ n hk)
  · intro id ty h
    obtain ⟨k, b, hb, rfl, rfl⟩ := lookup_params_eq_some h
    obtain ⟨v, hv, hty⟩ := ht.getElem? (show (params.map Binding.ty)[k]? = some b.ty by simp [hb])
    have hk : k < params.length := (List.getElem?_eq_some_iff.mp hb).1
    have hkn : k < (σ.bindParams params).1.length := by simpa [hnames] using hk
    have hname := List.getElem?_eq_getElem hkn
    refine ⟨v, (σ.bindParams params).1[k], ?_, hty, Scope.lookup_bindParams hn hb hname, ?_, ?_⟩
    · rw [lookup_zip hn (by simpa using hlen) (show (params.map Binding.id)[k]? = some b.id by
        simp [hb]), hv]
    · rw [Scope.bindParams_supply]
      exact Supply.knows_freshAll (hnames ▸ List.getElem_mem hkn)
    · exact lookup_bindAll (hnames ▸ Supply.nodup_names _ _) (by simp [hnames, hlen]) hname
        (by simp [hv]) _

end Params

/-- The world is that of the setting, and the declarations of the order are typed in it. -/
structure Orderly (g : Setting) (w : World α) (order : List DeclId) : Prop where
  program : w.program = g.program
  table : w.table = g.table
  version : w.version = g.version
  stage : w.stage = g.shader.stage
  supplies : w.Supplies g.shader
  linear : Linear w.program order
  typed : ∀ i t, .term i ∈ order → w.program.terms[i]? = some t → t.kind.Typed w.program g.shader
  unique : ∀ i t, .term i ∈ order → w.program.terms[i]? = some t → t.kind.binders.Nodup

namespace Orderly

variable {g : Setting} {w : World α} {order : List DeclId} (O : Orderly g w order)
include O

theorem resolve {symbol : String} {kind : ExternalKind} {d : Decision}
    (h : g.table.resolve symbol kind g.version g.shader.stage = .ok d) :
    w.table.resolve symbol kind w.version w.stage = .ok d := by
  rw [O.table, O.version, O.stage, h]

theorem sound : w.meaning.Sound w.program order := World.sound_meaning O.supplies O.linear O.typed

section Term

variable {i : Nat} {t : Term} (hi : .term i ∈ order) (ht : w.program.terms[i]? = some t)
include hi ht

theorem mentions : ∀ d ∈ t.kind.mentions, d ∈ order := by
  intro d hd
  obtain ⟨pre, post, ho⟩ := List.append_of_mem hi
  obtain ⟨t', ht', hm⟩ := O.linear.term ho
  cases ht'.symm.trans ht
  exact ho ▸ List.mem_append_left _ (hm d hd)

theorem apply_function {params : List Binding} {result : Ty} {body : Expr}
    (hk : t.kind = .function params result body) {args : List (Val α)}
    (hargs : HasTys w.program args (params.map Binding.ty)) :
    w.meaning.apply i args = body.eval w w.meaning ((params.map Binding.id).zip args) := by
  rw [(World.meaning_agree_step O.linear i hi).2, World.step_function ht hk]
  simpa using hargs.length_eq.symm

theorem read_value {ty : Ty} {body : Expr} (hk : t.kind = .value ty body) :
    w.meaning.read i = body.eval w w.meaning [] := by
  rw [(World.meaning_agree_step O.linear i hi).1, World.step_value ht hk]

section External

variable {symbol : String} {signature : Signature} (hk : t.kind = .external symbol signature)
include hk

theorem read_external : w.meaning.read i = w.external symbol signature [] := by
  rw [(World.meaning_agree_step O.linear i hi).1, World.step_external_read ht hk]

theorem apply_external {tys : List Ty} {ty : Ty} {args : List (Val α)}
    (hf : w.program.functionTy? i = some (tys, ty)) (hargs : HasTys w.program args tys) :
    ∃ as, args = as.map .leaf ∧ w.meaning.apply i args = w.external symbol signature as := by
  obtain ⟨t', ht', ⟨_, _, hk', _⟩ | ⟨_, leaves, _, _, rfl, _⟩⟩ := Program.functionTy?_cases hf
  · cases ht.symm.trans ht'
    simp [hk] at hk'
  · obtain ⟨as, rfl, _⟩ := hargs.leaves
    refine ⟨as, rfl, ?_⟩
    rw [(World.meaning_agree_step O.linear i hi).2, World.step_external_apply ht hk]

end External

end Term

end Orderly

section Means

variable {g : Setting} {w : World α} {order : List DeclId} (O : Orderly g w order)
  {s : Progress} {env : Env α} {i : Nat} {t : Term} (hi : .term i ∈ order)
  (ht : w.program.terms[i]? = some t)
include O hi ht

/-- The function that a user term is lowered to does to values what the body of the term does. -/
theorem invoke_routine (R : Realized (g.context s) w w.meaning s.supply env) {r : Routine}
    (hr : Routine.ofKind? t.kind = some r) {ss : List Stmt} {σ : Scope}
    (hb : Lowers (g.context s) (.into r.body .result) (s.routineScope t r).2 ss σ)
    {args : List (Val α)} (hargs : HasTys w.program args (r.params.map Binding.ty)) :
    Dialect.invoke w.interpretation env (s.routineScope t r).1 ss (args.map w.image)
      = (r.body.eval w w.meaning ((r.params.map Binding.id).zip args)).map w.image := by
  have hu := O.unique i t hi ht
  have hvalid := r.valid hr (O.typed i t hi ht) hu (O.mentions hi ht)
  rw [Routine.binders hr] at hu
  have hknown (n : String) (hn : s.supply.Knows n) : (s.supply.fresh t.name).2.Knows n := hn.fresh _
  have hmatch : Matches w s.supply env (s.routineScope t r).2 _ _
      (env.bindAll (s.routineScope t r).1 (args.map w.image)) :=
    matches_params ⟨(s.supply.fresh t.name).2, []⟩ hknown (List.nodup_append.mp hu).1 hargs
  have hlen : (s.routineScope t r).1.length = (args.map w.image).length := by
    have hnames : (s.routineScope t r).1 = _ := Scope.bindParams_names _ _
    simpa [hnames] using hargs.length_eq.symm
  rw [Dialect.invoke, if_pos hlen]
  rcases hb.simulated R O.supplies O.sound hvalid trivial hmatch with ⟨hx, hv⟩ | ⟨v, o, hv, hx, ho⟩
  · rw [hx, hv]
    rfl
  · cases ho
    rw [hx, hv]
    rfl

theorem means_routine (R : Realized (g.context s) w w.meaning s.supply env) {r : Routine}
    (hr : Routine.ofKind? t.kind = some r) {ss : List Stmt} {σ : Scope}
    (hb : Lowers (g.context s) (.into r.body .result) (s.routineScope t r).2 ss σ)
    {base : Supply} {globals : Env α} {name : String} (hn : base.Knows name)
    (hl : globals.lookup name = some (.function
      (Dialect.invoke w.interpretation env (s.routineScope t r).1 ss))) :
    (r.form name).Means w w.meaning base globals i := by
  cases hk : t.kind with
  | function params result body =>
      rw [hk] at hr
      obtain rfl : ⟨.function, params, result, body⟩ = r := by simpa [Routine.ofKind?] using hr
      refine ⟨hn, _, hl, fun tys ty args hf hargs => ?_⟩
      obtain rfl : params.map Binding.ty = tys := by
        have hf : some (params.map Binding.ty, result) = some (tys, ty) := by
          simpa [Program.functionTy?, ht, hk, TermKind.functionTy?] using hf
        exact congrArg Prod.fst (Option.some.inj hf)
      rw [O.apply_function hi ht hk hargs]
      exact invoke_routine O hi ht R (by rw [hk]; rfl) hb hargs
  | value ty body =>
      rw [hk] at hr
      obtain rfl : ⟨.value, [], ty, body⟩ = r := by simpa [Routine.ofKind?] using hr
      refine ⟨hn, _, hl, ?_⟩
      have hargs : HasTys w.program ([] : List (Val α)) ([].map Binding.ty) := trivial
      rw [O.read_value hi ht hk]
      exact invoke_routine O hi ht R (by rw [hk]; rfl) hb hargs
  | external symbol signature => simp [hk, Routine.ofKind?] at hr

theorem means_native {symbol : String} {signature : Signature}
    (hk : t.kind = .external symbol signature) {form : Form}
    (hd : w.table.resolve symbol signature.kind w.version w.stage = .ok (.native form))
    (base : Supply) (globals : Env α) :
    (TermForm.native form).Means w w.meaning base globals i := by
  constructor
  · rw [O.read_external hi ht hk, World.external_eq hd]
    rfl
  · intro tys ty args hf hargs
    obtain ⟨as, rfl, happly⟩ := O.apply_external hi ht hk hf hargs
    refine ⟨as, rfl, ?_⟩
    rw [happly, World.external_eq hd]
    rfl

/-- Outside of all that the shader declares, the body of an emulation does what the external
means. -/
theorem means_emulatedFunction {symbol : String} {signature : Signature}
    (hk : t.kind = .external symbol signature) {e : Emulation}
    (hd : w.table.resolve symbol signature.kind w.version w.stage = .ok (.emulated e))
    {params : List (String × Leaf)} {result : Leaf} {body : List Stmt}
    (hb : e.build signature = .function params result body)
    {base : Supply} {globals : Env α} {name : String} (hn : base.Knows name)
    (hl : globals.lookup name = some (.function fun args =>
      ((Dialect.invoke w.interpretation [] (params.map Prod.fst) body args).bind
        Value.leaf?).map .leaf)) :
    (TermForm.emulatedFunction name).Means w w.meaning base globals i := by
  refine ⟨hn, _, hl, fun tys ty args hf hargs => ?_⟩
  obtain ⟨as, rfl, happly⟩ := O.apply_external hi ht hk hf hargs
  rw [happly, World.external_eq hd, World.map_image_leaf, Decision.eval, hb, Option.map_map]
  rfl

theorem means_emulatedConstant {symbol : String} {signature : Signature}
    (hk : t.kind = .external symbol signature) {e : Emulation}
    (hd : w.table.resolve symbol signature.kind w.version w.stage = .ok (.emulated e))
    {leaf : Leaf} {value : Dialect.Expr} (hb : e.build signature = .constant leaf value)
    {base : Supply} {globals : Env α} {name : String} (hn : base.Knows name)
    (hl : globals.lookup name = some (.constant ((value.evalLeaf w.interpretation []).map .leaf))) :
    (TermForm.emulatedConstant name).Means w w.meaning base globals i := by
  refine ⟨hn, ?_⟩
  rw [hl, O.read_external hi ht hk, World.external_eq hd, Decision.eval, hb, Option.map_map]
  rfl

end Means

/-- Below the environment that the declarations so far make lies one in which all identifiers stand
for what they were made from. It differs from the other in the emulations, which see nothing there
of what is declared around them. -/
structure Established (g : Setting) (w : World α) (start : Env α) (s : Progress) (low : Env α) :
    Prop where
  below : low.Below (s.decls.foldl (Decl.enter w.interpretation) start)
  realized : Realized (g.context s) w w.meaning s.supply low

section Established

variable {g : Setting} {w : World α} {order : List DeclId} {start low : Env α} {s s' : Progress}

theorem Established.enter (E : Established g w start s low) {d : Decl} {x : Dialect.Entity α}
    (hx : ∀ env, low.Below env → x.Below (d.kind.entity w.interpretation env)) :
    Env.Below ((d.name, x) :: low)
      ((s.decls ++ [d]).foldl (Decl.enter w.interpretation) start) := by
  rw [List.foldl_append]
  exact .cons d.name (hx _ E.below) E.below

theorem above_cons {base : Supply} {name : String} (h : ¬ base.Knows name) (x : Dialect.Entity α)
    (env : Env α) : Env.Above ((name, x) :: env) base env := by
  intro n hn
  exact Env.lookup_cons_of_ne (fun heq : n = name => h (heq ▸ hn)) x env

theorem Established.declare (O : Orderly g w order) (E : Established g w start s low) {d : DeclId}
    (hd : d ∈ order) (h : Declares g s d s') : ∃ low', Established g w start s' low' := by
  have hmono (label : String) (n : String) (hn : s.supply.Knows n) :
      (s.supply.fresh label).2.Knows n := hn.fresh label
  cases h with
  | @record i r tys hr ht =>
      have hlen : (g.program.fieldNames i).length = tys.length := by
        rw [← ht.length_eq]
        simp [Program.fieldNames, hr]
      have hnew := Supply.not_knows_fresh (s := s.supply) r.name
      refine ⟨_, E.enter (x := .struct (g.program.fieldNames i)) fun _ _ => ?_, ?_⟩
      · rw [Dialect.DeclKind.entity, map_name_zipWith hlen]
        exact .refl _
      · refine (E.realized.above (hmono r.name) (above_cons hnew _ low)).addStruct
          (Supply.knows_fresh _) ?_ ?_
        · rw [O.program]
        · simp [O.program]
  | @routine i t r tys rt ss σ ht hr hp hres hb =>
      have hnames : (s.routineScope t r).1 = _ := Scope.bindParams_names _ _
      have hlen : (s.routineScope t r).1.length = tys.length := by
        rw [hnames, Supply.length_names, hp.length_eq]
      have hbody (n : String) (hn : (s.supply.fresh t.name).2.Knows n) : σ.supply.Knows n := by
        refine hb.knows ?_
        rw [Progress.routineScope, Scope.bindParams_supply]
        exact hn.freshAll _ _
      have hnew : ¬ s.supply.Knows (s.supply.fresh t.name).1 := Supply.not_knows_fresh _
      refine ⟨_, E.enter (x := .function (Dialect.invoke w.interpretation low
        (s.routineScope t r).1 ss)) fun env hlow => ?_, ?_⟩
      · rw [Dialect.DeclKind.entity, map_name_zipWith hlen]
        exact .function fun args v hv => Dialect.invoke_below w.interpretation hlow hv
      · have habove := E.realized.above (fun n hn => hbody n (hmono t.name n hn))
          (above_cons hnew (.function (Dialect.invoke w.interpretation low
            (s.routineScope t r).1 ss)) low)
        refine habove.addTerm ?_
        exact means_routine O hd (O.program ▸ ht) E.realized hr hb
          (hbody _ (Supply.knows_fresh _)) (by simp)
  | @native i t symbol signature form ht hk hdec =>
      refine ⟨low, E.below, E.realized.addTerm ?_⟩
      exact means_native O hd (O.program ▸ ht) hk (O.resolve hdec) _ _
  | @emulation i t symbol signature e ht hk hdec =>
      have hnew := Supply.not_knows_fresh (s := s.supply) (t.name ++ "_emulated")
      have hknown := Supply.knows_fresh (s := s.supply) (t.name ++ "_emulated")
      cases hb : e.build signature with
      | function params result body =>
          refine ⟨_, E.enter (x := .function fun args =>
            ((Dialect.invoke w.interpretation [] (params.map Prod.fst) body args).bind
              Value.leaf?).map .leaf) fun env _ => ?_, ?_⟩
          · refine .function fun args v hv => ?_
            have hv := Dialect.invoke_below w.interpretation (.nil env) (Value.eq_of_map_leaf hv)
            simpa [Function.comp_def] using hv
          · refine (E.realized.above (hmono _) (above_cons hnew _ low)).addTerm ?_
            exact means_emulatedFunction O hd (O.program ▸ ht) hk (O.resolve hdec) hb hknown
              List.lookup_cons_self
      | constant leaf value =>
          refine ⟨_, E.enter (x := .constant ((value.evalLeaf w.interpretation []).map .leaf))
            fun env _ => ?_, ?_⟩
          · refine .constant fun v hv => ?_
            exact value.eval_below w.interpretation (.nil env) (Value.eq_of_map_leaf hv)
          · refine (E.realized.above (hmono _) (above_cons hnew _ low)).addTerm ?_
            exact means_emulatedConstant O hd (O.program ▸ ht) hk (O.resolve hdec) hb hknown
              List.lookup_cons_self

theorem established_declareAll {closure : Closure} (O : Orderly g w closure.order)
    {supply : Supply} (hstart : Realized (g.context ⟨supply, [], [], []⟩) w w.meaning supply start)
    (h : g.declareAll supply closure = .ok s') : ∃ low, Established g w start s' low := by
  refine declareAll_induct (motive := fun _ s => ∃ low, Established g w start s low) h
    ⟨start, .refl start, hstart⟩ ?_
  rintro pre d post s s' ho ⟨low, E⟩ hd
  exact E.declare O (by simp [ho]) hd

end Established

end ShaderDialects.Lowering
