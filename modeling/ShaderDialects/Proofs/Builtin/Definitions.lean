import ShaderDialects.Proofs.Builtin.Availability

namespace ShaderDialects

def Definition.external (d : Definition) : String × ExternalKind := (d.symbol, d.kind)

theorem Definition.external_eq {d : Definition} {symbol : String} {kind : ExternalKind} :
    d.external = (symbol, kind) ↔ d.symbol = symbol ∧ d.kind = kind := Prod.mk_inj

namespace Table

variable {t t' : Table} {b b' : TableBuilder} {ds ds' : List Definition} {symbol : String}
  {kind : ExternalKind}

def last? (ds : List Definition) (symbol : String) (kind : ExternalKind) : Option Definition :=
  ds.reverse.find? fun d => d.symbol = symbol ∧ d.kind = kind

/-- The definitions of each external are the same in the same order. -/
def Reordered (ds ds' : List Definition) : Prop :=
  ∀ external, ds.filter (fun d => d.external = external) = ds'.filter (fun d => d.external = external)

/-- Every definition of the table is found by its symbol and kind. -/
def Definite (t : Table) : Prop := ∀ d ∈ t.definitions, t.find? d.symbol d.kind = some d

structure SameAnswers (t t' : Table) : Prop where
  resolve : t.resolve = t'.resolve
  availability : t.availability = t'.availability
  natives : t.nativeAvailability = t'.nativeAvailability
  names : t.nativeNames = t'.nativeNames

section Defining

theorem define_eq_ok {d : Definition} :
    b.define d = .ok b' ↔ d.check = .ok () ∧
      ⟨d :: b.definitions.filter fun e => e.symbol ≠ d.symbol ∨ e.kind ≠ d.kind⟩ = b' := by
  rw [TableBuilder.define, Except.bind_eq_ok]
  simp only [Except.pure_eq_ok]
  exact ⟨fun ⟨⟨⟩, hd, h⟩ => ⟨hd, h⟩, fun ⟨hd, h⟩ => ⟨(), hd, h⟩⟩

@[simp]
theorem definitions_build (b : TableBuilder) : b.build.definitions = b.definitions := rfl

theorem find?_define {d : Definition} (h : b.define d = .ok b') :
    b'.build.find? symbol kind =
      if d.symbol = symbol ∧ d.kind = kind then some d else b.build.find? symbol kind := by
  obtain ⟨-, rfl⟩ := define_eq_ok.mp h
  by_cases hd : d.symbol = symbol ∧ d.kind = kind
  · rw [if_pos hd, find?, definitions_build, List.find?_cons_of_pos (by simpa using hd)]
  · rw [if_neg hd, find?, definitions_build, List.find?_cons_of_neg (by simpa using hd),
      List.find?_filter, find?, definitions_build]
    -- what is left out is not what is looked for
    congr 1
    funext e
    simp only [decide_eq_true_eq, decide_eq_decide]
    apply and_iff_right_of_imp
    intro he
    rw [← not_and_or]
    rintro ⟨hsymbol, hkind⟩
    exact hd ⟨hsymbol.symm.trans he.1, hkind.symm.trans he.2⟩

theorem last?_concat (ds : List Definition) (d : Definition) :
    last? (ds ++ [d]) symbol kind =
      if d.symbol = symbol ∧ d.kind = kind then some d else last? ds symbol kind := by
  rw [last?, List.reverse_concat, List.find?_cons]
  split
  next h => rw [if_pos (by simpa using h)]
  next h => rw [if_neg (by simpa using h), last?]

theorem Definite.define {d : Definition} (hb : b.build.Definite) (h : b.define d = .ok b') :
    b'.build.Definite := by
  intro e he
  rw [find?_define h]
  obtain ⟨-, rfl⟩ := define_eq_ok.mp h
  rcases List.mem_cons.mp he with rfl | he
  · rw [if_pos ⟨rfl, rfl⟩]
  · obtain ⟨hmem, hne⟩ := List.mem_filter.mp he
    rw [if_neg fun hd => ?_]
    · exact hb e hmem
    · simp [hd.1, hd.2] at hne

theorem ofDefinitions_eq_ok :
    ofDefinitions ds = .ok t ↔ ∃ b, ds.foldlM TableBuilder.define {} = .ok b ∧ b.build = t :=
  Except.map_eq_ok

theorem kept_of_ofDefinitions (h : ofDefinitions ds = .ok t) :
    t.Definite ∧ ∀ symbol kind, t.find? symbol kind = last? ds symbol kind := by
  obtain ⟨b, hb, rfl⟩ := ofDefinitions_eq_ok.mp h
  refine Except.foldlM_induct
    (motive := fun ds b => Definite (TableBuilder.build b) ∧
      ∀ symbol kind, b.build.find? symbol kind = last? ds symbol kind)
    hb ⟨nofun, fun _ _ => rfl⟩ ?_
  rintro pre d post b b' - ⟨hb, hfind⟩ hd
  refine ⟨hb.define hd, fun symbol kind => ?_⟩
  rw [find?_define hd, last?_concat, hfind]

theorem exists_ofDefinitions_iff :
    (∃ t, ofDefinitions ds = .ok t) ↔ ∀ d ∈ ds, d.check = .ok () := by
  constructor
  · rintro ⟨t, h⟩
    obtain ⟨b, hb, -⟩ := ofDefinitions_eq_ok.mp h
    refine Except.foldlM_induct (motive := fun ds _ => ∀ d ∈ ds, d.check = .ok ()) hb nofun ?_
    intro pre d post b b' _ hpre hd
    exact List.forall_mem_append.mpr
      ⟨hpre, List.forall_mem_singleton.mpr (define_eq_ok.mp hd).1⟩
  · intro h
    have hrun : ∃ b, ds.foldlM TableBuilder.define {} = .ok b ∧ True := by
      refine Except.exists_foldlM_eq_ok (motive := fun _ _ => True) trivial ?_
      intro pre d post b hds _
      exact ⟨_, define_eq_ok.mpr ⟨h d (by simp [hds]), rfl⟩, trivial⟩
    obtain ⟨b, hb, -⟩ := hrun
    exact ⟨b.build, ofDefinitions_eq_ok.mpr ⟨b, hb, rfl⟩⟩

end Defining

section Answers

theorem Definite.mem_iff (ht : t.Definite) {d : Definition} :
    d ∈ t.definitions ↔ ∃ symbol kind, t.find? symbol kind = some d :=
  ⟨fun h => ⟨d.symbol, d.kind, ht d h⟩, fun ⟨_, _, h⟩ => List.mem_of_find?_eq_some h⟩

theorem resolve_eq_unknown_iff {v : Version} {stage : Stage} :
    t.resolve symbol kind v stage = .error (.unknown symbol kind) ↔ t.find? symbol kind = none := by
  rw [resolve, require]
  cases hfind : t.find? symbol kind with
  | none => exact iff_of_true rfl rfl
  | some d =>
      refine iff_of_false (fun h => ?_) (by simp)
      rcases Except.bind_eq_error.mp h with h | ⟨_, _, h⟩
      · cases h
      · split at h <;> cases h

theorem availability_eq_unknown_iff {stage : Stage} :
    t.availability symbol kind stage = .error (.unknown symbol kind) ↔
      t.find? symbol kind = none := by
  rw [availability, require]
  cases hfind : t.find? symbol kind with
  | none => exact iff_of_true rfl rfl
  | some d =>
      refine iff_of_false (fun h => ?_) (by simp)
      rcases Except.bind_eq_error.mp h with h | ⟨_, _, h⟩ <;> cases h

theorem sameAnswers_of_find? (ht : t.Definite) (ht' : t'.Definite)
    (h : ∀ symbol kind, t.find? symbol kind = t'.find? symbol kind) : SameAnswers t t' := by
  have hmem (d : Definition) : d ∈ t.definitions ↔ d ∈ t'.definitions := by
    rw [ht.mem_iff, ht'.mem_iff]
    simp only [h]
  refine ⟨?_, ?_, ?_, ?_⟩
  · funext symbol kind v stage
    rw [resolve, resolve, require, require, h]
  · funext symbol kind stage
    rw [availability, availability, require, require, h]
  · funext form stage
    apply VersionSet.ext_bit
    intro f i
    rw [Bool.eq_iff_iff, bit_nativeAvailability, bit_nativeAvailability]
    simp only [hmem]
  · rw [nativeNames_eq, nativeNames_eq]
    apply NativeIndex.names_congr
    intro form
    rw [natives_eq, natives_eq, NativeIndex.mem_keys_ofDefinitions,
      NativeIndex.mem_keys_ofDefinitions]
    simp only [hmem]

/-- It makes no difference in which order a table keeps its definitions. -/
theorem Definite.sameAnswers_of_perm (ht : t.Definite) (h : t.definitions.Perm t'.definitions) :
    SameAnswers t t' := by
  have hfind (symbol : String) (kind : ExternalKind) :
      t.find? symbol kind = t'.find? symbol kind := by
    cases hd : t'.find? symbol kind with
    | none =>
        rw [find?, List.find?_eq_none] at hd ⊢
        exact fun d hmem => hd d (h.mem_iff.mp hmem)
    | some d =>
        obtain ⟨rfl, rfl⟩ : d.symbol = symbol ∧ d.kind = kind := by simpa using List.find?_some hd
        exact ht d (h.mem_iff.mpr (List.mem_of_find?_eq_some hd))
  refine sameAnswers_of_find? ht (fun d hd => ?_) hfind
  rw [← hfind]
  exact ht d (h.mem_iff.mpr hd)

end Answers

section Reordering

theorem last?_eq_getLast? (ds : List Definition) :
    last? ds symbol kind = (ds.filter fun d => d.external = (symbol, kind)).getLast? := by
  rw [List.getLast?_filter, last?]
  simp only [Definition.external_eq]

theorem Reordered.last? (h : Reordered ds ds') :
    last? ds symbol kind = last? ds' symbol kind := by
  rw [last?_eq_getLast?, last?_eq_getLast?, h]

theorem Reordered.swap {d e : Definition} (h : d.external ≠ e.external)
    (pre post : List Definition) :
    Reordered (pre ++ d :: e :: post) (pre ++ e :: d :: post) := by
  intro external
  rw [List.filter_append, List.filter_append]
  congr 1
  by_cases hd : d.external = external
  · have he : e.external ≠ external := fun he => h (hd.trans he.symm)
    simp [hd, he]
  · simp [List.filter_cons, hd]

theorem Reordered.mem (h : Reordered ds ds') {d : Definition} (hd : d ∈ ds') : d ∈ ds := by
  have hmem : d ∈ ds'.filter fun e => e.external = d.external :=
    List.mem_filter.mpr ⟨hd, by simp⟩
  rw [← h] at hmem
  exact (List.mem_filter.mp hmem).1

end Reordering

/-- What the answers of a table have to do with each other, and with the last definitions of the
sequence that it was made from. -/
structure Coherent (ds : List Definition) (t : Table) : Prop where
  unknown : ∀ symbol kind stage v,
    t.availability symbol kind stage = .error (.unknown symbol kind) ↔
      t.resolve symbol kind v stage = .error (.unknown symbol kind)
  available : ∀ symbol kind stage,
    t.availability symbol kind stage = .error (.unknown symbol kind) ∨
      ∃ vs, t.availability symbol kind stage = .ok vs ∧
        ∀ v, vs.contains v = true ↔ ∃ d, t.resolve symbol kind v stage = .ok d
  resolved : ∀ symbol kind stage v d, t.resolve symbol kind v stage = .ok d ↔
    ∃ e, last? ds symbol kind = some e ∧
      ∃ r, (e.rules.find? fun r => r.covers v stage) = some r ∧ r.decision = d
  native : ∀ symbol kind stage v form, t.resolve symbol kind v stage = .ok (.native form) →
    (t.nativeAvailability form stage).contains v = true
  natives : ∀ form stage v, (t.nativeAvailability form stage).contains v = true ↔
    ∃ symbol kind e, last? ds symbol kind = some e ∧
      ∃ r ∈ e.rules, r.decision = .native form ∧ r.covers v stage = true
  sorted : t.nativeNames.Pairwise (· < ·)
  names : ∀ name, name ∈ t.nativeNames ↔
    ∃ symbol kind e, last? ds symbol kind = some e ∧
      ∃ r ∈ e.rules, r.decision = .native (.call name) ∨ r.decision = .native (.var name)

theorem coherent (h : ofDefinitions ds = .ok t) : Coherent ds t := by
  obtain ⟨ht, hfind⟩ := kept_of_ofDefinitions h
  have hmem {P : Definition → Prop} : (∃ d ∈ t.definitions, P d) ↔
      ∃ symbol kind d, last? ds symbol kind = some d ∧ P d := by
    simp only [ht.mem_iff, hfind]
    constructor
    · rintro ⟨d, ⟨symbol, kind, hd⟩, hP⟩
      exact ⟨symbol, kind, d, hd, hP⟩
    · rintro ⟨symbol, kind, d, hd, hP⟩
      exact ⟨d, ⟨symbol, kind, hd⟩, hP⟩
  refine ⟨?_, ?_, ?_, ?_, ?_, ?_, ?_⟩
  · intro symbol kind stage v
    rw [availability_eq_unknown_iff, resolve_eq_unknown_iff]
  · intro symbol kind stage
    cases hd : t.find? symbol kind with
    | none => exact .inl (availability_eq_unknown_iff.mpr hd)
    | some d =>
        obtain ⟨vs, hvs⟩ : ∃ vs, t.availability symbol kind stage = .ok vs :=
          ⟨_, availability_eq_ok.mpr ⟨d, hd, rfl⟩⟩
        refine .inr ⟨vs, hvs, fun v => ?_⟩
        rw [← available_iff_resolves, hvs]
        simp
  · intro symbol kind stage v d
    rw [resolve_eq_ok, hfind]
  · exact fun _ _ _ _ _ => nativeAvailability_of_resolve
  · intro form stage v
    rw [nativeAvailability_contains_iff, hmem]
  · rw [nativeNames_eq]
    exact NativeIndex.pairwise_names _
  · intro name
    rw [mem_nativeNames, hmem]

theorem Reordered.exists_sameAnswers (h : ofDefinitions ds = .ok t) (hds : Reordered ds ds') :
    ∃ t', ofDefinitions ds' = .ok t' ∧ SameAnswers t t' := by
  have hchecks := exists_ofDefinitions_iff.mp ⟨t, h⟩
  obtain ⟨t', h'⟩ : ∃ t', ofDefinitions ds' = .ok t' :=
    exists_ofDefinitions_iff.mpr fun d hd => hchecks d (hds.mem hd)
  obtain ⟨ht, hfind⟩ := kept_of_ofDefinitions h
  obtain ⟨ht', hfind'⟩ := kept_of_ofDefinitions h'
  refine ⟨t', h', sameAnswers_of_find? ht ht' fun symbol kind => ?_⟩
  rw [hfind, hfind', hds.last?]

/-- The answers of a table agree with each other and with the last definition of each external. They
are the same after any reordering of definitions of different externals, and in whatever order the
definitions are visited when the index is built, and the index when the names are collected. -/
theorem coherent_of_ofDefinitions {ds : List Definition} {t : Table}
    (h : ofDefinitions ds = .ok t) :
    Coherent ds t ∧
      (∀ ds', Reordered ds ds' → ∃ t', ofDefinitions ds' = .ok t' ∧ SameAnswers t t') ∧
      (∀ b : TableBuilder, t.definitions.Perm b.definitions → SameAnswers t b.build) ∧
      ∀ index : NativeIndex, t.natives.Perm index → index.names = t.nativeNames := by
  refine ⟨coherent h, fun ds' hds => hds.exists_sameAnswers h, fun b hb => ?_, ?_⟩
  · exact (kept_of_ofDefinitions h).1.sameAnswers_of_perm hb
  · intro index hindex
    rw [nativeNames_eq]
    exact NativeIndex.names_congr fun form => (hindex.map Prod.fst).mem_iff.symm

namespace Twice

/-! A function that is defined again under another name, and a value of the same symbol. -/

def first : Definition := ⟨.function, "twice", [⟨.universal, .both, .native (.call "dup")⟩]⟩

def second : Definition :=
  ⟨.function, "twice", [⟨.singleton (.full .v460), .both, .native (.call "twice")⟩,
    ⟨.universal, .both, .emulated .round⟩]⟩

def value : Definition :=
  ⟨.value, "twice", [⟨.universal, ⟨false, true⟩, .native (.var "gl_Twice")⟩]⟩

end Twice

open Twice in
/-- What the first definition of the function occupied is free, whether the value is defined before
the second one or after it. -/
theorem coherent_of_ofDefinitions_twice :
    ∃ t t', ofDefinitions [first, value, second] = .ok t ∧
      ofDefinitions [first, second, value] = .ok t' ∧ SameAnswers t t' ∧
      t.nativeNames = ["gl_Twice", "twice"] ∧
      (t.nativeAvailability (.call "dup") .vertex).contains (.full .v110) = false ∧
      ∃ d, t.resolve "twice" .function (.full .v110) .vertex = .ok d := by
  obtain ⟨t, ht, hanswers⟩ : ∃ t, ofDefinitions [first, value, second] = .ok t ∧
      (t.nativeNames, (t.nativeAvailability (.call "dup") .vertex).contains (.full .v110)) =
        (["gl_Twice", "twice"], false) :=
    Except.exists_eq_ok_of_toOption_map (by decide +kernel)
  obtain ⟨hnames, hdup⟩ := Prod.mk.inj hanswers
  obtain ⟨hcoherent, hreordered, -⟩ := coherent_of_ofDefinitions ht
  obtain ⟨t', ht', hsame⟩ := hreordered _ (.swap (by decide) [first] [])
  refine ⟨t, t', ht, ht', hsame, hnames, hdup, .emulated .round, ?_⟩
  exact (hcoherent.resolved _ _ _ _ _).mpr ⟨second, by rfl, _, by rfl, rfl⟩

end Table

end ShaderDialects
