import Mathlib.Data.List.Perm.Subperm
import Mathlib.Logic.Relation
import ShaderDialects.Proofs.Source.Linearization

namespace ShaderDialects

open Relation (ReflTransGen TransGen)

namespace Program

variable (p : Program)

def DependsOn (d x : DeclId) : Prop := ∃ deps, p.dependencies d = .ok deps ∧ x ∈ deps

def OnCycle (d : DeclId) : Prop := TransGen p.DependsOn d d

def InRange : Prop :=
  (∀ r ∈ p.records, ∀ d ∈ r.mentions, d ∈ p.declIds) ∧
    ∀ t ∈ p.terms, ∀ d ∈ t.kind.mentions, d ∈ p.declIds

instance : Decidable p.InRange := instDecidableAnd

variable {p} {d x : DeclId}

@[simp]
theorem length_declIds : p.declIds.length = p.size := by
  simp [declIds, size]

theorem record_mem_declIds {i : Nat} : .record i ∈ p.declIds ↔ i < p.records.length := by
  simp [declIds]

theorem term_mem_declIds {i : Nat} : .term i ∈ p.declIds ↔ i < p.terms.length := by
  simp [declIds]

theorem mem_declIds_cases (hd : d ∈ p.declIds) :
    (∃ i r, d = .record i ∧ p.record i = .ok r) ∨ ∃ i t, d = .term i ∧ p.term i = .ok t := by
  cases d with
  | record i =>
      have hi := record_mem_declIds.mp hd
      exact .inl ⟨i, _, rfl, record_eq_ok.mpr (List.getElem?_eq_getElem hi)⟩
  | term i =>
      have hi := term_mem_declIds.mp hd
      exact .inr ⟨i, _, rfl, term_eq_ok.mpr (List.getElem?_eq_getElem hi)⟩

theorem exists_dependencies (hd : d ∈ p.declIds) : ∃ deps, p.dependencies d = .ok deps := by
  rcases mem_declIds_cases hd with ⟨i, r, rfl, hr⟩ | ⟨i, t, rfl, ht⟩
  · exact ⟨_, Except.map_eq_ok.mpr ⟨r, hr, rfl⟩⟩
  · exact ⟨_, Except.map_eq_ok.mpr ⟨t, ht, rfl⟩⟩

theorem exists_nameOf (hd : d ∈ p.declIds) : ∃ n, p.nameOf d = .ok n := by
  rcases mem_declIds_cases hd with ⟨i, r, rfl, hr⟩ | ⟨i, t, rfl, ht⟩
  · exact ⟨_, Except.map_eq_ok.mpr ⟨r, hr, rfl⟩⟩
  · exact ⟨_, Except.map_eq_ok.mpr ⟨t, ht, rfl⟩⟩

theorem InRange.dependsOn (hp : p.InRange) (h : p.DependsOn d x) : x ∈ p.declIds := by
  obtain ⟨deps, hdeps, hx⟩ := h
  cases d with
  | record i =>
      obtain ⟨r, hr, rfl⟩ := Except.map_eq_ok.mp hdeps
      apply hp.1 r (List.mem_of_getElem? (record_eq_ok.mp hr))
      exact List.mem_eraseDups.mp hx
  | term i =>
      obtain ⟨t, ht, rfl⟩ := Except.map_eq_ok.mp hdeps
      apply hp.2 t (List.mem_of_getElem? (term_eq_ok.mp ht))
      exact List.mem_eraseDups.mp hx

end Program

namespace Shader

/-- The shader refers to `d`, itself or through what it refers to. -/
def Reaches (p : Program) (s : Shader) (d : DeclId) : Prop :=
  ∃ r ∈ s.references, ReflTransGen p.DependsOn r d

def InRange (p : Program) (s : Shader) : Prop := ∀ d ∈ s.references, d ∈ p.declIds

instance (p : Program) (s : Shader) : Decidable (s.InRange p) :=
  inferInstanceAs (Decidable (∀ d ∈ s.references, d ∈ p.declIds))

end Shader

namespace Linear

variable {p : Program} {order pre post : List DeclId} {d x : DeclId}

theorem dependsOn (h : Linear p order) (ho : order = pre ++ d :: post) (hx : p.DependsOn d x) :
    x ∈ pre := by
  obtain ⟨deps, hd, hm⟩ := h.after pre d post ho
  obtain ⟨deps', hd', hx⟩ := hx
  cases hd.symm.trans hd'
  exact hm x hx

theorem transGen (h : Linear p order) (ho : order = pre ++ d :: post)
    (hx : TransGen p.DependsOn d x) : x ∈ pre := by
  induction hx with
  | single hx => exact h.dependsOn ho hx
  | tail _ hx ih =>
      obtain ⟨pre', post', rfl⟩ := List.append_of_mem ih
      have ho' := ho.trans (List.append_assoc pre' _ _)
      exact List.mem_append_left _ (h.dependsOn ho' hx)

theorem not_onCycle (h : Linear p order) (hd : d ∈ order) : ¬ p.OnCycle d := by
  intro hc
  obtain ⟨pre, post, ho⟩ := List.append_of_mem hd
  have hn := h.nodup
  rw [ho] at hn
  exact (List.nodup_append.mp hn).2.2 d (h.transGen ho hc) d List.mem_cons_self rfl

theorem reflTransGen (h : Linear p order) (hd : d ∈ order) (hx : ReflTransGen p.DependsOn d x) :
    x ∈ order := by
  induction hx with
  | refl => exact hd
  | tail _ hx ih =>
      obtain ⟨pre, post, ho⟩ := List.append_of_mem ih
      rw [ho]
      exact List.mem_append_left _ (h.dependsOn ho hx)

theorem snoc (h : Linear p order) (hd : d ∉ order) {deps : List DeclId}
    (hdeps : p.dependencies d = .ok deps) (hm : deps ⊆ order) : Linear p (order ++ [d]) := by
  refine ⟨?_, ?_⟩
  · rw [List.nodup_append]
    refine ⟨h.nodup, by simp, ?_⟩
    intro a ha b hb hab
    rw [List.mem_singleton] at hb
    exact hd (hb ▸ hab ▸ ha)
  · intro pre e post ho
    -- The last element is `d` itself; every other one stands where it stood before.
    rcases List.eq_nil_or_concat post with rfl | ⟨post, last, rfl⟩
    · obtain ⟨rfl, he⟩ := List.append_inj' ho rfl
      cases he
      exact ⟨deps, hdeps, hm⟩
    · rw [List.concat_eq_append, ← List.cons_append, ← List.append_assoc] at ho
      obtain ⟨ho, _⟩ := List.append_inj' ho rfl
      exact h.after pre e post ho

end Linear

namespace Closure

variable {p : Program} {steps : Nat} {path order order' : List DeclId} {d : DeclId}

theorem visit_succ (h : d ∉ order) (hp : d ∉ path) {deps : List DeclId}
    (hdeps : p.dependencies d = .ok deps) :
    visit p (steps + 1) path order d =
      (deps.foldlM (visit p steps (d :: path)) order >>= fun order => pure (order ++ [d])) := by
  rw [visit, if_neg h, if_neg hp, hdeps]
  rfl

/-- What a search from `roots` within `path` makes of an order. It never adds what it stands
inside of, so a declaration is still missing when its own turn comes. -/
structure Grown (p : Program) (path order roots order' : List DeclId) : Prop where
  linear : Linear p order → Linear p order'
  new : ∀ x ∈ order', x ∉ order → x ∉ path ∧ ∃ r ∈ roots, ReflTransGen p.DependsOn r x

theorem foldlM_grown
    (hv : ∀ order d order', visit p steps path order d = .ok order' →
      Grown p path order [d] order')
    {ds : List DeclId} (h : ds.foldlM (visit p steps path) order = .ok order') :
    Grown p path order ds order' := by
  induction ds generalizing order with
  | nil =>
      cases h
      exact ⟨id, fun x hx hn => absurd hx hn⟩
  | cons d ds ih =>
      obtain ⟨mid, hm, h⟩ := Except.bind_eq_ok.mp h
      have hfirst := hv _ _ _ hm
      have hrest := ih h
      refine ⟨fun hl => hrest.linear (hfirst.linear hl), ?_⟩
      intro x hx hn
      by_cases hmid : x ∈ mid
      · obtain ⟨hpath, r, hr, hreach⟩ := hfirst.new x hmid hn
        rw [List.mem_singleton] at hr
        exact ⟨hpath, d, List.mem_cons_self, hr ▸ hreach⟩
      · obtain ⟨hpath, r, hr, hreach⟩ := hrest.new x hx hmid
        exact ⟨hpath, r, List.mem_cons_of_mem _ hr, hreach⟩

theorem visit_grown (h : visit p steps path order d = .ok order') :
    Grown p path order [d] order' := by
  induction steps generalizing path order order' d with
  | zero =>
      rcases visit_eq_ok h with ⟨_, rfl⟩ | ⟨_, _, _, _, _, hs, _⟩
      · exact ⟨id, fun x hx hn => absurd hx hn⟩
      · omega
  | succ steps ih =>
      rcases visit_eq_ok h with ⟨_, rfl⟩ | ⟨hd, hpath, _, deps, mid, ⟨⟩, hdeps, hm, rfl⟩
      · exact ⟨id, fun x hx hn => absurd hx hn⟩
      · have hgrown : Grown p (d :: path) order deps mid := foldlM_grown (fun _ _ _ h => ih h) hm
        have hsub := (foldlM_visit_subset (fun _ _ _ h => visit_subset h) hm).2
        have hnew : d ∉ mid := fun hmid => (hgrown.new d hmid hd).1 List.mem_cons_self
        refine ⟨fun hl => (hgrown.linear hl).snoc hnew hdeps hsub, ?_⟩
        intro x hx hn
        rcases List.mem_append.mp hx with hx | hx
        · obtain ⟨hx, r, hr, hreach⟩ := hgrown.new x hx hn
          refine ⟨fun hmem => hx (List.mem_cons_of_mem _ hmem), d, List.mem_singleton_self d, ?_⟩
          exact .head ⟨deps, hdeps, hr⟩ hreach
        · rw [List.mem_singleton] at hx
          subst hx
          exact ⟨hpath, x, List.mem_singleton_self x, .refl⟩

def Settled (p : Program) (roots : List DeclId) (result : Except Error (List DeclId)) : Prop :=
  (∃ order, result = .ok order) ∨
    ∃ x n, result = .error (.cycle n) ∧ p.nameOf x = .ok n ∧
      (∃ r ∈ roots, ReflTransGen p.DependsOn r x) ∧ p.OnCycle x

theorem foldlM_settled {ds : List DeclId}
    (hv : ∀ d ∈ ds, ∀ order, Settled p [d] (visit p steps path order d)) :
    Settled p ds (ds.foldlM (visit p steps path) order) := by
  induction ds generalizing order with
  | nil => exact .inl ⟨order, rfl⟩
  | cons d ds ih =>
      rw [List.foldlM_cons]
      rcases hv d List.mem_cons_self order with ⟨mid, hm⟩ | ⟨x, n, hm, hn, ⟨r, hr, hreach⟩, hc⟩
      · rw [hm]
        rcases ih (fun e he => hv e (List.mem_cons_of_mem _ he)) with
          ⟨order', ho⟩ | ⟨x, n, ho, hn, ⟨r, hr, hreach⟩, hc⟩
        · exact .inl ⟨order', ho⟩
        · exact .inr ⟨x, n, ho, hn, ⟨r, List.mem_cons_of_mem _ hr, hreach⟩, hc⟩
      · rw [hm]
        rw [List.mem_singleton] at hr
        exact .inr ⟨x, n, rfl, hn, ⟨d, List.mem_cons_self, hr ▸ hreach⟩, hc⟩

theorem mem_path_of_length (hn : path.Nodup) (hsub : path ⊆ p.declIds) (hl : p.size ≤ path.length)
    (hd : d ∈ p.declIds) : d ∈ path := by
  have hperm : path.Perm p.declIds := by
    apply (hn.subperm hsub).perm_of_length_le
    rwa [Program.length_declIds]
  exact hperm.mem_iff.mpr hd

theorem visit_cycle (hd : d ∈ p.declIds) (ho : d ∉ order) (hp : d ∈ path) (hc : p.OnCycle d) :
    Settled p [d] (visit p steps path order d) := by
  obtain ⟨n, hname⟩ := Program.exists_nameOf hd
  refine .inr ⟨d, n, ?_, hname, ⟨d, List.mem_singleton_self d, .refl⟩, hc⟩
  rw [visit_of_mem_path ho hp, reportOn, hname]

/-- The search has a step left for every declaration outside its path, so it never runs out of
them; and since each declaration of the path leads to `d`, meeting `d` on it closes a cycle. -/
theorem visit_settled (hp : p.InRange) (hd : d ∈ p.declIds) (hn : path.Nodup)
    (hsub : path ⊆ p.declIds) (hl : p.size ≤ steps + path.length)
    (hto : ∀ y ∈ path, TransGen p.DependsOn y d) :
    Settled p [d] (visit p steps path order d) := by
  induction steps generalizing path order d with
  | zero =>
      by_cases ho : d ∈ order
      · exact .inl ⟨order, visit_of_mem ho⟩
      · have hpath : d ∈ path := mem_path_of_length hn hsub (by omega) hd
        exact visit_cycle hd ho hpath (hto d hpath)
  | succ steps ih =>
      by_cases ho : d ∈ order
      · exact .inl ⟨order, visit_of_mem ho⟩
      by_cases hpath : d ∈ path
      · exact visit_cycle hd ho hpath (hto d hpath)
      obtain ⟨deps, hdeps⟩ := Program.exists_dependencies hd
      have hstep (e : DeclId) (he : e ∈ deps) (order : List DeclId) :
          Settled p [e] (visit p steps (d :: path) order e) := by
        have hde : p.DependsOn d e := ⟨deps, hdeps, he⟩
        apply ih (hp.dependsOn hde) (List.nodup_cons.mpr ⟨hpath, hn⟩)
          (List.cons_subset.mpr ⟨hd, hsub⟩)
        · rw [List.length_cons]
          omega
        · intro y hy
          rcases List.mem_cons.mp hy with rfl | hy
          · exact .single hde
          · exact (hto y hy).tail hde
      rw [visit_succ ho hpath hdeps]
      rcases foldlM_settled hstep with ⟨mid, hm⟩ | ⟨x, n, hm, hname, ⟨r, hr, hreach⟩, hc⟩
      · exact .inl ⟨mid ++ [d], by rw [hm]; rfl⟩
      · refine .inr ⟨x, n, by rw [hm]; rfl, hname, ⟨d, List.mem_singleton_self d, ?_⟩, hc⟩
        exact .head ⟨deps, hdeps, hr⟩ hreach

variable {s : Shader} {closure : Closure}

theorem mem_order_iff (h : ofShader p s = .ok closure) : d ∈ closure.order ↔ s.Reaches p d := by
  obtain ⟨hl, hrefs⟩ := ofShader_spec h
  constructor
  · intro hd
    obtain ⟨order, ho, h⟩ := Except.bind_eq_ok.mp h
    obtain ⟨rfl, _⟩ := ofOrder_eq_ok.mp h
    exact ((foldlM_grown (fun _ _ _ h => visit_grown h) ho).new d hd List.not_mem_nil).2
  · rintro ⟨r, hr, hreach⟩
    exact hl.reflTransGen (hrefs hr) hreach

theorem not_onCycle_of_ofShader (h : ofShader p s = .ok closure) (hd : s.Reaches p d) :
    ¬ p.OnCycle d :=
  (ofShader_spec h).1.not_onCycle ((mem_order_iff h).mpr hd)

theorem ofShader_settled (hp : p.InRange) (hs : s.InRange p) :
    (∃ closure, ofShader p s = .ok closure) ∨
      ∃ d n, ofShader p s = .error (.cycle n) ∧ p.nameOf d = .ok n ∧ s.Reaches p d ∧
        p.OnCycle d := by
  have hstep (d : DeclId) (hd : d ∈ s.references) (order : List DeclId) :
      Settled p [d] (visit p p.size [] order d) :=
    visit_settled hp (hs d hd) List.nodup_nil (List.nil_subset _) (by simp) nofun
  rcases foldlM_settled hstep with ⟨order, ho⟩ | ⟨d, n, ho, hname, hreach, hc⟩
  · have hgrown := foldlM_grown (fun _ _ _ h => visit_grown h) ho
    have hempty : Linear p [] := ⟨List.nodup_nil, fun pre d post h => by simp at h⟩
    refine .inl ⟨placed order, ?_⟩
    rw [ofShader, Except.bind_eq_ok]
    exact ⟨order, ho, ofOrder_eq_ok.mpr ⟨rfl, hgrown.linear hempty⟩⟩
  · refine .inr ⟨d, n, ?_, hname, hreach, hc⟩
    rw [ofShader, ho]
    rfl

/-- Where all references are to declarations, the search gives a closure exactly if no cycle can be
reached; the closure lists what is reached, each declaration once and after what it depends on. The
only other outcome is a cycle, which is reported by a declaration on it. -/
theorem ofShader_exact (hp : p.InRange) (hs : s.InRange p) :
    ((∃ closure, ofShader p s = .ok closure) ∨ ∃ n, ofShader p s = .error (.cycle n)) ∧
      ((∃ closure, ofShader p s = .ok closure) ↔ ¬ ∃ d, s.Reaches p d ∧ p.OnCycle d) ∧
      (∀ closure, ofShader p s = .ok closure →
        closure.order.Nodup ∧ (∀ d, d ∈ closure.order ↔ s.Reaches p d) ∧
          ∀ pre d post, closure.order = pre ++ d :: post → ∀ x, p.DependsOn d x → x ∈ pre) ∧
      ∀ n, ofShader p s = .error (.cycle n) →
        ∃ d, p.nameOf d = .ok n ∧ s.Reaches p d ∧ p.OnCycle d := by
  refine ⟨?_, ⟨?_, ?_⟩, ?_, ?_⟩
  · rcases ofShader_settled hp hs with h | ⟨d, n, h, _⟩
    · exact .inl h
    · exact .inr ⟨n, h⟩
  · rintro ⟨closure, h⟩ ⟨d, hd, hc⟩
    exact not_onCycle_of_ofShader h hd hc
  · intro hacyclic
    rcases ofShader_settled hp hs with h | ⟨d, n, _, _, hd, hc⟩
    · exact h
    · exact absurd ⟨d, hd, hc⟩ hacyclic
  · intro closure h
    have hl := (ofShader_spec h).1
    exact ⟨hl.nodup, fun d => mem_order_iff h, fun pre d post ho x hx => hl.dependsOn ho hx⟩
  · intro n h
    rcases ofShader_settled hp hs with ⟨closure, h'⟩ | ⟨d, n', h', hname, hd, hc⟩
    · rw [h'] at h
      cases h
    · rw [h'] at h
      cases h
      exact ⟨d, hname, hd, hc⟩

/-! Two values that are defined by each other, and a third that leads to them; a function of the
same program that has nothing to do with them. -/
namespace Tangled

def float : Ty := .leaf .float

def program : Program where
  records := [⟨"Pair", [⟨"first", float⟩, ⟨"second", float⟩], {}⟩]
  terms := [
    ⟨"outer", .value float (.term ⟨float, {}⟩ 1), {}⟩,
    ⟨"loop", .value float (.term ⟨float, {}⟩ 2), {}⟩,
    ⟨"back", .value float (.term ⟨float, {}⟩ 1), {}⟩,
    ⟨"second", .function [⟨0, "pair", .record 0⟩] float
      (.field ⟨float, {}⟩ (.bound ⟨.record 0, {}⟩ 0) 1), {}⟩]

def shader (value : Expr) : Shader where
  name := "tangled"
  stage := .fragment
  inputs := [⟨"shade", float, {}⟩]
  outputs := [⟨⟨"color", float, {}⟩, .attachment 0⟩]
  assignments := [⟨0, value⟩]

def cyclic : Shader := shader (.term ⟨float, {}⟩ 0)

def straight : Shader :=
  shader (.apply ⟨float, {}⟩ 3
    [.construct ⟨.record 0, {}⟩ 0 [.input ⟨float, {}⟩ 0, .input ⟨float, {}⟩ 0]])

end Tangled

open Tangled in
theorem ofShader_tangled :
    program.InRange ∧ cyclic.InRange program ∧ straight.InRange program ∧
      (ofShader program cyclic = .error (.cycle "loop") ∧
        ∃ d, program.nameOf d = .ok "loop" ∧ cyclic.Reaches program d ∧ program.OnCycle d) ∧
      ofShader program straight = .ok (placed [.record 0, .term 3]) ∧
        ∀ d, d ∈ [.record 0, .term 3] ↔ straight.Reaches program d := by
  have hp : program.InRange := by decide
  have hc : cyclic.InRange program := by decide
  have hs : straight.InRange program := by decide
  have hcycle : ofShader program cyclic = .error (.cycle "loop") := rfl
  have hstraight : ofShader program straight = .ok (placed [.record 0, .term 3]) := rfl
  refine ⟨hp, hc, hs, ⟨hcycle, (ofShader_exact hp hc).2.2.2 _ hcycle⟩, hstraight, ?_⟩
  exact ((ofShader_exact hp hs).2.2.1 _ hstraight).2.1

end Closure

end ShaderDialects
