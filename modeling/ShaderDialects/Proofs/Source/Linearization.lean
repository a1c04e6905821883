import Mathlib.Data.List.Nodup
import ShaderDialects.Proofs.Except
import ShaderDialects.Source.Closure

namespace ShaderDialects

namespace Program

variable {p : Program}

theorem record_eq_ok {i : Nat} {r : Record} : p.record i = .ok r ↔ p.records[i]? = some r := by
  rw [record]
  split <;> simp_all

theorem term_eq_ok {i : Nat} {t : Term} : p.term i = .ok t ↔ p.terms[i]? = some t := by
  rw [term]
  split <;> simp_all

end Program

namespace Expr

theorem mentions_eq (e : Expr) : e.mentions = e.ownMentions ++ e.children.flatMap mentions := by
  rw [mentions, nodes_eq, List.flatMap_cons, List.flatMap_assoc]
  rfl

theorem mentions_of_child {e child : Expr} (h : child ∈ e.children) {d : DeclId}
    (hd : d ∈ child.mentions) : d ∈ e.mentions := by
  rw [mentions_eq]
  exact List.mem_append_right _ (List.mem_flatMap.mpr ⟨child, h, hd⟩)

theorem mentions_of_own {e : Expr} {d : DeclId} (hd : d ∈ e.ownMentions) : d ∈ e.mentions := by
  rw [mentions_eq]
  exact List.mem_append_left _ hd

end Expr

/-- Each declaration stands once, and after all it depends on. -/
structure Linear (p : Program) (order : List DeclId) : Prop where
  nodup : order.Nodup
  after : ∀ pre d post, order = pre ++ d :: post →
    ∃ deps, p.dependencies d = .ok deps ∧ ∀ x ∈ deps, x ∈ pre

namespace Linear

variable {p : Program} {order pre post : List DeclId}

theorem record (h : Linear p order) {i : Nat} (ho : order = pre ++ .record i :: post) :
    ∃ r, p.records[i]? = some r ∧ ∀ x ∈ r.mentions, x ∈ pre := by
  obtain ⟨deps, hd, hm⟩ := h.after pre _ post ho
  obtain ⟨r, hr, rfl⟩ := Except.map_eq_ok.mp hd
  exact ⟨r, Program.record_eq_ok.mp hr, fun x hx => hm x (List.mem_eraseDups.mpr hx)⟩

theorem term (h : Linear p order) {i : Nat} (ho : order = pre ++ .term i :: post) :
    ∃ t, p.terms[i]? = some t ∧ ∀ x ∈ t.kind.mentions, x ∈ pre := by
  obtain ⟨deps, hd, hm⟩ := h.after pre _ post ho
  obtain ⟨t, ht, rfl⟩ := Except.map_eq_ok.mp hd
  exact ⟨t, Program.term_eq_ok.mp ht, fun x hx => hm x (List.mem_eraseDups.mpr hx)⟩

end Linear

namespace Closure

variable {p : Program}

theorem reportOn_ne_ok {α : Type} (make : String → Error) (d : DeclId) (a : α) :
    reportOn p make d ≠ .ok a := by
  rw [reportOn]
  split <;> simp

theorem reportOnPair_ne_ok (make : String → String → Error) (d e : DeclId) (u : Unit) :
    reportOnPair p make d e ≠ .ok u := by
  rw [reportOnPair]
  split <;> simp

theorem placeFrom_eq_ok {i : Nat} {positions placed : Positions} {ds : List DeclId} :
    placeFrom i positions ds = .ok placed ↔
      (ds.Nodup ∧ ∀ d ∈ ds, positions.lookup d = none) ∧
        placed = (ds.zipIdx i).reverse ++ positions := by
  induction ds generalizing i positions with
  | nil =>
      constructor
      · rintro ⟨⟩
        exact ⟨⟨List.nodup_nil, nofun⟩, rfl⟩
      · rintro ⟨-, rfl⟩
        rfl
  | cons d ds ih =>
      rw [placeFrom]
      cases hd : positions.lookup d with
      | some j =>
          rw [Option.isSome_some, if_pos rfl]
          refine iff_of_false nofun ?_
          rintro ⟨⟨-, hds⟩, -⟩
          rw [hds d List.mem_cons_self] at hd
          cases hd
      | none =>
          have hnone (e : DeclId) : ((d, i) :: positions).lookup e = none ↔
              e ≠ d ∧ positions.lookup e = none := by
            by_cases he : e = d
            · simp [he]
            · rw [List.lookup_cons, beq_false_of_ne he]
              exact (and_iff_right he).symm
          rw [Option.isSome_none, if_neg Bool.false_ne_true, ih, List.nodup_cons,
            List.forall_mem_cons]
          simp only [hnone, hd, true_and, List.zipIdx_cons, List.reverse_cons, List.append_assoc,
            List.singleton_append]
          refine and_congr_left fun _ => ⟨?_, ?_⟩
          · rintro ⟨hn, hds⟩
            exact ⟨⟨fun hmem => (hds d hmem).1 rfl, hn⟩, fun e he => (hds e he).2⟩
          · rintro ⟨⟨hmem, hn⟩, hds⟩
            exact ⟨hn, fun e he => ⟨fun h => hmem (h ▸ he), hds e he⟩⟩

def placed (order : List DeclId) : Closure := ⟨order, order.zipIdx.reverse⟩

@[simp]
theorem order_placed (order : List DeclId) : (placed order).order = order := rfl

theorem placeFrom_of_nodup {order : List DeclId} (hn : order.Nodup) :
    placeFrom 0 [] order = .ok (placed order).positions :=
  placeFrom_eq_ok.mpr ⟨⟨hn, fun _ _ => rfl⟩, by rw [List.append_nil]; rfl⟩

theorem idxOf?_eq_some {order : List DeclId} {d : DeclId} (hn : order.Nodup) {i : Nat} :
    order.idxOf? d = some i ↔ order[i]? = some d := by
  rw [List.idxOf?_eq_some_iff, List.getElem?_eq_some_iff]
  refine exists_congr fun hi => and_iff_left_of_imp fun hd j hj hj' => ?_
  have hij := (List.Nodup.getElem_inj_iff hn).mp (hj'.trans hd.symm)
  omega

/-- The place that is noted for a declaration is the one that it has in the order. -/
theorem lookup_placed {order : List DeclId} (hn : order.Nodup) (d : DeclId) :
    (placed order).positions.lookup d = order.idxOf? d := by
  have hplace {j : Nat} (hj : (placed order).positions.lookup d = some j) :
      order.idxOf? d = some j := by
    obtain ⟨pre, post, hsplit, -⟩ := List.lookup_eq_some_iff.mp hj
    have hmem : (d, j) ∈ order.zipIdx.reverse := by
      rw [show order.zipIdx.reverse = pre ++ (d, j) :: post from hsplit]
      simp
    rw [List.mem_reverse, List.mem_zipIdx_iff_getElem?] at hmem
    exact (idxOf?_eq_some hn).mpr hmem
  cases hlookup : (placed order).positions.lookup d with
  | some j => exact (hplace hlookup).symm
  | none =>
      rw [eq_comm, List.idxOf?_eq_none_iff]
      intro hd
      obtain ⟨j, hj⟩ := List.mem_iff_getElem?.mp hd
      have hmem : (d, j) ∈ order.zipIdx.reverse :=
        List.mem_reverse.mpr (List.mem_zipIdx_iff_getElem?.mpr hj)
      exact bne_iff_ne.mp (List.lookup_eq_none_iff.mp hlookup _ hmem) rfl

theorem checkDependency_eq_ok {positions : Positions} {i : Nat} {d e : DeclId} {u : Unit} :
    checkDependency p positions i d e = .ok u ↔ ∃ j, positions.lookup e = some j ∧ j < i := by
  rw [checkDependency]
  cases positions.lookup e with
  | none => exact iff_of_false (reportOnPair_ne_ok _ _ _ _) (by simp)
  | some j =>
      by_cases hi : j = i
      · simp [hi, reportOn_ne_ok]
      · by_cases hj : i < j
        · simp [hi, hj, reportOnPair_ne_ok, Nat.not_lt_of_gt hj]
        · simp only [hi, hj, if_false, Option.some.injEq, exists_eq_left', true_iff]
          omega

theorem checkFrom_eq_ok {positions : Positions} {rest : List DeclId} {i : Nat} {u : Unit} :
    checkFrom p positions i rest = .ok u ↔ ∀ pre d post, rest = pre ++ d :: post →
      ∃ deps, p.dependencies d = .ok deps ∧
        ∀ x ∈ deps, ∃ j, positions.lookup x = some j ∧ j < i + pre.length := by
  induction rest generalizing i with
  | nil => simp [checkFrom]
  | cons d rest ih =>
      simp only [checkFrom, Except.bind_eq_ok, Except.mapError_eq_ok, Except.forM_eq_ok, ih,
        checkDependency_eq_ok]
      constructor
      · rintro ⟨deps, hdeps, ⟨⟩, hd, hrest⟩ pre e post ho
        cases pre with
        | nil =>
            obtain ⟨rfl, rfl⟩ := List.cons.inj ho
            exact ⟨deps, hdeps, hd⟩
        | cons e' pre =>
            obtain ⟨rfl, rfl⟩ := List.cons.inj ho
            obtain ⟨deps, hdeps, hj⟩ := hrest pre e post rfl
            refine ⟨deps, hdeps, fun x hx => ?_⟩
            obtain ⟨j, hx, hlt⟩ := hj x hx
            exact ⟨j, hx, by rw [List.length_cons]; omega⟩
      · intro h
        obtain ⟨deps, hdeps, hd⟩ := h [] d rest rfl
        refine ⟨deps, hdeps, (), hd, fun pre e post ho => ?_⟩
        obtain ⟨deps, hdeps, hj⟩ := h (d :: pre) e post (by rw [ho]; rfl)
        refine ⟨deps, hdeps, fun x hx => ?_⟩
        obtain ⟨j, hx, hlt⟩ := hj x hx
        exact ⟨j, hx, by rw [List.length_cons] at hlt; omega⟩

theorem idxOf?_lt_iff {pre post : List DeclId} {x : DeclId} :
    (∃ j, (pre ++ post).idxOf? x = some j ∧ j < pre.length) ↔ x ∈ pre := by
  constructor
  · rintro ⟨j, hx, hlt⟩
    obtain ⟨hl, hx, _⟩ := List.idxOf?_eq_some_iff.mp hx
    rw [List.getElem_append_left hlt] at hx
    exact hx ▸ List.getElem_mem _
  · intro hx
    have hlt := List.idxOf_lt_length_of_mem hx
    refine ⟨pre.idxOf x, ?_, hlt⟩
    rw [List.idxOf?_eq_some_iff]
    refine ⟨by rw [List.length_append]; omega, ?_, fun j hj => ?_⟩
    · rw [List.getElem_append_left hlt, List.getElem_idxOf]
    · rw [List.getElem_append_left (by omega)]
      exact beq_eq_false_iff_ne.mp (List.not_of_lt_findIdx hj)

theorem checkFrom_placed_eq_ok {order : List DeclId} (hn : order.Nodup) :
    checkFrom p (placed order).positions 0 order = .ok () ↔ ∀ pre d post, order = pre ++ d :: post →
      ∃ deps, p.dependencies d = .ok deps ∧ ∀ x ∈ deps, x ∈ pre := by
  rw [checkFrom_eq_ok]
  simp only [lookup_placed hn]
  refine forall₄_congr fun pre d post ho => ?_
  simp only [Nat.zero_add, ho, idxOf?_lt_iff]

/-- The orders that are accepted are the linear ones. -/
theorem ofOrder_eq_ok {order : List DeclId} {closure : Closure} :
    ofOrder p order = .ok closure ↔ closure = placed order ∧ Linear p order := by
  by_cases hn : order.Nodup
  · rw [ofOrder, placeFrom_of_nodup hn]
    simp only [Except.bind_eq_ok, Except.pure_eq_ok]
    constructor
    · rintro ⟨⟨⟩, hcheck, rfl⟩
      exact ⟨rfl, hn, (checkFrom_placed_eq_ok hn).mp hcheck⟩
    · rintro ⟨rfl, hl⟩
      exact ⟨(), (checkFrom_placed_eq_ok hn).mpr hl.after, rfl⟩
  · refine iff_of_false (fun h => ?_) fun h => hn h.2.nodup
    rw [ofOrder] at h
    cases hplaced : placeFrom 0 [] order with
    | error d =>
        rw [hplaced] at h
        exact reportOn_ne_ok _ _ _ h
    | ok positions => exact hn (placeFrom_eq_ok.mp hplaced).1.1

theorem visit_of_mem {steps : Nat} {path order : List DeclId} {d : DeclId} (h : d ∈ order) :
    visit p steps path order d = .ok order := by
  cases steps <;> rw [visit, if_pos h]

theorem visit_of_mem_path {steps : Nat} {path order : List DeclId} {d : DeclId} (h : d ∉ order)
    (hp : d ∈ path) :
    visit p steps path order d = reportOn p .cycle d := by
  cases steps <;> rw [visit, if_neg h, if_pos hp]

/-- A search that succeeds finds `d` in the order, or puts it after all that it depends on. -/
theorem visit_eq_ok {steps : Nat} {path order order' : List DeclId} {d : DeclId}
    (h : visit p steps path order d = .ok order') :
    (d ∈ order ∧ order' = order) ∨
      d ∉ order ∧ d ∉ path ∧ ∃ rest deps mid, steps = rest + 1 ∧ p.dependencies d = .ok deps ∧
        deps.foldlM (visit p rest (d :: path)) order = .ok mid ∧ order' = mid ++ [d] := by
  by_cases ho : d ∈ order
  · rw [visit_of_mem ho] at h
    exact .inl ⟨ho, (Except.ok.inj h).symm⟩
  by_cases hp : d ∈ path
  · rw [visit_of_mem_path ho hp] at h
    exact absurd h (reportOn_ne_ok _ _ _)
  · cases steps with
    | zero =>
        rw [visit, if_neg ho, if_neg hp] at h
        cases h
    | succ rest =>
        rw [visit, if_neg ho, if_neg hp] at h
        obtain ⟨deps, hdeps, h⟩ := Except.bind_eq_ok.mp h
        obtain ⟨mid, hm, h⟩ := Except.bind_eq_ok.mp h
        exact .inr ⟨ho, hp, rest, deps, mid, rfl, Except.mapError_eq_ok.mp hdeps, hm,
          (Except.pure_eq_ok.mp h).symm⟩

theorem foldlM_visit_subset {steps : Nat} {path : List DeclId}
    (hv : ∀ order d order', visit p steps path order d = .ok order' →
      order ⊆ order' ∧ d ∈ order')
    {ds order order' : List DeclId} (h : ds.foldlM (visit p steps path) order = .ok order') :
    order ⊆ order' ∧ ds ⊆ order' := by
  induction ds generalizing order with
  | nil =>
      cases h
      simp
  | cons d ds ih =>
      obtain ⟨mid, hm, h⟩ := Except.bind_eq_ok.mp h
      obtain ⟨hsub, hd⟩ := hv _ _ _ hm
      obtain ⟨hsub', hds⟩ := ih h
      exact ⟨List.Subset.trans hsub hsub', List.cons_subset.mpr ⟨hsub' hd, hds⟩⟩

theorem visit_subset {steps : Nat} {path order order' : List DeclId} {d : DeclId}
    (h : visit p steps path order d = .ok order') : order ⊆ order' ∧ d ∈ order' := by
  induction steps generalizing path order order' d with
  | zero =>
      rcases visit_eq_ok h with ⟨hd, rfl⟩ | ⟨_, _, _, _, _, hs, _⟩
      · exact ⟨List.Subset.refl _, hd⟩
      · omega
  | succ steps ih =>
      rcases visit_eq_ok h with ⟨hd, rfl⟩ | ⟨_, _, _, deps, mid, ⟨⟩, _, hm, rfl⟩
      · exact ⟨List.Subset.refl _, hd⟩
      · have hs := (foldlM_visit_subset (fun _ _ _ h => ih h) hm).1
        exact ⟨fun x hx => List.mem_append_left _ (hs hx), by simp⟩

theorem ofShader_spec {s : Shader} {closure : Closure} (h : ofShader p s = .ok closure) :
    Linear p closure.order ∧ s.references ⊆ closure.order := by
  obtain ⟨order, ho, h⟩ := Except.bind_eq_ok.mp h
  obtain ⟨rfl, hl⟩ := ofOrder_eq_ok.mp h
  exact ⟨hl, (foldlM_visit_subset (fun _ _ _ h => visit_subset h) ho).2⟩

theorem mentions_subset_of_ofShader {s : Shader} {closure : Closure}
    (h : ofShader p s = .ok closure) :
    ∀ e ∈ s.exprs, ∀ d ∈ e.mentions, d ∈ closure.order := by
  intro e he d hd
  have hall : d ∈ s.exprs.flatMap Expr.mentions := List.mem_flatMap.mpr ⟨e, he, hd⟩
  exact (ofShader_spec h).2 (List.mem_eraseDups.mpr (List.mem_append_right _ hall))

end Closure

end ShaderDialects
