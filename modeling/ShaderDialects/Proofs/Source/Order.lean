import Mathlib.Data.List.Induction
import Mathlib.Data.List.Nodup
import ShaderDialects.Proofs.Source.Reachability

namespace ShaderDialects

namespace Program

def mentions (p : Program) : DeclId → List DeclId
  | .record i => (p.records[i]?.map Record.mentions).getD []
  | .term i => (p.terms[i]?.map fun t => t.kind.mentions).getD []

variable {p : Program} {d : DeclId}

theorem dependencies_eq (hd : d ∈ p.declIds) : p.dependencies d = .ok (p.mentions d).eraseDups := by
  rcases mem_declIds_cases hd with ⟨i, r, rfl, hr⟩ | ⟨i, t, rfl, ht⟩
  · rw [mentions, record_eq_ok.mp hr, dependencies, hr]
    rfl
  · rw [mentions, term_eq_ok.mp ht, dependencies, ht]
    rfl

theorem nameOf_of_not_mem (hd : d ∉ p.declIds) : p.nameOf d = .error (.dangling d) := by
  cases d with
  | record i =>
      have hi : p.records[i]? = none :=
        List.getElem?_eq_none (Nat.le_of_not_lt (record_mem_declIds.not.mp hd))
      rw [nameOf, record, hi]
      rfl
  | term i =>
      have hi : p.terms[i]? = none :=
        List.getElem?_eq_none (Nat.le_of_not_lt (term_mem_declIds.not.mp hd))
      rw [nameOf, term, hi]
      rfl

end Program

namespace Linear

variable {p : Program} {order pre post : List DeclId} {d : DeclId}

theorem mentions (h : Linear p order) (hr : ∀ d ∈ order, d ∈ p.declIds)
    (ho : order = pre ++ d :: post) : p.mentions d ⊆ pre := by
  obtain ⟨deps, hdeps, hm⟩ := h.after pre d post ho
  rw [Program.dependencies_eq (hr d (by simp [ho]))] at hdeps
  cases hdeps
  exact fun x hx => hm x (List.mem_eraseDups.mpr hx)

theorem of_mentions (hn : order.Nodup) (hr : ∀ d ∈ order, d ∈ p.declIds)
    (h : ∀ pre d post, order = pre ++ d :: post → p.mentions d ⊆ pre) : Linear p order := by
  refine ⟨hn, fun pre d post ho => ?_⟩
  refine ⟨_, Program.dependencies_eq (hr d (by simp [ho])), fun x hx => ?_⟩
  exact h pre d post ho (List.mem_eraseDups.mp hx)

theorem iff_places (hr : ∀ d ∈ order, d ∈ p.declIds) :
    Linear p order ↔ order.Nodup ∧ ∀ (i : Nat) (d : DeclId), order[i]? = some d →
      ∀ x ∈ p.mentions d, ∃ j < i, order[j]? = some x := by
  constructor
  · intro h
    refine ⟨h.nodup, fun i d hi x hx => ?_⟩
    obtain ⟨hlt, rfl⟩ := List.getElem?_eq_some_iff.mp hi
    have ho : order = order.take i ++ order[i] :: order.drop (i + 1) := by simp
    obtain ⟨j, hj⟩ := List.mem_iff_getElem?.mp (h.mentions hr ho hx)
    by_cases hji : j < i
    · exact ⟨j, hji, by rwa [List.getElem?_take_of_lt hji] at hj⟩
    · rw [List.getElem?_take_eq_none (by omega)] at hj
      cases hj
  · rintro ⟨hn, h⟩
    refine of_mentions hn hr fun pre d post ho x hx => ?_
    obtain ⟨j, hj, hx⟩ := h pre.length d (by simp [ho]) x hx
    rw [ho, List.getElem?_append_left hj] at hx
    exact List.mem_of_getElem? hx

end Linear

namespace Closure

/-- The first reference of an order that does not lead back in it: `d` refers to `x`, which is not
in `pre`, and all references before this one, from `d` and from `pre`, lead back. -/
structure Astray (p : Program) (pre : List DeclId) (d x : DeclId) : Prop where
  settled : ∀ pre' e post', pre = pre' ++ e :: post' → p.mentions e ⊆ pre'
  first : ∃ before after, p.mentions d = before ++ x :: after ∧ before ⊆ pre
  outside : x ∉ pre

inductive Rejected (p : Program) (order : List DeclId) : Error → Prop
  | duplicate {pre d post n} (ho : order = pre ++ d :: post) (hn : pre.Nodup) (hd : d ∈ pre)
      (hname : p.nameOf d = .ok n) : Rejected p order (.duplicate n)
  | missing {pre d post x n m} (hn : order.Nodup) (ho : order = pre ++ d :: post)
      (h : Astray p pre d x) (hx : x ∉ order) (hname : p.nameOf d = .ok n)
      (hname' : p.nameOf x = .ok m) : Rejected p order (.missing n m)
  | cycle {pre d post n} (hn : order.Nodup) (ho : order = pre ++ d :: post)
      (h : Astray p pre d d) (hname : p.nameOf d = .ok n) : Rejected p order (.cycle n)
  | outOfOrder {pre d post x n m} (hn : order.Nodup) (ho : order = pre ++ d :: post)
      (h : Astray p pre d x) (hx : x ∈ post) (hname : p.nameOf d = .ok n)
      (hname' : p.nameOf x = .ok m) : Rejected p order (.outOfOrder n m)
  /-- What is missing is not declared at all, and so has no name to be reported under. -/
  | dangling {pre d post x} (hn : order.Nodup) (ho : order = pre ++ d :: post)
      (h : Astray p pre d x) (hx : x ∉ p.declIds) : Rejected p order (.fault (.dangling x))

variable {p : Program} {order pre post : List DeclId} {d x : DeclId}

theorem placeFrom_append {i : Nat} {positions : Positions} (hn : pre.Nodup)
    (hs : ∀ e ∈ pre, positions.lookup e = none) (hd : d ∈ pre ∨ (positions.lookup d).isSome) :
    placeFrom i positions (pre ++ d :: post) = .error d := by
  induction pre generalizing i positions with
  | nil => exact if_pos (hd.resolve_left List.not_mem_nil)
  | cons e pre ih =>
      obtain ⟨he, hn⟩ := List.nodup_cons.mp hn
      obtain ⟨hes, hs⟩ := List.forall_mem_cons.mp hs
      rw [List.cons_append, placeFrom, hes, Option.isSome_none, if_neg Bool.false_ne_true]
      apply ih hn
      · intro f hf
        rw [List.lookup_cons, beq_false_of_ne (ne_of_mem_of_not_mem hf he)]
        exact hs f hf
      · by_cases hde : d = e
        · exact .inr (by simp [hde])
        · rcases hd with hd | hd
          · exact .inl ((List.mem_cons.mp hd).resolve_left hde)
          · rw [List.lookup_cons, beq_false_of_ne hde]
            exact .inr hd

theorem checkFrom_append {positions : Positions} {i : Nat}
    (h : checkFrom p positions i pre = .ok ()) (rest : List DeclId) :
    checkFrom p positions i (pre ++ rest) = checkFrom p positions (i + pre.length) rest := by
  induction pre generalizing i with
  | nil => rfl
  | cons e pre ih =>
      obtain ⟨deps, hdeps, h⟩ := Except.bind_eq_ok.mp h
      obtain ⟨u, hu, h⟩ := Except.bind_eq_ok.mp h
      rw [List.cons_append, checkFrom, Except.bind_of_ok hdeps, Except.bind_of_ok hu, ih h,
        List.length_cons, Nat.add_right_comm, Nat.add_assoc]

/-- Checking an order comes down to the first reference that does not lead back. -/
theorem checkFrom_eq_error {e : Error} (hn : order.Nodup) (hr : ∀ d ∈ order, d ∈ p.declIds)
    (ho : order = pre ++ d :: post) (h : Astray p pre d x)
    (hx : checkDependency p (placed order).positions pre.length d x = .error e) :
    checkFrom p (placed order).positions 0 order = .error e := by
  have hpre : checkFrom p (placed order).positions 0 pre = .ok () := by
    rw [checkFrom_eq_ok]
    intro pre' e post' hp
    refine ⟨_, Program.dependencies_eq (hr e (by simp [ho, hp])), fun y hy => ?_⟩
    rw [lookup_placed hn, ho, hp, List.append_assoc, Nat.zero_add, idxOf?_lt_iff]
    exact h.settled pre' e post' hp (List.mem_eraseDups.mp hy)
  have hdeps : (p.dependencies d).mapError Error.fault = .ok (p.mentions d).eraseDups :=
    Except.mapError_of_ok (Program.dependencies_eq (hr d (by simp [ho])))
  have hself : (p.mentions d).eraseDups.forM
      (checkDependency p (placed order).positions pre.length d) = .error e := by
    obtain ⟨before, after, hm, hb⟩ := h.first
    rw [Except.forM_eraseDups, hm]
    refine Except.forM_append_error (fun y hy => ?_) hx
    rw [checkDependency_eq_ok, lookup_placed hn, ho, idxOf?_lt_iff]
    exact hb hy
  have hcut := checkFrom_append hpre (d :: post)
  rw [← ho] at hcut
  rw [hcut, checkFrom, Except.bind_of_ok hdeps, Nat.zero_add, Except.bind_of_error hself]

theorem ofOrder_of_astray {e : Error} (hn : order.Nodup) (hr : ∀ d ∈ order, d ∈ p.declIds)
    (ho : order = pre ++ d :: post) (h : Astray p pre d x)
    (hx : checkDependency p (placed order).positions pre.length d x = .error e) :
    ofOrder p order = .error e := by
  rw [ofOrder, placeFrom_of_nodup hn]
  exact Except.bind_of_error (checkFrom_eq_error hn hr ho h hx) _

theorem Rejected.ofOrder_eq {e : Error} (h : Rejected p order e)
    (hr : ∀ d ∈ order, d ∈ p.declIds) : ofOrder p order = .error e := by
  cases h with
  | @duplicate pre d post n ho hn hd hname =>
      have hfirst : placeFrom 0 [] order = .error d :=
        ho ▸ placeFrom_append hn (fun _ _ => rfl) (.inl hd)
      rw [ofOrder, hfirst]
      simp only [reportOn, hname]
  | missing hn ho h hx hname hname' =>
      apply ofOrder_of_astray hn hr ho h
      rw [checkDependency, lookup_placed hn, List.idxOf?_eq_none_iff.mpr hx, reportOnPair, hname,
        hname']
  | @cycle pre d post n hn ho h hname =>
      apply ofOrder_of_astray hn hr ho h
      have hplace : order.idxOf? d = some pre.length := (idxOf?_eq_some hn).mpr (by simp [ho])
      rw [checkDependency, lookup_placed hn, hplace]
      simp only [if_true, reportOn, hname]
  | @outOfOrder pre d post x n m hn ho h hx hname hname' =>
      apply ofOrder_of_astray hn hr ho h
      obtain ⟨j, hj⟩ := List.mem_iff_getElem?.mp hx
      have hplace : order.idxOf? x = some (pre.length + (j + 1)) := by
        rw [idxOf?_eq_some hn, ho, List.getElem?_append_right (by omega), Nat.add_sub_cancel_left]
        exact hj
      rw [checkDependency, lookup_placed hn, hplace]
      simp only
      rw [if_neg (by omega), if_pos (by omega), reportOnPair, hname, hname']
  | @dangling pre d post x hn ho h hx =>
      apply ofOrder_of_astray hn hr ho h
      obtain ⟨n, hname⟩ := Program.exists_nameOf (hr d (by simp [ho]))
      have hout : x ∉ order := fun hmem => hx (hr x hmem)
      rw [checkDependency, lookup_placed hn, List.idxOf?_eq_none_iff.mpr hout, reportOnPair, hname,
        Program.nameOf_of_not_mem hx]

theorem exists_first_repeated (h : ¬ order.Nodup) :
    ∃ pre d post, order = pre ++ d :: post ∧ pre.Nodup ∧ d ∈ pre := by
  induction order using List.reverseRecOn with
  | nil => exact absurd List.nodup_nil h
  | append_singleton order d ih =>
      by_cases hn : order.Nodup
      · refine ⟨order, d, [], rfl, hn, ?_⟩
        by_contra hd
        exact h (List.concat_eq_append ▸ List.Nodup.concat hd hn)
      · obtain ⟨pre, e, post, rfl, hpre, he⟩ := ih hn
        exact ⟨pre, e, post ++ [d], by simp, hpre, he⟩

theorem mentions_cases (pre : List DeclId) (d : DeclId) :
    p.mentions d ⊆ pre ∨ ∃ x before after, p.mentions d = before ++ x :: after ∧ before ⊆ pre ∧
      x ∉ pre := by
  cases hfind : (p.mentions d).find? (· ∉ pre) with
  | none => exact .inl fun x hx => by simpa using List.find?_eq_none.mp hfind x hx
  | some x =>
      obtain ⟨hx, before, after, hm, hb⟩ := List.find?_eq_some_iff_append.mp hfind
      exact .inr ⟨x, before, after, hm, fun y hy => by simpa using hb y hy, by simpa using hx⟩

theorem linear_or_astray (hn : order.Nodup) (hr : ∀ d ∈ order, d ∈ p.declIds) :
    Linear p order ∨ ∃ pre d post x, order = pre ++ d :: post ∧ Astray p pre d x := by
  induction order using List.reverseRecOn with
  | nil => exact .inl ⟨hn, fun pre d post h => by simp at h⟩
  | append_singleton order d ih =>
      obtain ⟨hn, -, hd⟩ := List.nodup_append.mp hn
      obtain ⟨hr, hrd⟩ := List.forall_mem_append.mp hr
      rcases ih hn hr with hl | ⟨pre, e, post, x, rfl, h⟩
      · rcases mentions_cases (p := p) order d with hsub | ⟨x, before, after, hm, hb, hx⟩
        · have hfresh : d ∉ order := fun hmem => hd d hmem d (List.mem_singleton_self d) rfl
          refine .inl (hl.snoc hfresh (Program.dependencies_eq (hrd d (by simp))) ?_)
          exact fun x hx => hsub (List.mem_eraseDups.mp hx)
        · refine .inr ⟨order, d, [], x, rfl, fun pre' e post' ho => ?_, ⟨before, after, hm, hb⟩, hx⟩
          exact hl.mentions hr ho
      · exact .inr ⟨pre, e, post ++ [d], x, by simp, h⟩

theorem linear_or_rejected (hr : ∀ d ∈ order, d ∈ p.declIds) :
    Linear p order ∨ ∃ e, Rejected p order e := by
  by_cases hn : order.Nodup
  · rcases linear_or_astray hn hr with hl | ⟨pre, d, post, x, ho, h⟩
    · exact .inl hl
    · obtain ⟨n, hname⟩ := Program.exists_nameOf (hr d (by simp [ho]))
      by_cases hx : x ∈ p.declIds
      · obtain ⟨m, hname'⟩ := Program.exists_nameOf hx
        by_cases hout : x ∈ order
        · rw [ho, List.mem_append, List.mem_cons] at hout
          rcases hout.resolve_left h.outside with rfl | hpost
          · exact .inr ⟨_, .cycle hn ho h hname⟩
          · exact .inr ⟨_, .outOfOrder hn ho h hpost hname hname'⟩
        · exact .inr ⟨_, .missing hn ho h hout hname hname'⟩
      · exact .inr ⟨_, .dangling hn ho h hx⟩
  · obtain ⟨pre, d, post, ho, hpre, hd⟩ := exists_first_repeated hn
    obtain ⟨n, hname⟩ := Program.exists_nameOf (hr d (by simp [ho]))
    exact .inr ⟨_, .duplicate ho hpre hd hname⟩

/-- An order of declarations is accepted exactly if each stands once and after all that it refers
to. The closure then finds each declaration at its place in the order, and no other. Any other
order is rejected with the report on what is first wrong with it. -/
theorem ofOrder_exact (hr : ∀ d ∈ order, d ∈ p.declIds) :
    ((∃ closure, ofOrder p order = .ok closure) ↔
      order.Nodup ∧ ∀ (i : Nat) (d : DeclId), order[i]? = some d →
        ∀ x ∈ p.mentions d, ∃ j < i, order[j]? = some x) ∧
    (∀ closure, ofOrder p order = .ok closure → closure.order = order ∧ ∀ d,
      (∀ i, closure.position? d = some i ↔ order[i]? = some d) ∧
        (closure.contains d = true ↔ d ∈ order)) ∧
    ∀ e, ofOrder p order = .error e ↔ Rejected p order e := by
  refine ⟨?_, ?_, fun e => ⟨fun h => ?_, fun h => h.ofOrder_eq hr⟩⟩
  · rw [← Linear.iff_places hr]
    constructor
    · rintro ⟨closure, h⟩
      exact (ofOrder_eq_ok.mp h).2
    · exact fun hl => ⟨_, ofOrder_eq_ok.mpr ⟨rfl, hl⟩⟩
  · intro closure h
    obtain ⟨rfl, hl⟩ := ofOrder_eq_ok.mp h
    refine ⟨rfl, fun d => ⟨fun i => ?_, ?_⟩⟩
    · rw [position?, lookup_placed hl.nodup, idxOf?_eq_some hl.nodup]
    · rw [contains, lookup_placed hl.nodup, List.isSome_idxOf?]
  · rcases linear_or_rejected hr with hl | ⟨e', h'⟩
    · rw [ofOrder_eq_ok.mpr ⟨rfl, hl⟩] at h
      cases h
    · rw [h'.ofOrder_eq hr] at h
      cases h
      exact h'

/-! A pair, a function that takes one, another that passes it on to the first, and a value that is
defined by itself. -/
namespace Supplied

def float : Ty := .leaf .float

def program : Program where
  records := [⟨"Pair", [⟨"first", float⟩, ⟨"second", float⟩], {}⟩]
  terms := [
    ⟨"scale", .function [⟨0, "pair", .record 0⟩] float
      (.field ⟨float, {}⟩ (.bound ⟨.record 0, {}⟩ 0) 0), {}⟩,
    ⟨"helper", .function [⟨0, "pair", .record 0⟩] float
      (.apply ⟨float, {}⟩ 0 [.bound ⟨.record 0, {}⟩ 0]), {}⟩,
    ⟨"loop", .value float (.term ⟨float, {}⟩ 2), {}⟩]

end Supplied

open Supplied in
theorem ofOrder_exact_supplied :
    (∀ d ∈ [.record 0, .term 0, .term 1, .term 2], d ∈ program.declIds) ∧
    (ofOrder program [.record 0, .term 0, .term 1] = .ok (placed [.record 0, .term 0, .term 1]) ∧
      (placed [.record 0, .term 0, .term 1]).position? (.term 1) = some 2) ∧
    Rejected program [.term 2, .record 0, .term 1, .record 0] (.duplicate "Pair") ∧
    Rejected program [.record 0, .term 1, .term 2] (.missing "helper" "scale") ∧
    Rejected program [.record 0, .term 2, .term 1] (.cycle "loop") ∧
    Rejected program [.term 1, .record 0, .term 0] (.outOfOrder "helper" "Pair") := by
  have hok : ofOrder program [.record 0, .term 0, .term 1] =
      .ok (placed [.record 0, .term 0, .term 1]) := rfl
  have hplace := ((ofOrder_exact (by decide)).2.1 _ hok).2 (.term 1)
  refine ⟨by decide, ⟨hok, (hplace.1 2).mpr rfl⟩, ?_, ?_, ?_, ?_⟩
  · exact ((ofOrder_exact (by decide)).2.2 _).mp rfl
  · exact ((ofOrder_exact (by decide)).2.2 _).mp rfl
  · exact ((ofOrder_exact (by decide)).2.2 _).mp rfl
  · exact ((ofOrder_exact (by decide)).2.2 _).mp rfl

end Closure

end ShaderDialects
