import ShaderDialects.Proofs.Legality.Lowered
import ShaderDialects.Proofs.Lowering.Scope
import ShaderDialects.Proofs.Lowering.Visibility

namespace ShaderDialects.Dialect

/-- The expression reads the variable. -/
def Expr.Uses (n : String) (e : Expr) : Prop := .var n ∈ e.nodes

theorem Expr.uses_iff {n : String} {e : Expr} :
    e.Uses n ↔ e = .var n ∨ ∃ x ∈ e.children, x.Uses n := by
  rw [Uses, nodes_eq, List.mem_cons, List.mem_flatMap, eq_comm]
  rfl

@[simp]
theorem Expr.uses_var {n m : String} : (Expr.var m).Uses n ↔ m = n := by
  simp [Uses, nodes, eq_comm]

theorem Expr.Scoped.child {V : Visible} {locals : List String} {e x : Expr}
    (h : e.Scoped V locals) (hx : x ∈ e.children) : x.Scoped V locals := by
  cases e with
  | literal v | var m | builtin m => exact absurd hx List.not_mem_nil
  | call f args =>
      cases f with
      | native m => exact scopedAll_iff.mp h x hx
      | user m => exact scopedAll_iff.mp h.2 x hx
  | binary op l r =>
      rcases List.mem_cons.mp hx with rfl | hx
      · exact h.1
      · exact List.mem_singleton.mp hx ▸ h.2
  | unary op e | field e m | swizzle e s | index e i => exact List.mem_singleton.mp hx ▸ h

@[elab_as_elim]
theorem Expr.inductChildren {motive : Expr → Prop}
    (step : ∀ e, (∀ x ∈ e.children, motive x) → motive e) (e : Expr) : motive e := by
  induction e with
  | literal v | var n | builtin n => exact step _ nofun
  | call f args ih => exact step _ ih
  | binary op l r ihl ihr => exact step _ (by simp [children, ihl, ihr])
  | unary op e ih | field e n ih | swizzle e s ih | index e i ih =>
      exact step _ (List.forall_mem_singleton.mpr ih)

theorem Expr.Scoped.reads {V : Visible} {locals : List String} {e : Expr} (h : e.Scoped V locals)
    {n : String} (hn : e.Uses n) : n ∈ locals ∨ n ∈ V.names ∨ V.Constant n := by
  induction e using inductChildren with
  | step e ih =>
      rcases uses_iff.mp hn with rfl | ⟨x, hx, hr⟩
      · exact h
      · exact ih x hx (h.child hx) hr

inductive Event where
  | declare (name : String) (init : Option Expr)
  | assign (target : String) (value : Expr)
  | eval (value : Expr)
  | return (value : Expr)

namespace Event

def exprs : Event → List Expr
  | declare _ init => init.toList
  | assign _ value | eval value | .return value => [value]

def Reads (n : String) (ev : Event) : Prop := ∃ e ∈ ev.exprs, e.Uses n

@[simp]
theorem reads_init {n m : String} {e : Expr} : (declare m (some e)).Reads n ↔ e.Uses n := by
  simp [Reads, exprs]

@[simp]
theorem reads_eval {n : String} {e : Expr} : (eval e).Reads n ↔ e.Uses n := by
  simp [Reads, exprs]

@[simp]
theorem reads_return {n : String} {e : Expr} : (Event.return e).Reads n ↔ e.Uses n := by
  simp [Reads, exprs]

def declared? : Event → Option String
  | declare name _ => some name
  | _ => none

def bare? : Event → Option String
  | declare name none => some name
  | _ => none

def target? : Event → Option String
  | assign target _ => some target
  | _ => none

def Mentions (n : String) (ev : Event) : Prop :=
  ev.Reads n ∨ ev.target? = some n ∨ ev.declared? = some n

end Event

def declared (es : List Event) : List String := es.filterMap Event.declared?

theorem mem_declared {es : List Event} {n : String} :
    n ∈ declared es ↔ ∃ ev ∈ es, ev.declared? = some n :=
  List.mem_filterMap

theorem declared_append (es es' : List Event) :
    declared (es ++ es') = declared es ++ declared es' :=
  List.filterMap_append

theorem declared_subset_cons (ev : Event) (es : List Event) : declared es ⊆ declared (ev :: es) :=
  ((List.sublist_cons_self ev es).filterMap _).subset

/-- A way through statements. A return does not end it, so that it shows what stands after one. -/
inductive Path : List Stmt → List Event → Prop where
  | nil : Path [] []
  | declare {n ty init ss es} (h : Path ss es) :
      Path (.declare n ty init :: ss) (.declare n init :: es)
  | assign {n value ss es} (h : Path ss es) : Path (.assign n value :: ss) (.assign n value :: es)
  | accept {c accept reject ss es es'} (hb : Path accept es) (h : Path ss es') :
      Path (.cond c accept reject :: ss) (.eval c :: (es ++ es'))
  | reject {c accept reject ss es es'} (hb : Path reject es) (h : Path ss es') :
      Path (.cond c accept reject :: ss) (.eval c :: (es ++ es'))
  | block {body ss es es'} (hb : Path body es) (h : Path ss es') :
      Path (.block body :: ss) (es ++ es')
  | return {value ss es} (h : Path ss es) : Path (.return value :: ss) (.return value :: es)

theorem Path.split {ss ss' : List Stmt} {es : List Event} (h : Path (ss ++ ss') es) :
    ∃ es₁ es₂, es = es₁ ++ es₂ ∧ Path ss es₁ ∧ Path ss' es₂ := by
  induction ss generalizing es with
  | nil => exact ⟨[], es, rfl, .nil, h⟩
  | cons s ss ih =>
      cases h with
      | declare h =>
          obtain ⟨es₁, es₂, rfl, h₁, h₂⟩ := ih h
          exact ⟨_ :: es₁, es₂, rfl, .declare h₁, h₂⟩
      | assign h =>
          obtain ⟨es₁, es₂, rfl, h₁, h₂⟩ := ih h
          exact ⟨_ :: es₁, es₂, rfl, .assign h₁, h₂⟩
      | accept hb h =>
          obtain ⟨es₁, es₂, rfl, h₁, h₂⟩ := ih h
          exact ⟨_ :: (_ ++ es₁), es₂, by simp, .accept hb h₁, h₂⟩
      | reject hb h =>
          obtain ⟨es₁, es₂, rfl, h₁, h₂⟩ := ih h
          exact ⟨_ :: (_ ++ es₁), es₂, by simp, .reject hb h₁, h₂⟩
      | block hb h =>
          obtain ⟨es₁, es₂, rfl, h₁, h₂⟩ := ih h
          exact ⟨_ ++ es₁, es₂, by simp, .block hb h₁, h₂⟩
      | «return» h =>
          obtain ⟨es₁, es₂, rfl, h₁, h₂⟩ := ih h
          exact ⟨_ :: es₁, es₂, rfl, .return h₁, h₂⟩

namespace Stmt

mutual

def events : Stmt → List Event
  | declare n _ init => [.declare n init]
  | assign n value => [.assign n value]
  | cond c accept reject => .eval c :: (eventsOf accept ++ eventsOf reject)
  | block body => eventsOf body
  | .return value => [.return value]

def eventsOf : List Stmt → List Event
  | [] => []
  | s :: ss => events s ++ eventsOf ss

end

theorem declared_eventsOf (ss : List Stmt) : declared (eventsOf ss) = localNamesOf ss := by
  induction ss using inductOf with
  | nil => rfl
  | declare n ty init ss ih => exact congrArg (n :: ·) ih
  | assign n value ss ih | ret value ss ih => exact ih
  | cond c accept reject ss iha ihr ih =>
      simp only [declared] at iha ihr ih
      simp [declared, eventsOf, events, localNamesOf, localNames, List.filterMap_cons,
        Event.declared?, iha, ihr, ih]
  | block body ss ihb ih =>
      simp only [declared] at ihb ih
      simp [declared, eventsOf, events, localNamesOf, localNames, ihb, ih]

end Stmt

open Stmt (eventsOf events)

namespace Path

variable {ss : List Stmt} {es : List Event}

theorem sublist_eventsOf (h : Path ss es) : es.Sublist (eventsOf ss) := by
  induction h with
  | nil => exact List.Sublist.refl []
  | declare _ ih | assign _ ih | «return» _ ih => exact ih.cons_cons _
  | accept _ _ ihb ih =>
      refine List.Sublist.cons_cons _ (List.Sublist.append ?_ ih)
      exact ihb.trans (List.sublist_append_left _ _)
  | reject _ _ ihb ih =>
      refine List.Sublist.cons_cons _ (List.Sublist.append ?_ ih)
      exact ihb.trans (List.sublist_append_right _ _)
  | block _ _ ihb ih => exact ihb.append ih

theorem declared_sublist (h : Path ss es) : (declared es).Sublist (Stmt.localNamesOf ss) := by
  rw [← Stmt.declared_eventsOf]
  exact h.sublist_eventsOf.filterMap _

theorem exists_path (ss : List Stmt) : ∃ es, Path ss es := by
  induction ss using Stmt.inductOf with
  | nil => exact ⟨_, .nil⟩
  | declare _ _ _ _ ih => exact ih.imp' _ fun _ => .declare
  | assign _ _ _ ih => exact ih.imp' _ fun _ => .assign
  | cond _ _ _ _ iha _ ih =>
      obtain ⟨es, h⟩ := iha
      exact ih.imp' _ fun _ => .accept h
  | block _ _ ihb ih =>
      obtain ⟨es, h⟩ := ihb
      exact ih.imp' _ fun _ => .block h
  | ret _ _ ih => exact ih.imp' _ fun _ => .return

theorem exists_of_mem_eventsOf {ev : Event} (h : ev ∈ eventsOf ss) :
    ∃ es, Path ss es ∧ ev ∈ es := by
  induction ss using Stmt.inductOf with
  | nil => exact absurd h List.not_mem_nil
  | declare n ty init ss ih =>
      rcases List.mem_cons.mp h with rfl | h
      · obtain ⟨es, hp⟩ := exists_path ss
        exact ⟨_, .declare hp, List.mem_cons_self⟩
      · obtain ⟨es, hp, hev⟩ := ih h
        exact ⟨_, .declare hp, List.mem_cons_of_mem _ hev⟩
  | assign n value ss ih =>
      rcases List.mem_cons.mp h with rfl | h
      · obtain ⟨es, hp⟩ := exists_path ss
        exact ⟨_, .assign hp, List.mem_cons_self⟩
      · obtain ⟨es, hp, hev⟩ := ih h
        exact ⟨_, .assign hp, List.mem_cons_of_mem _ hev⟩
  | ret value ss ih =>
      rcases List.mem_cons.mp h with rfl | h
      · obtain ⟨es, hp⟩ := exists_path ss
        exact ⟨_, .return hp, List.mem_cons_self⟩
      · obtain ⟨es, hp, hev⟩ := ih h
        exact ⟨_, .return hp, List.mem_cons_of_mem _ hev⟩
  | cond c accept reject ss iha ihr ih =>
      obtain ⟨es, hp⟩ := exists_path ss
      obtain ⟨es₁, hp₁⟩ := exists_path accept
      simp only [eventsOf, events, List.cons_append, List.mem_cons, List.mem_append] at h
      rcases h with rfl | (h | h) | h
      · exact ⟨_, .accept hp₁ hp, List.mem_cons_self⟩
      · obtain ⟨es', hp', hev⟩ := iha h
        exact ⟨_, .accept hp' hp, by simp [hev]⟩
      · obtain ⟨es', hp', hev⟩ := ihr h
        exact ⟨_, .reject hp' hp, by simp [hev]⟩
      · obtain ⟨es', hp', hev⟩ := ih h
        exact ⟨_, .accept hp₁ hp', by simp [hev]⟩
  | block body ss ihb ih =>
      rcases List.mem_append.mp h with h | h
      · obtain ⟨es, hp⟩ := exists_path ss
        obtain ⟨es', hp', hev⟩ := ihb h
        exact ⟨_, .block hp' hp, List.mem_append_left _ hev⟩
      · obtain ⟨es, hp⟩ := exists_path body
        obtain ⟨es', hp', hev⟩ := ih h
        exact ⟨_, .block hp hp', List.mem_append_right _ hev⟩

end Path

def ReturnFree (es : List Event) : Prop := ∀ value, .return value ∉ es

/-- Exactly one result is returned, at the end. -/
def Returns (es : List Event) : Prop :=
  ∃ init value, es = init ++ [.return value] ∧ ReturnFree init

theorem returnFree_nil : ReturnFree [] := fun _ => List.not_mem_nil

theorem ReturnFree.cons {ev : Event} {es : List Event} (hev : ∀ value, ev ≠ .return value)
    (h : ReturnFree es) : ReturnFree (ev :: es) := by
  intro value hv
  rcases List.mem_cons.mp hv with heq | hv
  · exact hev value heq.symm
  · exact h value hv

theorem ReturnFree.append {es es' : List Event} (h : ReturnFree es) (h' : ReturnFree es') :
    ReturnFree (es ++ es') := by
  intro value hv
  rcases List.mem_append.mp hv with hv | hv
  · exact h value hv
  · exact h' value hv

theorem ReturnFree.append_returns {es es' : List Event} (h : ReturnFree es) (h' : Returns es') :
    Returns (es ++ es') := by
  obtain ⟨init, value, rfl, hi⟩ := h'
  exact ⟨es ++ init, value, by simp, h.append hi⟩

/-- `Settles P es Q`: where the locals `P` wait for their values, the last first, what is done gives
them to those that it does not leave to wait in `Q`, and reads none that waits. -/
inductive Settles : List String → List Event → List String → Prop where
  | nil {P} : Settles P [] P
  | bare {n es P Q} (h : Settles (n :: P) es Q) : Settles P (.declare n none :: es) Q
  | assign {n value es P Q} (hv : ∀ m ∈ n :: P, ¬ value.Uses m) (h : Settles P es Q) :
      Settles (n :: P) (.assign n value :: es) Q
  | read {ev es P Q} (hb : ev.bare? = none) (ht : ev.target? = none)
      (hr : ∀ m ∈ P, ¬ ev.Reads m) (h : Settles P es Q) : Settles P (ev :: es) Q

namespace Settles

variable {P Q R : List String} {es es' : List Event} {x : String}

theorem append (h : Settles P es Q) (h' : Settles Q es' R) : Settles P (es ++ es') R := by
  induction h with
  | nil => exact h'
  | bare _ ih => exact .bare (ih h')
  | assign hv _ ih => exact .assign hv (ih h')
  | read hb ht hr _ ih => exact .read hb ht hr (ih h')

theorem split (h : Settles P (es ++ es') R) : ∃ Q, Settles P es Q ∧ Settles Q es' R := by
  induction es generalizing P with
  | nil => exact ⟨P, .nil, h⟩
  | cons ev es ih =>
      cases h with
      | bare h =>
          obtain ⟨Q, h₁, h₂⟩ := ih h
          exact ⟨Q, .bare h₁, h₂⟩
      | assign hv h =>
          obtain ⟨Q, h₁, h₂⟩ := ih h
          exact ⟨Q, .assign hv h₁, h₂⟩
      | read hb ht hr h =>
          obtain ⟨Q, h₁, h₂⟩ := ih h
          exact ⟨Q, .read hb ht hr h₁, h₂⟩

theorem evals (xs : List Expr) : Settles [] (xs.map .eval) [] := by
  induction xs with
  | nil => exact .nil
  | cons x xs ih => exact .read rfl rfl nofun ih

theorem assigned (h : Settles P es Q) {ev : Event} (hev : ev ∈ es) (ht : ev.target? = some x) :
    x ∈ P ∨ .declare x none ∈ es := by
  induction h with
  | nil => exact absurd hev List.not_mem_nil
  | bare _ ih =>
      rcases List.mem_cons.mp hev with rfl | hev
      · cases ht
      · rcases ih hev with h | h
        · rcases List.mem_cons.mp h with rfl | h
          · exact .inr List.mem_cons_self
          · exact .inl h
        · exact .inr (List.mem_cons_of_mem _ h)
  | assign _ _ ih =>
      rcases List.mem_cons.mp hev with rfl | hev
      · cases ht
        exact .inl List.mem_cons_self
      · exact (ih hev).imp (List.mem_cons_of_mem _) (List.mem_cons_of_mem _)
  | read _ ht' _ _ ih =>
      rcases List.mem_cons.mp hev with rfl | hev
      · cases ht'.symm.trans ht
      · exact (ih hev).imp_right (List.mem_cons_of_mem _)

theorem waiting (h : Settles P es Q) (hx : x ∈ Q) : x ∈ P ∨ x ∈ declared es := by
  induction h with
  | nil => exact .inl hx
  | bare _ ih =>
      rcases ih hx with h | h
      · rcases List.mem_cons.mp h with rfl | h
        · exact .inr List.mem_cons_self
        · exact .inl h
      · exact .inr (List.mem_cons_of_mem _ h)
  | assign _ _ ih => exact (ih hx).imp_left (List.mem_cons_of_mem _)
  | @read ev _ _ _ _ _ _ _ ih =>
      exact (ih hx).imp_right fun h => declared_subset_cons ev _ h

end Settles

/-- On the path the local is declared without a value, then assigned, once, and not read or
otherwise mentioned before that. -/
def Once (x : String) (es : List Event) : Prop :=
  ∃ before mid value after,
    es = before ++ .declare x none :: (mid ++ .assign x value :: after) ∧
      (∀ ev ∈ before ++ mid, ¬ ev.Mentions x) ∧ ¬ value.Uses x ∧
        ∀ ev ∈ after, ev.target? ≠ some x ∧ ev.declared? ≠ some x

theorem Settles.assigned_once {P Q : List String} {es : List Event} {x : String}
    (h : Settles P es Q) (hP : P.count x = 1) (hQ : x ∉ Q) (hd : x ∉ declared es) :
    ∃ mid value after, es = mid ++ .assign x value :: after ∧ (∀ ev ∈ mid, ¬ ev.Mentions x) ∧
      ¬ value.Uses x ∧ ∀ ev ∈ after, ev.target? ≠ some x ∧ ev.declared? ≠ some x := by
  induction h with
  | nil => exact absurd (List.count_pos_iff.mp (by omega)) hQ
  | @bare n es _ _ _ ih =>
      obtain ⟨hn, hes⟩ := not_or.mp (mt List.mem_cons.mpr hd)
      have hcount := List.count_cons_of_ne (Ne.symm hn) ▸ hP
      obtain ⟨mid, value, after, rfl, hm, hv, ha⟩ := ih hcount hQ hes
      refine ⟨_ :: mid, value, after, rfl, List.forall_mem_cons.mpr ⟨?_, hm⟩, hv, ha⟩
      simp [Event.Mentions, Event.Reads, Event.exprs, Event.target?, Event.declared?, Ne.symm hn]
  | @assign n value es P _ hv h ih =>
      have hes : x ∉ declared es := hd
      by_cases hn : n = x
      · subst hn
        have hP' : n ∉ P := List.count_eq_zero.mp (by simpa using hP)
        refine ⟨[], value, es, rfl, nofun, hv n List.mem_cons_self, fun ev hev => ⟨?_, ?_⟩⟩
        · intro ht
          rcases h.assigned hev ht with h | h
          · exact hP' h
          · exact hes (mem_declared.mpr ⟨_, h, rfl⟩)
        · exact fun hd' => hes (mem_declared.mpr ⟨ev, hev, hd'⟩)
      · obtain ⟨mid, value', after, rfl, hm, hv', ha⟩ :=
          ih (by rwa [List.count_cons_of_ne hn] at hP) hQ hes
        have hx : x ∈ P := List.count_pos_iff.mp (by rw [List.count_cons_of_ne hn] at hP; omega)
        refine ⟨_ :: mid, value', after, rfl, List.forall_mem_cons.mpr ⟨?_, hm⟩, hv', ha⟩
        simpa [Event.Mentions, Event.Reads, Event.exprs, Event.target?, Event.declared?, hn]
          using hv x (List.mem_cons_of_mem _ hx)
  | @read ev es P _ hb ht hr h ih =>
      have hx : x ∈ P := List.count_pos_iff.mp (by omega)
      have hes : x ∉ declared es := fun h => hd (declared_subset_cons ev es h)
      obtain ⟨mid, value, after, rfl, hm, hv, ha⟩ := ih hP hQ hes
      refine ⟨ev :: mid, value, after, rfl, List.forall_mem_cons.mpr ⟨?_, hm⟩, hv, ha⟩
      rintro (h | h | h)
      · exact hr x hx h
      · simp [ht] at h
      · exact hd (mem_declared.mpr ⟨ev, List.mem_cons_self, h⟩)

/-- Whatever is read is in `locals`, has been declared on the path, or can be read anywhere. -/
def Sees (global : String → Prop) (locals : List String) : List Event → Prop
  | [] => True
  | ev :: es => (∀ n, ev.Reads n → n ∈ locals ∨ global n) ∧
      Sees global (ev.declared?.toList ++ locals) es

namespace Sees

variable {global : String → Prop} {locals locals' : List String} {es es' : List Event}

theorem mono (h : Sees global locals es) (hl : locals ⊆ locals') : Sees global locals' es := by
  induction es generalizing locals locals' with
  | nil => trivial
  | cons ev es ih =>
      refine ⟨fun n hn => (h.1 n hn).imp_left fun hn => hl hn, ih h.2 ?_⟩
      exact List.append_subset.mpr ⟨List.subset_append_left _ _,
        List.Subset.trans hl (List.subset_append_right _ _)⟩

theorem append (h : Sees global locals es) (h' : Sees global (declared es ++ locals) es') :
    Sees global locals (es ++ es') := by
  induction es generalizing locals with
  | nil => exact h'
  | cons ev es ih =>
      refine ⟨h.1, ih h.2 (h'.mono ?_)⟩
      cases hd : ev.declared? with
      | none => simp [declared, hd]
      | some n => simp [declared, hd]

theorem left (h : Sees global locals (es ++ es')) : Sees global locals es := by
  induction es generalizing locals with
  | nil => trivial
  | cons ev es ih => exact ⟨h.1, ih h.2⟩

theorem reads (h : Sees global locals es) {ev : Event} (hev : ev ∈ es) {n : String}
    (hn : ev.Reads n) : n ∈ locals ∨ n ∈ declared es ∨ global n := by
  induction es generalizing locals with
  | nil => exact absurd hev List.not_mem_nil
  | cons ev' es ih =>
      rcases List.mem_cons.mp hev with rfl | hev
      · exact (h.1 n hn).imp_right .inr
      · rcases ih h.2 hev with h | h | h
        · rcases List.mem_append.mp h with h | h
          · exact .inr (.inl (mem_declared.mpr ⟨ev', List.mem_cons_self, by simpa using h⟩))
          · exact .inl h
        · exact .inr (.inl (declared_subset_cons ev' es h))
        · exact .inr (.inr h)

theorem evals {xs : List Expr} (h : ∀ x ∈ xs, ∀ n, x.Uses n → n ∈ locals ∨ global n) :
    Sees global locals (xs.map .eval) := by
  induction xs with
  | nil => trivial
  | cons x xs ih =>
      obtain ⟨hx, hxs⟩ := List.forall_mem_cons.mp h
      exact ⟨fun n hn => hx n (Event.reads_eval.mp hn), ih hxs⟩

end Sees

def Visible.Readable (V : Visible) (n : String) : Prop := n ∈ V.names ∨ V.Constant n

/-- Scoped statements read what is visible on each path, and what is visible after them has been
declared on it. -/
theorem Path.sees {V : Visible} {locals : List String} {ss : List Stmt} {es : List Event}
    (h : Path ss es) (S : Stmt.ScopedAll V locals ss) :
    Sees V.Readable locals es ∧ Stmt.after locals ss ⊆ declared es ++ locals := by
  have single {locals : List String} {e : Expr} (he : e.Scoped V locals) {n : String}
      (hn : ∃ x ∈ [e], x.Uses n) : n ∈ locals ∨ V.Readable n :=
    he.reads (by simpa using hn)
  -- a branch or block declares more on the path than is visible after it
  have inner {locals : List String} {es es' : List Event} {ss : List Stmt}
      (hb : Sees V.Readable locals es)
      (h : Sees V.Readable locals es' ∧ Stmt.after locals ss ⊆ declared es' ++ locals) :
      Sees V.Readable locals (es ++ es') ∧
        Stmt.after locals ss ⊆ declared (es ++ es') ++ locals := by
    refine ⟨hb.append (h.1.mono (List.subset_append_right _ _)), List.Subset.trans h.2 ?_⟩
    rw [declared_append, List.append_assoc]
    exact List.subset_append_right _ _
  induction h generalizing locals with
  | nil => exact ⟨trivial, List.subset_append_right _ _⟩
  | @declare n ty init ss es _ ih =>
      obtain ⟨⟨-, hi⟩, hss⟩ := S
      obtain ⟨hs, ha⟩ := ih hss
      refine ⟨⟨?_, hs⟩, List.Subset.trans ha fun m hm => ?_⟩
      · rintro m ⟨x, hx, hr⟩
        exact (hi x (Option.mem_toList.mp hx)).reads hr
      · exact List.perm_middle.mem_iff.mp hm
  | assign _ ih =>
      obtain ⟨hs, ha⟩ := ih S.2
      exact ⟨⟨fun m => single S.1.2, hs⟩, ha⟩
  | «return» _ ih =>
      obtain ⟨hs, ha⟩ := ih S.2
      exact ⟨⟨fun m => single S.1, hs⟩, ha⟩
  | accept _ _ ihb ih =>
      obtain ⟨⟨hc, hb, -⟩, hss⟩ := S
      obtain ⟨hs, ha⟩ := inner (ihb hb).1 (ih hss)
      exact ⟨⟨fun m => single hc, hs⟩, ha⟩
  | reject _ _ ihb ih =>
      obtain ⟨⟨hc, -, hb⟩, hss⟩ := S
      obtain ⟨hs, ha⟩ := inner (ihb hb).1 (ih hss)
      exact ⟨⟨fun m => single hc, hs⟩, ha⟩
  | block _ _ ihb ih => exact inner (ihb S.1).1 (ih S.2)

/-- A local that is declared without a value gets it once, before it is read, on each path that
comes to its declaration, and is not mentioned on the others; nothing else is assigned, and none of
the variables `fixed`. After the statements the expressions `rest` are evaluated. -/
structure Disciplined (fixed : List String) (ss : List Stmt) (rest : List Expr) : Prop where
  once : ∀ x, .declare x none ∈ eventsOf ss → ∀ es, Path ss es →
    Once x (es ++ rest.map .eval) ∨ ∀ ev ∈ es ++ rest.map .eval, ¬ ev.Mentions x
  assigned : ∀ x value, .assign x value ∈ eventsOf ss →
    x ∉ fixed ∧ ∀ init, .declare x (some init) ∉ eventsOf ss

theorem eq_of_declared_eq {es : List Event} (hn : (declared es).Nodup) {ev ev' : Event}
    (h : ev ∈ es) (h' : ev' ∈ es) {x : String} (hx : ev.declared? = some x)
    (hx' : ev'.declared? = some x) : ev = ev' := by
  induction es with
  | nil => exact absurd h List.not_mem_nil
  | cons ev₀ es ih =>
      have later {ev : Event} (h : ev ∈ es) (hx : ev.declared? = some x) :
          ev₀.declared? ≠ some x := by
        intro h₀
        rw [declared, List.filterMap_cons_some h₀] at hn
        exact (List.nodup_cons.mp hn).1 (mem_declared.mpr ⟨ev, h, hx⟩)
      rcases List.mem_cons.mp h with rfl | hes <;> rcases List.mem_cons.mp h' with rfl | hes'
      · rfl
      · exact absurd hx (later hes' hx')
      · exact absurd hx' (later hes hx)
      · exact ih (((List.sublist_cons_self ev₀ es).filterMap _).nodup hn) hes hes'

theorem Settles.once {es : List Event} {global : String → Prop} (h : Settles [] es [])
    (S : Sees global [] es) (hn : (declared es).Nodup) {x : String} (hx : ¬ global x)
    (hmem : .declare x none ∈ es) : Once x es := by
  obtain ⟨before, after, rfl⟩ := List.append_of_mem hmem
  obtain ⟨Q, hbefore, hafter⟩ := h.split
  rw [declared_append] at hn
  obtain ⟨-, hn', hne⟩ := List.nodup_append.mp hn
  have hb : x ∉ declared before := fun hb => hne x hb x List.mem_cons_self rfl
  have hQ : x ∉ Q := fun hQ => (hbefore.waiting hQ).elim List.not_mem_nil hb
  cases hafter with
  | read hbare => cases hbare
  | bare hafter =>
      obtain ⟨mid, value, after, rfl, hm, hv, ha⟩ := hafter.assigned_once
        (by rw [List.count_cons_self, List.count_eq_zero.mpr hQ]) List.not_mem_nil
        (List.nodup_cons.mp hn').1
      refine ⟨before, mid, value, after, rfl, List.forall_mem_append.mpr ⟨?_, hm⟩, hv, ha⟩
      rintro ev hev (hr | ht | hd)
      · rcases S.left.reads hev hr with h | h | h
        · exact List.not_mem_nil h
        · exact hb h
        · exact hx h
      · rcases hbefore.assigned hev ht with h | h
        · exact List.not_mem_nil h
        · exact hb (mem_declared.mpr ⟨_, h, rfl⟩)
      · exact hb (mem_declared.mpr ⟨ev, hev, hd⟩)

/-- Scoped statements whose locals have names of their own are disciplined if each path settles. -/
theorem disciplined_of_settles {V : Visible} {fixed : List String} {ss : List Stmt}
    {rest : List Expr} (h : ∀ es, Path ss es → Settles [] es []) (S : Stmt.ScopedAll V [] ss)
    (hrest : ∀ e ∈ rest, e.Scoped V (Stmt.after [] ss)) (hn : (Stmt.localNamesOf ss).Nodup)
    (hV : ∀ x ∈ Stmt.localNamesOf ss, ¬ V.Readable x)
    (hfixed : ∀ x ∈ Stmt.localNamesOf ss, x ∉ fixed) : Disciplined fixed ss rest := by
  have mem_local {ev : Event} {x : String} (hev : ev ∈ eventsOf ss)
      (hd : ev.declared? = some x) : x ∈ Stmt.localNamesOf ss :=
    Stmt.declared_eventsOf ss ▸ mem_declared.mpr ⟨ev, hev, hd⟩
  constructor
  · intro x hx es hp
    obtain ⟨hs, ha⟩ := hp.sees S
    have hrest' : Sees V.Readable (declared es ++ []) (rest.map .eval) :=
      .evals fun e he n hr => ((hrest e he).mono ha).reads hr
    have hs := hs.append hrest'
    have hd : declared (es ++ rest.map .eval) = declared es := by
      simp [declared, List.filterMap_map, Function.comp_def, Event.declared?]
    have hset := (h es hp).append (.evals rest)
    by_cases hmem : .declare x none ∈ es
    · refine .inl (hset.once hs ?_ (hV x (mem_local hx rfl)) (List.mem_append_left _ hmem))
      exact hd ▸ hp.declared_sublist.nodup hn
    · -- another branch declares it
      have hx' : x ∉ declared es := by
        intro hmem'
        obtain ⟨ev, hev, hdecl⟩ := mem_declared.mp hmem'
        have heq := eq_of_declared_eq (Stmt.declared_eventsOf ss ▸ hn)
          (hp.sublist_eventsOf.subset hev) hx hdecl rfl
        exact hmem (heq ▸ hev)
      right
      rintro ev hev (hr | ht | hdecl)
      · rcases hs.reads hev hr with h | h | h
        · exact List.not_mem_nil h
        · exact hx' (hd ▸ h)
        · exact hV x (mem_local hx rfl) h
      · rcases hset.assigned hev ht with h | h
        · exact List.not_mem_nil h
        · exact hx' (hd ▸ mem_declared.mpr ⟨_, h, rfl⟩)
      · exact hx' (hd ▸ mem_declared.mpr ⟨ev, hev, hdecl⟩)
  · intro x value hx
    obtain ⟨es, hp, hmem⟩ := Path.exists_of_mem_eventsOf hx
    rcases (h es hp).assigned hmem rfl with h | h
    · exact absurd h List.not_mem_nil
    · have hbare := hp.sublist_eventsOf.subset h
      refine ⟨hfixed x (mem_local hbare rfl), fun init hinit => ?_⟩
      cases eq_of_declared_eq (Stmt.declared_eventsOf ss ▸ hn) hbare hinit rfl rfl

namespace Stmt.Closed

variable {names : List String} {ss : List Stmt}

theorem returns (h : Stmt.Closed names ss) {es : List Event} (hp : Path ss es) : Returns es := by
  induction h generalizing es with
  | @ret _ e _ =>
      cases hp with
      | «return» hp =>
          cases hp
          exact ⟨[], e, rfl, returnFree_nil⟩
  | @cond _ c _ _ _ _ _ iha ihr =>
      have hc : ReturnFree [.eval c] := returnFree_nil.cons fun _ h => Event.noConfusion h
      cases hp with
      | accept hb hp =>
          cases hp
          rw [List.append_nil]
          exact hc.append_returns (iha hb)
      | reject hb hp =>
          cases hp
          rw [List.append_nil]
          exact hc.append_returns (ihr hb)
  | @declare _ n _ e _ _ _ ih =>
      have hn : ReturnFree [.declare n (some e)] :=
        returnFree_nil.cons fun _ h => Event.noConfusion h
      cases hp with
      | declare hp => exact hn.append_returns (ih hp)

theorem disciplined (h : Stmt.Closed names ss) (fixed : List String) : Disciplined fixed ss [] := by
  have hplain : ∀ ev ∈ eventsOf ss, ev.bare? = none ∧ ev.target? = none := by
    induction h with
    | ret => simp [eventsOf, events, Event.bare?, Event.target?]
    | cond _ _ _ iha ihr =>
        simp only [eventsOf, events, List.append_nil]
        exact List.forall_mem_cons.mpr ⟨⟨rfl, rfl⟩, List.forall_mem_append.mpr ⟨iha, ihr⟩⟩
    | declare _ _ ih => exact List.forall_mem_cons.mpr ⟨⟨rfl, rfl⟩, ih⟩
  constructor
  · intro x hx
    cases (hplain _ hx).1
  · intro x value hx
    cases (hplain _ hx).2

end Stmt.Closed

end ShaderDialects.Dialect
