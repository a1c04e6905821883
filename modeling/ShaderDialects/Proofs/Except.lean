import Mathlib.Data.List.Forall2

namespace Except

variable {ε ε' α β : Type}

theorem bind_eq_ok {x : Except ε α} {f : α → Except ε β} {b : β} :
    (x >>= f) = .ok b ↔ ∃ a, x = .ok a ∧ f a = .ok b := by
  cases x <;> simp [Bind.bind, Except.bind]

theorem pure_eq_ok {a b : α} : (Pure.pure a : Except ε α) = .ok b ↔ a = b := by
  simp [Pure.pure, Except.pure]

theorem map_eq_ok {x : Except ε α} {f : α → β} {b : β} :
    x.map f = .ok b ↔ ∃ a, x = .ok a ∧ f a = b := by
  cases x <;> simp [Except.map]

theorem exists_eq_ok_of_isOk {x : Except ε α} (h : x.isOk) : ∃ a, x = .ok a := by
  cases x with
  | error e => cases h
  | ok a => exact ⟨a, rfl⟩

theorem exists_eq_ok_of_toOption_map {x : Except ε α} {f : α → β} {b : β}
    (h : x.toOption.map f = some b) : ∃ a, x = .ok a ∧ f a = b := by
  cases x with
  | error e => cases h
  | ok a => exact ⟨a, rfl, Option.some_inj.mp h⟩

theorem mapError_eq_ok {x : Except ε α} {f : ε → ε'} {a : α} :
    x.mapError f = .ok a ↔ x = .ok a := by
  cases x <;> simp [Except.mapError]

theorem bind_of_ok {x : Except ε α} {a : α} (h : x = .ok a) (f : α → Except ε β) :
    (x >>= f) = f a := by
  rw [h]
  rfl

theorem bind_of_error {x : Except ε α} {e : ε} (h : x = .error e) (f : α → Except ε β) :
    (x >>= f) = .error e := by
  rw [h]
  rfl

theorem bind_eq_error {x : Except ε α} {f : α → Except ε β} {e : ε} :
    (x >>= f) = .error e ↔ x = .error e ∨ ∃ a, x = .ok a ∧ f a = .error e := by
  cases x <;> simp [Bind.bind, Except.bind]

theorem mapError_eq_error {x : Except ε α} {f : ε → ε'} {e : ε'} :
    x.mapError f = .error e ↔ ∃ e', x = .error e' ∧ f e' = e := by
  cases x <;> simp [Except.mapError]

theorem mapError_of_ok {x : Except ε α} {f : ε → ε'} {a : α} (h : x = .ok a) :
    x.mapError f = .ok a :=
  mapError_eq_ok.mpr h

theorem mapError_injective {f : ε → ε'} (hf : ∀ e e', f e = f e' → e = e') {x y : Except ε α}
    (h : x.mapError f = y.mapError f) : x = y := by
  cases x with
  | ok a => exact (mapError_eq_ok.mp h.symm).symm
  | error e =>
      obtain ⟨e', hy, he⟩ := mapError_eq_error.mp h.symm
      rw [hy, hf e' e he]

theorem mapM_eq_ok {f : α → Except ε β} {xs : List α} {ys : List β} :
    xs.mapM f = .ok ys ↔ List.Forall₂ (fun x y => f x = .ok y) xs ys := by
  induction xs generalizing ys with
  | nil =>
      rw [List.mapM_nil, pure_eq_ok, List.forall₂_nil_left_iff]
      exact eq_comm
  | cons x xs ih =>
      simp only [List.mapM_cons, bind_eq_ok, pure_eq_ok, ih, List.forall₂_cons_left_iff]
      constructor
      · rintro ⟨y, hy, ys', hys, rfl⟩
        exact ⟨y, ys', hy, hys, rfl⟩
      · rintro ⟨y, ys', hy, hys, rfl⟩
        exact ⟨y, hy, ys', hys, rfl⟩

theorem exists_mapM_eq_ok {f : α → Except ε β} {P : β → Prop} {xs : List α} :
    (∃ ys, xs.mapM f = .ok ys ∧ ∀ y ∈ ys, P y) ↔ ∀ x ∈ xs, ∃ y, f x = .ok y ∧ P y := by
  simp only [mapM_eq_ok]
  induction xs with
  | nil => simp
  | cons x xs ih =>
      simp only [List.forall₂_cons_left_iff, List.forall_mem_cons, ← ih]
      constructor
      · rintro ⟨_, ⟨y, ys, hy, hys, rfl⟩, h⟩
        obtain ⟨hP, hPs⟩ := List.forall_mem_cons.mp h
        exact ⟨⟨y, hy, hP⟩, ys, hys, hPs⟩
      · rintro ⟨⟨y, hy, hP⟩, ys, hys, hPs⟩
        exact ⟨y :: ys, ⟨y, ys, hy, hys, rfl⟩, List.forall_mem_cons.mpr ⟨hP, hPs⟩⟩

/-- What holds at first and is kept by every step holds after all of them; a step may use which
elements went before. -/
theorem foldlM_induct {motive : List α → β → Prop} {f : β → α → Except ε β} {xs : List α}
    {b b' : β} (h : xs.foldlM f b = .ok b') (start : motive [] b)
    (step : ∀ pre x post b b', xs = pre ++ x :: post → motive pre b → f b x = .ok b' →
      motive (pre ++ [x]) b') : motive xs b' := by
  suffices hgen : ∀ pre post b, xs = pre ++ post → motive pre b → post.foldlM f b = .ok b' →
      motive xs b' from hgen [] xs b rfl start h
  intro pre post
  induction post generalizing pre with
  | nil =>
      intro b hxs hb h
      cases h
      rwa [hxs, List.append_nil]
  | cons x post ih =>
      intro b hxs hb h
      obtain ⟨b₁, hb₁, h⟩ := bind_eq_ok.mp h
      exact ih (pre ++ [x]) b₁ (by simp [hxs]) (step pre x post b b₁ hxs hb hb₁) h

theorem exists_foldlM_eq_ok {motive : List α → β → Prop} {f : β → α → Except ε β} {xs : List α}
    {b : β} (start : motive [] b)
    (step : ∀ pre x post b, xs = pre ++ x :: post → motive pre b →
      ∃ b', f b x = .ok b' ∧ motive (pre ++ [x]) b') :
    ∃ b', xs.foldlM f b = .ok b' ∧ motive xs b' := by
  suffices hgen : ∀ pre post b, xs = pre ++ post → motive pre b →
      ∃ b', post.foldlM f b = .ok b' ∧ motive xs b' from hgen [] xs b rfl start
  intro pre post
  induction post generalizing pre with
  | nil =>
      intro b hxs hb
      rw [List.append_nil] at hxs
      exact ⟨b, rfl, hxs ▸ hb⟩
  | cons x post ih =>
      intro b hxs hb
      obtain ⟨b₁, hb₁, hm⟩ := step pre x post b hxs hb
      obtain ⟨b', hb', hxs'⟩ := ih (pre ++ [x]) b₁ (by simp [hxs]) hm
      exact ⟨b', bind_eq_ok.mpr ⟨b₁, hb₁, hb'⟩, hxs'⟩

theorem anyM_eq_false {f : α → Except ε Bool} {xs : List α} :
    xs.anyM f = .ok false ↔ ∀ x ∈ xs, f x = .ok false := by
  induction xs with
  | nil => simp [List.anyM, pure_eq_ok]
  | cons x xs ih =>
      rw [List.anyM, bind_eq_ok, List.forall_mem_cons, ← ih]
      constructor
      · rintro ⟨b, hb, h⟩
        cases b with
        | false => exact ⟨hb, h⟩
        | true => cases h
      · exact fun ⟨hx, h⟩ => ⟨false, hx, h⟩

theorem exists_of_anyM_eq_true {f : α → Except ε Bool} {xs : List α} (h : xs.anyM f = .ok true) :
    ∃ x ∈ xs, f x = .ok true := by
  induction xs with
  | nil => cases h
  | cons x xs ih =>
      obtain ⟨b, hb, h⟩ := bind_eq_ok.mp h
      cases b with
      | true => exact ⟨x, List.mem_cons_self, hb⟩
      | false =>
          obtain ⟨y, hy, hfy⟩ := ih h
          exact ⟨y, List.mem_cons_of_mem x hy, hfy⟩

theorem forM_eq_ok {f : α → Except ε Unit} {xs : List α} {u : Unit} :
    xs.forM f = .ok u ↔ ∀ x ∈ xs, f x = .ok () := by
  induction xs with
  | nil => simp [pure_eq_ok]
  | cons x xs ih =>
      rw [List.forM, bind_eq_ok, List.forall_mem_cons, ← ih]
      exact ⟨fun ⟨⟨⟩, hx, hs⟩ => ⟨hx, hs⟩, fun ⟨hx, hs⟩ => ⟨(), hx, hs⟩⟩

theorem forM_append_error {f : α → Except ε Unit} {before after : List α} {x : α} {e : ε}
    (hb : ∀ y ∈ before, f y = .ok ()) (hx : f x = .error e) :
    (before ++ x :: after).forM f = .error e := by
  induction before with
  | nil => exact bind_of_error hx _
  | cons y before ih =>
      obtain ⟨hy, hb⟩ := List.forall_mem_cons.mp hb
      exact (bind_of_ok hy _).trans (ih hb)

theorem forM_eraseDups [BEq α] [LawfulBEq α] {f : α → Except ε Unit} (xs : List α) :
    xs.eraseDups.forM f = xs.forM f := by
  suffices hskip : ∀ (x : α) (xs : List α), f x = .ok () →
      (xs.filter fun y => !y == x).forM f = xs.forM f by
    induction hn : xs.length using Nat.strongRecOn generalizing xs with
    | ind n ih =>
        cases xs with
        | nil => rfl
        | cons x xs =>
            have hlt : (xs.filter fun y => !y == x).length < n :=
              hn ▸ Nat.lt_succ_of_le (List.length_filter_le _ _)
            rw [List.eraseDups_cons, List.forM, List.forM, ih _ hlt _ rfl]
            cases hx : f x with
            | error e => rfl
            | ok u => exact hskip x xs hx
  intro x xs hx
  induction xs with
  | nil => rfl
  | cons y xs ih =>
      by_cases hy : y = x
      · subst hy
        rw [List.filter_cons_of_neg (by simp), ih, List.forM, hx]
        rfl
      · rw [List.filter_cons_of_pos (by simpa using hy), List.forM, List.forM, ih]

/-- The computation does not end in a bad error. -/
def Avoids (bad : ε → Prop) (x : Except ε α) : Prop := ∀ e, bad e → x ≠ .error e

namespace Avoids

variable {bad : ε → Prop} {x : Except ε α}

theorem ok {a : α} : Avoids bad (.ok a) := nofun

theorem of_exists (h : ∃ a, x = .ok a) : x.Avoids bad := by
  obtain ⟨a, rfl⟩ := h
  exact ok

theorem error {e : ε} (h : ¬ bad e) : Avoids bad (.error e : Except ε α) := by
  rintro e' he' ⟨⟩
  exact h he'

theorem bind_eq {f : α → Except ε β} (hx : x.Avoids bad) (hf : ∀ a, x = .ok a → (f a).Avoids bad) :
    (x >>= f).Avoids bad := by
  cases x with
  | ok a => exact hf a rfl
  | error e => exact fun e' he' h => hx e' he' (by cases h; rfl)

theorem bind {f : α → Except ε β} (hx : x.Avoids bad) (hf : ∀ a, (f a).Avoids bad) :
    (x >>= f).Avoids bad :=
  hx.bind_eq fun a _ => hf a

theorem map {f : α → β} (hx : x.Avoids bad) : (x.map f).Avoids bad := by
  cases x with
  | ok a => exact ok
  | error e => exact fun e' he' h => hx e' he' (by cases h; rfl)

theorem mapM {f : α → Except ε β} {xs : List α} (h : ∀ x ∈ xs, (f x).Avoids bad) :
    (xs.mapM f).Avoids bad := by
  induction xs with
  | nil => exact ok
  | cons x xs ih =>
      rw [List.mapM_cons]
      obtain ⟨hx, hxs⟩ := List.forall_mem_cons.mp h
      exact hx.bind fun _ => (ih hxs).bind fun _ => ok

theorem foldlM {motive : List α → β → Prop} {f : β → α → Except ε β} {xs : List α} {b : β}
    (start : motive [] b)
    (step : ∀ pre x post b, xs = pre ++ x :: post → motive pre b →
      (f b x).Avoids bad ∧ ∀ b', f b x = .ok b' → motive (pre ++ [x]) b') :
    (xs.foldlM f b).Avoids bad := by
  suffices hgen : ∀ pre post b, xs = pre ++ post → motive pre b → (post.foldlM f b).Avoids bad from
    hgen [] xs b rfl start
  intro pre post
  induction post generalizing pre with
  | nil => exact fun _ _ _ => ok
  | cons x post ih =>
      intro b hxs hb
      obtain ⟨hx, hnext⟩ := step pre x post b hxs hb
      exact hx.bind_eq fun b' hb' => ih (pre ++ [x]) b' (by simp [hxs]) (hnext b' hb')

end Avoids

end Except

namespace Option

variable {α β : Type} {f : α → Option β}

theorem mapM_cons (x : α) (xs : List α) :
    (x :: xs).mapM f = (f x).bind fun y => (xs.mapM f).map (y :: ·) := by
  simp only [List.mapM_cons, Option.map_eq_bind]
  rfl

theorem mapM_eq_some {xs : List α} {ys : List β} :
    xs.mapM f = some ys ↔ List.Forall₂ (fun x y => f x = some y) xs ys := by
  induction xs generalizing ys with
  | nil => simp [eq_comm]
  | cons x xs ih =>
      simp only [mapM_cons, Option.bind_eq_some_iff, Option.map_eq_some_iff, ih,
        List.forall₂_cons_left_iff]
      constructor
      · rintro ⟨y, hy, ys', hys, rfl⟩
        exact ⟨y, ys', hy, hys, rfl⟩
      · rintro ⟨y, ys', hy, hys, rfl⟩
        exact ⟨y, hy, ys', hys, rfl⟩

theorem exists_mapM_eq_some {xs : List α} (h : ∀ x ∈ xs, ∃ y, f x = some y) :
    ∃ ys, xs.mapM f = some ys := by
  induction xs with
  | nil => exact ⟨[], rfl⟩
  | cons x xs ih =>
      obtain ⟨y, hy⟩ := h x (by simp)
      obtain ⟨ys, hys⟩ := ih fun x hx => h x (by simp [hx])
      exact ⟨y :: ys, by simp [hy, hys]⟩

end Option

theorem List.exists_forall₂ {α β : Type} {R : α → β → Prop} {xs : List α}
    (h : ∀ x ∈ xs, ∃ y, R x y) : ∃ ys, List.Forall₂ R xs ys := by
  induction xs with
  | nil => exact ⟨[], .nil⟩
  | cons x xs ih =>
      obtain ⟨⟨y, hy⟩, hxs⟩ := List.forall_mem_cons.mp h
      obtain ⟨ys, hys⟩ := ih hxs
      exact ⟨y :: ys, .cons hy hys⟩

theorem List.Forall₂.getElem?_right {α β : Type} {R : α → β → Prop} {xs : List α} {ys : List β}
    (h : List.Forall₂ R xs ys) {k : Nat} {x : α} (hx : xs[k]? = some x) :
    ∃ y, ys[k]? = some y ∧ R x y := by
  induction h generalizing k with
  | nil => simp at hx
  | @cons x' y' _ _ hr _ ih =>
      cases k with
      | zero =>
          obtain rfl : x' = x := by simpa using hx
          exact ⟨y', rfl, hr⟩
      | succ k => exact ih hx

theorem List.Forall₂.getElem?_left {α β : Type} {R : α → β → Prop} {xs : List α} {ys : List β}
    (h : List.Forall₂ R xs ys) {k : Nat} {y : β} (hy : ys[k]? = some y) :
    ∃ x, xs[k]? = some x ∧ R x y :=
  List.Forall₂.getElem?_right (List.Forall₂.flip h) hy

theorem List.append_sep_inj {α : Type} {sep : α} {xs xs' ys ys' : List α} (hx : sep ∉ xs)
    (hx' : sep ∉ xs') (h : xs ++ sep :: ys = xs' ++ sep :: ys') : xs = xs' ∧ ys = ys' := by
  induction xs generalizing xs' with
  | nil =>
      cases xs' with
      | nil => exact ⟨rfl, (List.cons.inj h).2⟩
      | cons x' xs' => exact absurd (List.cons.inj h).1 (List.ne_of_not_mem_cons hx')
  | cons x xs ih =>
      cases xs' with
      | nil => exact absurd (List.cons.inj h).1.symm (List.ne_of_not_mem_cons hx)
      | cons x' xs' =>
          obtain ⟨hhead, htail⟩ := List.cons.inj h
          obtain ⟨hxs, hys⟩ := ih (List.not_mem_of_not_mem_cons hx)
            (List.not_mem_of_not_mem_cons hx') htail
          exact ⟨by rw [hhead, hxs], hys⟩
