import Mathlib.Data.List.Forall2

/-!
# Traversals that may fail

A list is traversed from left to right with a function that may fail. The traversal succeeds if the
function does on every element, and it fails with the error of the first element on which the
function fails.
-/

namespace FormatExpr

variable {α β ε : Type} {f : α → Except ε β}

/-- A sequence of two computations succeeds exactly if both do. -/
lemma bind_eq_ok_iff {x : Except ε α} {b : β} :
    x >>= f = .ok b ↔ ∃ a, x = .ok a ∧ f a = .ok b := by
  cases x <;> simp [bind, Except.bind]

/-- Other errors make no difference to success. -/
lemma mapError_eq_ok_iff {δ : Type} {s : ε → δ} {x : Except ε α} {a : α} :
    x.mapError s = .ok a ↔ x = .ok a := by
  cases x <;> simp [Except.mapError]

/-- A traversal succeeds exactly with what the function gives for the elements in their order. -/
theorem mapM_eq_ok_iff {l : List α} {ys : List β} :
    l.mapM f = .ok ys ↔ List.Forall₂ (fun x y => f x = .ok y) l ys := by
  induction l generalizing ys with
  | nil => simp [pure, Except.pure, eq_comm]
  | cons x l ih =>
    rw [List.mapM_cons, List.forall₂_cons_left_iff]
    cases hx : f x with
    | error e => simp [bind, Except.bind]
    | ok y =>
      simp only [← ih]
      cases l.mapM f with
      | error e => simp [bind, Except.bind]
      | ok zs => simp [bind, Except.bind, pure, Except.pure, eq_comm]

/-- A traversal fails exactly with the error of the first element that has one. -/
theorem mapM_eq_error_iff {l : List α} {e : ε} :
    l.mapM f = .error e ↔ ∃ before x after, l = before ++ x :: after ∧
      (∀ b ∈ before, ∃ y, f b = .ok y) ∧ f x = .error e := by
  induction l with
  | nil => simp [pure, Except.pure]
  | cons x l ih =>
    rw [List.mapM_cons]
    constructor
    · intro h
      cases hx : f x with
      | error e' =>
        rw [hx] at h
        cases h
        exact ⟨[], x, l, rfl, by simp, hx⟩
      | ok y =>
        rw [hx] at h
        cases hl : l.mapM f with
        | ok ys =>
          rw [hl] at h
          cases h
        | error e' =>
          rw [hl] at h
          cases h
          obtain ⟨before, z, after, rfl, hbefore, hz⟩ := ih.1 hl
          refine ⟨x :: before, z, after, rfl, ?_, hz⟩
          exact List.forall_mem_cons.2 ⟨⟨y, hx⟩, hbefore⟩
    · rintro ⟨before, z, after, hl, hbefore, hz⟩
      cases before with
      | nil =>
        obtain ⟨rfl, rfl⟩ := List.cons.inj hl
        rw [hz]
        rfl
      | cons b before =>
        obtain ⟨rfl, rfl⟩ := List.cons.inj hl
        obtain ⟨⟨y, hy⟩, hbefore⟩ := List.forall_mem_cons.1 hbefore
        rw [hy, ih.2 ⟨before, z, after, rfl, hbefore, hz⟩]
        rfl

/-- A relation between the elements of two lists may be changed on the elements that there are. -/
lemma forall₂_imp_of_mem {r s : α → β → Prop} {l : List α} {l' : List β} (h : List.Forall₂ r l l')
    (himp : ∀ x ∈ l, ∀ y, r x y → s x y) : List.Forall₂ s l l' :=
  ((List.forall₂_and_left _ _).2 ⟨himp, h⟩).imp fun _ y hx => hx.1 y hx.2

lemma exists_of_mem_right {r : α → β → Prop} {l : List α} {l' : List β}
    (h : List.Forall₂ r l l') {y : β} (hy : y ∈ l') : ∃ x ∈ l, r x y := by
  induction h with
  | nil => cases hy
  | cons hx _ ih =>
    rcases List.mem_cons.1 hy with rfl | hy
    · exact ⟨_, List.mem_cons_self, hx⟩
    · obtain ⟨x, hmem, hxy⟩ := ih hy
      exact ⟨x, List.mem_cons_of_mem _ hmem, hxy⟩

/-- If a function has other errors on other elements then so does its traversal. -/
lemma mapM_map_mapError {g : α → α} {s : ε → ε} {l : List α}
    (h : ∀ x ∈ l, f (g x) = (f x).mapError s) : (l.map g).mapM f = (l.mapM f).mapError s := by
  induction l with
  | nil => rfl
  | cons x l ih =>
    obtain ⟨hx, hl⟩ := List.forall_mem_cons.1 h
    rw [List.map_cons, List.mapM_cons, List.mapM_cons, hx, ih hl]
    cases f x with
    | error e => rfl
    | ok y => cases l.mapM f <;> rfl

/-- A traversal depends on what the function gives for each element and on nothing else. -/
lemma mapM_congr_forall₂ {l l' : List α} (h : List.Forall₂ (fun x x' => f x = f x') l l') :
    l.mapM f = l'.mapM f := by
  induction h with
  | nil => rfl
  | cons hx _ ih => rw [List.mapM_cons, List.mapM_cons, hx, ih]

end FormatExpr
