import Mathlib.Data.List.Basic

/-!
# Counted loops that can panic

A `for` loop over a range of indices whose body answers `none` when it
panics is a monadic fold. The invariant rule below is total: if the body
runs at every index from a state the invariant describes, the loop runs. A
loop that stops at the first element that answers is a search, and what it
finds is stated the same way: if the body runs for every element, it does.
-/

namespace ProtoOs.Lib

variable {σ : Type}

theorem foldlM_range'_inv {f : σ → Nat → Option σ} {P : Nat → σ → Prop}
    {a : Nat} :
    ∀ {n : Nat} {s : σ}, P a s →
      (∀ k s, a ≤ k → k < a + n → P k s → ∃ s', f s k = some s' ∧ P (k + 1) s') →
      ∃ s', (List.range' a n).foldlM f s = some s' ∧ P (a + n) s' := by
  intro n
  induction n with
  | zero => intro s h _; exact ⟨s, rfl, h⟩
  | succ n ih =>
      intro s h hbody
      obtain ⟨s₁, h₁, hp₁⟩ := ih h fun k s hk hkn => hbody k s hk (by omega)
      obtain ⟨s₂, h₂, hp₂⟩ := hbody (a + n) s₁ (by omega) (by omega) hp₁
      refine ⟨s₂, ?_, hp₂⟩
      rw [List.range'_concat, List.foldlM_append, h₁]
      simp [h₂]

theorem foldlM_range_inv {f : σ → Nat → Option σ} {P : Nat → σ → Prop}
    {n : Nat} {s : σ} (h : P 0 s)
    (hbody : ∀ k s, k < n → P k s → ∃ s', f s k = some s' ∧ P (k + 1) s') :
    ∃ s', (List.range n).foldlM f s = some s' ∧ P n s' := by
  rw [List.range_eq_range']
  simpa using foldlM_range'_inv (P := P) (n := n) h
    (fun k s _ hk => hbody k s (by omega))

/-- A fold refines another: each step of the panicking one runs and keeps
the relation to the step of the pure one. -/
theorem foldlM_refines {α τ : Type} {f : σ → α → Option σ} {g : τ → α → τ}
    {R : σ → τ → Prop}
    (hbody : ∀ s t x, R s t → ∃ s', f s x = some s' ∧ R s' (g t x)) :
    ∀ (xs : List α) {s : σ} {t : τ}, R s t →
      ∃ s', xs.foldlM f s = some s' ∧ R s' (xs.foldl g t) := by
  intro xs
  induction xs with
  | nil => intro s t h; exact ⟨s, rfl, h⟩
  | cons x xs ih =>
      intro s t h
      obtain ⟨s₁, h₁, hr₁⟩ := hbody s t x h
      obtain ⟨s₂, h₂, hr₂⟩ := ih hr₁
      exact ⟨s₂, by rw [List.foldlM_cons, h₁]; exact h₂, hr₂⟩

/-! ## Searches -/

section Search

variable {α : Type} {f : α → Option Bool} {P : α → Prop}

/-- Whether some element will do, if the body decides it for each. -/
theorem anyM_decides (xs : List α)
    (hbody : ∀ x ∈ xs, ∃ r, f x = some r ∧ (r = true ↔ P x)) :
    ∃ r, xs.anyM f = some r ∧ (r = true ↔ ∃ x ∈ xs, P x) := by
  induction xs with
  | nil => exact ⟨false, rfl, by simp⟩
  | cons x xs ih =>
      obtain ⟨r, hr, hx⟩ := hbody x (by simp)
      obtain ⟨r', hr', hxs⟩ := ih fun y hy => hbody y (by simp [hy])
      rw [List.anyM_cons, hr]
      cases r with
      | true => exact ⟨true, rfl, iff_of_true rfl ⟨x, by simp, hx.mp rfl⟩⟩
      | false =>
          have hno : ¬P x := fun h => Bool.false_ne_true (hx.mpr h)
          exact ⟨r', hr', by simp [hxs, hno]⟩

/-- Whether every element will do. -/
theorem allM_decides (xs : List α)
    (hbody : ∀ x ∈ xs, ∃ r, f x = some r ∧ (r = true ↔ P x)) :
    ∃ r, xs.allM f = some r ∧ (r = true ↔ ∀ x ∈ xs, P x) := by
  induction xs with
  | nil => exact ⟨true, rfl, by simp⟩
  | cons x xs ih =>
      obtain ⟨r, hr, hx⟩ := hbody x (by simp)
      obtain ⟨r', hr', hxs⟩ := ih fun y hy => hbody y (by simp [hy])
      rw [List.allM_cons, hr]
      cases r with
      | true => exact ⟨r', hr', by simp [hxs, hx.mp rfl]⟩
      | false =>
          have hno : ¬P x := fun h => Bool.false_ne_true (hx.mpr h)
          exact ⟨false, rfl, by simp [hno]⟩

end Search

end ProtoOs.Lib
