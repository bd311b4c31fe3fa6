import Mathlib.Data.List.Basic

/-!
# Computations that return or raise an event

A step of an abstract machine is a function of its state that answers with
a next state or raises an event: `StateT T (Except E)`. The first lemmas
take a sequence of two apart. `Obeys` is a precondition, a postcondition
and what may be raised, in one statement; its rules follow the words a
computation is made of.
-/

namespace ProtoOs.Lib

variable {T E α β : Type} {f : StateT T (Except E) α} {k : α → StateT T (Except E) β} {t t' : T}

theorem bind_ok {a : α} (hf : f t = .ok (a, t')) : (f >>= k) t = k a t' := by
  show (f t).bind _ = _
  rw [hf]
  rfl

theorem bind_error {e : E} (hf : f t = .error e) : (f >>= k) t = .error e := by
  show (f t).bind _ = _
  rw [hf]
  rfl

/-- A sequence that returns did so in its first part and in its second. -/
theorem ok_of_bind {r : β × T} (h : (f >>= k) t = .ok r) :
    ∃ a t', f t = .ok (a, t') ∧ k a t' = .ok r := by
  cases hf : f t with
  | error e => rw [bind_error hf] at h; cases h
  | ok r' => rw [bind_ok hf] at h; exact ⟨r'.1, r'.2, rfl, h⟩

/-- One that raises did so in its first part or in its second. -/
theorem error_of_bind {e : E} (h : (f >>= k) t = .error e) :
    f t = .error e ∨ ∃ a t', f t = .ok (a, t') ∧ k a t' = .error e := by
  cases hf : f t with
  | error e' =>
      rw [bind_error hf] at h
      obtain rfl := Except.error.inj h
      exact .inl rfl
  | ok r => rw [bind_ok hf] at h; exact .inr ⟨r.1, r.2, rfl, h⟩

/-! ## Pre- and postconditions -/

/-- From a state with `P` the computation returns to `Q`, or raises an event
with `F`. -/
def Obeys (P : T → Prop) (f : StateT T (Except E) α) (Q : α → T → Prop) (F : E → Prop) : Prop :=
  ∀ t, P t → (∀ a t', f t = .ok (a, t') → Q a t') ∧ ∀ e, f t = .error e → F e

section Obeys

variable {P P' : T → Prop} {Q Q' : α → T → Prop} {R : β → T → Prop} {F F' : E → Prop}

theorem Obeys.ret {a : α} (h : ∀ t, P t → Q a t) :
    Obeys P (pure a : StateT T (Except E) α) Q F := by
  refine fun t hP => ⟨fun a' t' heq => ?_, fun e heq => by cases heq⟩
  obtain ⟨rfl, rfl⟩ := Prod.mk.inj (Except.ok.inj heq)
  exact h t hP

theorem Obeys.raise {e : E} (h : F e) : Obeys P (throw e : StateT T (Except E) α) Q F := by
  intro t hP
  refine ⟨fun a t' heq => ?_, fun e' heq => ?_⟩
  · cases heq
  · obtain rfl := Except.error.inj heq
    exact h

theorem Obeys.modify {g : T → α × T} (h : ∀ t, P t → Q (g t).1 (g t).2) :
    Obeys P (modifyGet g : StateT T (Except E) α) Q F := by
  refine fun t hP => ⟨fun a' t' heq => ?_, fun e heq => by cases heq⟩
  have hg : g t = (a', t') := Except.ok.inj heq
  have hQ := h t hP
  rw [hg] at hQ
  exact hQ

theorem Obeys.bind (hf : Obeys P f Q F) (hk : ∀ a, Obeys (Q a) (k a) R F) :
    Obeys P (f >>= k) R F := by
  intro t hP
  refine ⟨fun b t' h => ?_, fun e h => ?_⟩
  · obtain ⟨a, t₁, hf₁, hk₁⟩ := ok_of_bind h
    exact (hk a t₁ ((hf t hP).1 a t₁ hf₁)).1 b t' hk₁
  · rcases error_of_bind h with hf₁ | ⟨a, t₁, hf₁, hk₁⟩
    · exact (hf t hP).2 e hf₁
    · exact (hk a t₁ ((hf t hP).1 a t₁ hf₁)).2 e hk₁

theorem Obeys.mono (h : Obeys P f Q F) (hP : ∀ t, P' t → P t) (hQ : ∀ a t, Q a t → Q' a t)
    (hF : ∀ e, F e → F' e) : Obeys P' f Q' F' :=
  fun t ht => ⟨fun a t' heq => hQ a t' ((h t (hP t ht)).1 a t' heq),
    fun e heq => hF e ((h t (hP t ht)).2 e heq)⟩

end Obeys

end ProtoOs.Lib
