import Mathlib.Data.List.Basic

/-!
# Guarded runs of a labelled system

A system is a partial step function: a state and a label answer the next
state, or nothing where the label is not enabled. A run is guarded by a
predicate on the state a step leaves and the label it takes, which is how
the developments over this module say "in every run whose steps all meet
the condition".

The one rule that matters is `Run.invariant`: what holds at the start and
survives each guarded step holds of every state a guarded run reaches.
-/

namespace ProtoOs.Lib

variable {σ ℓ : Type} {step : σ → ℓ → Option σ} {G G' : σ → ℓ → Prop}

/-- The runs from `s₀` whose steps all meet the guard `G`, with the labels
they took. -/
inductive Run (step : σ → ℓ → Option σ) (G : σ → ℓ → Prop) (s₀ : σ) :
    List ℓ → σ → Prop
  | nil : Run step G s₀ [] s₀
  | snoc {ls : List ℓ} {s s' : σ} {l : ℓ} (run : Run step G s₀ ls s)
      (guard : G s l) (next : step s l = some s') :
      Run step G s₀ (ls ++ [l]) s'

theorem Run.invariant {Inv : σ → Prop} {s₀ : σ} (h₀ : Inv s₀)
    (hstep : ∀ {s s' : σ} {l : ℓ}, Inv s → G s l → step s l = some s' → Inv s')
    {ls : List ℓ} {s : σ} (h : Run step G s₀ ls s) : Inv s := by
  induction h with
  | nil => exact h₀
  | snoc _ hg hn ih => exact hstep ih hg hn

theorem Run.trans {s₀ s₁ s₂ : σ} {ls ls' : List ℓ} (h₁ : Run step G s₀ ls s₁)
    (h₂ : Run step G s₁ ls' s₂) : Run step G s₀ (ls ++ ls') s₂ := by
  induction h₂ with
  | nil => rw [List.append_nil]; exact h₁
  | snoc _ hg hn ih => rw [← List.append_assoc]; exact ih.snoc hg hn

theorem Run.one {s s' : σ} {l : ℓ} (hg : G s l) (hn : step s l = some s') :
    Run step G s [l] s' := Run.nil.snoc hg hn

/-- A guard may be loosened. -/
theorem Run.mono {G' : σ → ℓ → Prop} (hG : ∀ s l, G s l → G' s l) {s₀ s : σ} {ls : List ℓ}
    (h : Run step G s₀ ls s) : Run step G' s₀ ls s := by
  induction h with
  | nil => exact .nil
  | snoc _ hg hn ih => exact ih.snoc (hG _ _ hg) hn

/-- What the guard asks of a label, every label taken meets. -/
theorem Run.labels {P : ℓ → Prop} {s₀ s : σ} {ls : List ℓ}
    (h : Run step (fun _ l => P l) s₀ ls s) : ∀ l ∈ ls, P l := by
  induction h with
  | nil => simp
  | snoc _ hg _ ih =>
      intro l hl
      rcases List.mem_append.mp hl with hl | hl
      · exact ih l hl
      · exact List.mem_singleton.mp hl ▸ hg

/-- A list of labels that can be taken one after the other, each where the
guard allows it, is a run. -/
theorem Run.of_foldlM [∀ s l, Decidable (G s l)] {s : σ} {ls : List ℓ} :
    ∀ {s₁ : σ}, ls.foldlM (fun s l => if G s l then step s l else none) s = some s₁ →
      Run step G s ls s₁ := by
  induction ls generalizing s with
  | nil =>
      intro s₁ h
      obtain rfl := Option.some.inj h
      exact .nil
  | cons l ls ih =>
      intro s₁ h
      rw [List.foldlM_cons] at h
      obtain ⟨s', hs', h⟩ := Option.bind_eq_some_iff.mp h
      split at hs' <;> rename_i hg
      · exact (Run.one hg hs').trans (ih h)
      · cases hs'

/-- The labels say where a run ends. -/
theorem Run.foldlM {s₀ s : σ} {ls : List ℓ} (h : Run step G s₀ ls s) :
    ls.foldlM step s₀ = some s := by
  induction h with
  | nil => rfl
  | snoc _ _ hn ih =>
      rw [List.foldlM_append, ih]
      show (step _ _).bind some = _
      rw [hn]
      rfl

theorem Run.unique {s₀ s s' : σ} {ls : List ℓ} (h : Run step G s₀ ls s)
    (h' : Run step G s₀ ls s') : s = s' :=
  Option.some.inj (h.foldlM.symm.trans h'.foldlM)

/-- The run along `ls` takes the step from `s` to `s'`. -/
def Takes (step : σ → ℓ → Option σ) (G : σ → ℓ → Prop) (s₀ : σ) (ls : List ℓ) (s : σ) (l : ℓ)
    (s' : σ) : Prop :=
  ∃ before after, ls = before ++ l :: after ∧ Run step G s₀ before s ∧ step s l = some s'

section Takes

variable {s₀ s s' t : σ} {ls : List ℓ} {l l' : ℓ}

theorem Takes.snoc (h : Takes step G s₀ ls s l s') (l' : ℓ) :
    Takes step G s₀ (ls ++ [l']) s l s' := by
  obtain ⟨before, after, rfl, hrun, hn⟩ := h
  exact ⟨before, after ++ [l'], by simp, hrun, hn⟩

theorem Run.takes_last (h : Run step G s₀ ls s) (hn : step s l = some s') :
    Takes step G s₀ (ls ++ [l]) s l s' :=
  ⟨ls, [], rfl, h, hn⟩

/-- Every step of a longer run but the last is one of the shorter run. -/
theorem Run.takes_snoc (h : Run step G s₀ ls t) (ht : Takes step G s₀ (ls ++ [l']) s l s') :
    Takes step G s₀ ls s l s' ∨ s = t ∧ l = l' ∧ step t l' = some s' := by
  obtain ⟨before, after, hls, hrun, hn⟩ := ht
  rcases List.eq_nil_or_concat after with rfl | ⟨after, x, rfl⟩
  · obtain ⟨rfl, hl⟩ := List.append_inj' hls rfl
    obtain rfl := (List.cons.inj hl).1
    obtain rfl := hrun.unique h
    exact .inr ⟨rfl, rfl, hn⟩
  · rw [List.concat_eq_append, ← List.cons_append, ← List.append_assoc] at hls
    obtain ⟨rfl, _⟩ := List.append_inj' hls rfl
    exact .inl ⟨before, after, rfl, hrun, hn⟩

end Takes

end ProtoOs.Lib
