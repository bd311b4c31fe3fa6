import ProtoOs.Lib.Cpu

/-!
# Code that follows a protocol

What an interrupted piece of code may have done so far is not what it does
when left alone: between any two of its instructions the data may have been
changed by others. `Follows` is said of the code alone, over whatever data
each access finds. Every access moves a ghost as the protocol allows, and
only some locks are taken. It is inherited by what is left of the code after
each instruction (`Follows.step`), so it can be kept as an invariant of a
frame that runs under any interference.

The protocol is a relation between the ghost and the data before an access
and after it. Code that sleeps or traps follows none: what comes back from
there is not its own.
-/

namespace ProtoOs.Lib

variable {L S W E α β γ : Type}

namespace Prog

/-- Every access takes the ghost from `x` on as `R` allows, every lock taken
is in `A`, and where the code returns, `Q` holds of the result and the
ghost. -/
def Follows (R : γ → S → S → γ → Prop) (A : L → Prop) (Q : α → γ → Prop) :
    Prog L S E α → γ → Prop
  | ret a, x => Q a x
  | act f k, x => ∀ s, ∃ x', R x s (f s) x' ∧ (k s).Follows R A Q x'
  | lock l k, x => A l ∧ k.Follows R A Q x
  | unlock _ k, x => k.Follows R A Q x
  | readIf k, x => ∀ b, (k b).Follows R A Q x
  | cli k, x => k.Follows R A Q x
  | sti k, x => k.Follows R A Q x
  | hlt _, _ => False
  | int3 _, _ => False
  | fault _, _ => True
  | haltLoop, _ => True

section Words

variable {R : γ → S → S → γ → Prop} {A : L → Prop} {Q : α → γ → Prop} {x : γ}

theorem Follows.bind {Q' : β → γ → Prop} {p : Prog L S E α} {g : α → Prog L S E β}
    (hg : ∀ a x, Q a x → (g a).Follows R A Q' x) :
    ∀ {x}, p.Follows R A Q x → (p.bind g).Follows R A Q' x := by
  induction p with
  | ret a => exact fun h => hg a _ h
  | act f k ih =>
      intro x h s
      obtain ⟨x', hR, hk⟩ := h s
      exact ⟨x', hR, ih s hk⟩
  | lock l k ih => exact fun h => ⟨h.1, ih h.2⟩
  | unlock l k ih => exact fun h => ih h
  | readIf k ih => exact fun h b => ih b (h b)
  | cli k ih => exact fun h => ih h
  | sti k ih => exact fun h => ih h
  | hlt k ih => exact False.elim
  | int3 k ih => exact False.elim
  | fault e => exact fun _ => trivial
  | haltLoop => exact fun _ => trivial

/-- The same for code that leaves the ghost at `y`. -/
theorem Follows.then {Q : β → γ → Prop} {p : Prog L S E α} {g : α → Prog L S E β} {y : γ}
    (hp : p.Follows R A (fun _ x => x = y) x) (hg : ∀ a, (g a).Follows R A Q y) :
    (p.bind g).Follows R A Q x :=
  Follows.bind (fun a x' (hx : x' = y) => hx ▸ hg a) hp

theorem Follows.modify {f : S → S} {Q : Unit → γ → Prop} {y : γ}
    (hR : ∀ s, R x s (f s) y) (hQ : Q () y) :
    (modify f : Prog L S E Unit).Follows R A Q x :=
  fun s => ⟨y, hR s, hQ⟩

/-- An access that panics changes nothing, and ends the code. -/
theorem Follows.attempt {f : S → Option (α × S)} {e : E} {y : γ}
    (hsome : ∀ s a s', f s = some (a, s') → R x s s' y ∧ Q a y)
    (hnone : ∀ s, f s = none → R x s s y) :
    (attempt f e : Prog L S E α).Follows R A Q x := by
  intro s
  refine ⟨y, ?_⟩
  cases hs : f s with
  | none =>
      simp only [hs]
      exact ⟨hnone s hs, trivial⟩
  | some r =>
      simp only [hs]
      exact hsome s r.1 r.2 hs

theorem Follows.withLock {l : L} {p : Prog L S E α} (hl : A l) (hp : p.Follows R A Q x) :
    (withLock l p).Follows R A Q x :=
  ⟨hl, Follows.bind (fun _ _ h => h) hp⟩

/-- An initialisation that the protocol does not mind. -/
theorem Follows.callOnce {l : L} {ready : S → Bool} {f : S → S} {Q : Unit → γ → Prop} (hl : A l)
    (hsame : ∀ s, R x s s x) (hmade : ∀ s, R x s (f s) x) (hQ : Q () x) :
    (callOnce l ready f : Prog L S E Unit).Follows R A Q x := by
  intro s
  refine ⟨x, hsame s, ?_⟩
  dsimp only
  split
  · exact hQ
  · refine Follows.withLock hl (Follows.modify (fun s => ?_) hQ)
    split
    · exact hsame s
    · exact hmade s

theorem Follows.withoutInterrupts {p : Prog L S E α} (hp : p.Follows R A Q x) :
    (withoutInterrupts p).Follows R A Q x := by
  intro b
  cases b with
  | false => exact hp
  | true => exact Follows.bind (fun _ _ h => h) hp

/-- Code over a part of the data follows what the part's protocol says of the
whole. -/
theorem Follows.zoom (ln : Lens S W) {R : γ → W → W → γ → Prop} {p : Prog L W E α} :
    ∀ {x}, p.Follows R A Q x →
      (p.zoom ln).Follows (fun x s s' x' => R x (ln.get s) (ln.get s') x') A Q x := by
  induction p with
  | ret a => exact fun h => h
  | act f k ih =>
      intro x h s
      obtain ⟨x', hR, hk⟩ := h (ln.get s)
      refine ⟨x', ?_, ih (ln.get s) hk⟩
      show R x (ln.get s) (ln.get (ln.set (f (ln.get s)) s)) x'
      rw [ln.get_set]
      exact hR
  | lock l k ih => exact fun h => ⟨h.1, ih h.2⟩
  | unlock l k ih => exact fun h => ih h
  | readIf k ih => exact fun h b => ih b (h b)
  | cli k ih => exact fun h => ih h
  | sti k ih => exact fun h => ih h
  | hlt k ih => exact False.elim
  | int3 k ih => exact False.elim
  | fault e => exact fun _ => trivial
  | haltLoop => exact fun _ => trivial

/-- Code over a part follows a protocol of the whole, if each access does
whatever the rest is. -/
theorem Follows.zoom_of (ln : Lens S W) {p : Prog L W E α} :
    ∀ {x}, p.Follows (fun x w w' x' => ∀ s, ln.get s = w → R x s (ln.set w' s) x') A Q x →
      (p.zoom ln).Follows R A Q x := by
  induction p with
  | ret a => exact fun h => h
  | act f k ih =>
      intro x h s
      obtain ⟨x', hR, hk⟩ := h (ln.get s)
      exact ⟨x', hR s rfl, ih (ln.get s) hk⟩
  | lock l k ih => exact fun h => ⟨h.1, ih h.2⟩
  | unlock l k ih => exact fun h => ih h
  | readIf k ih => exact fun h b => ih b (h b)
  | cli k ih => exact fun h => ih h
  | sti k ih => exact fun h => ih h
  | hlt k ih => exact False.elim
  | int3 k ih => exact False.elim
  | fault e => exact fun _ => trivial
  | haltLoop => exact fun _ => trivial

end Words

section Step

variable [DecidableEq L] {R : γ → S → S → γ → Prop} {A : L → Prop} {Q : α → γ → Prop}
  {p k : Prog L S E α} {x : γ} {c c' : Cfg L S} {sig : Signal}

/-- One instruction: an access as the protocol allows, or none at all. -/
theorem Follows.step (h : p.Follows R A Q x) (hs : p.step c = some (k, c', sig)) :
    sig = .next ∧ ∃ x', (R x c.data c'.data x' ∨ x' = x ∧ c'.data = c.data) ∧
      k.Follows R A Q x' := by
  cases p with
  | ret a => cases hs
  | act f k' =>
      obtain ⟨x', hR, hk⟩ := h c.data
      cases hs
      exact ⟨rfl, x', .inl hR, hk⟩
  | lock l k' =>
      simp only [Prog.step] at hs
      split at hs
      · cases hs
      · cases hs
        exact ⟨rfl, x, .inr ⟨rfl, rfl⟩, h.2⟩
  | unlock l k' => cases hs; exact ⟨rfl, x, .inr ⟨rfl, rfl⟩, h⟩
  | readIf k' => cases hs; exact ⟨rfl, x, .inr ⟨rfl, rfl⟩, h c.ifl⟩
  | cli k' => cases hs; exact ⟨rfl, x, .inr ⟨rfl, rfl⟩, h⟩
  | sti k' => cases hs; exact ⟨rfl, x, .inr ⟨rfl, rfl⟩, h⟩
  | hlt k' => exact h.elim
  | int3 k' => exact h.elim
  | fault e => cases hs
  | haltLoop => cases hs

omit [DecidableEq L] in
theorem Follows.wants (h : p.Follows R A Q x) {l : L} (hw : p.wants = some l) : A l := by
  cases p with
  | lock l' k => cases hw; exact h.1
  | _ => cases hw

end Step

end Prog

end ProtoOs.Lib
