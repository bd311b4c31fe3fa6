import ProtoOs.Lib.Spec

/-!
# However the code ends

A triple speaks of code that returns. Kernel code may also fault, spin or
halt, and what it did before that is still there to be seen. `Meets` has a
postcondition for each: one if the code returns, one for every other end.

`Fixes` is the frame condition to go with it. It is read off the code and
not off its runs: no access on any path changes what `v` reads, so no end
of it does.
-/

namespace ProtoOs.Lib

variable {L S W V E α β : Type}

/-- Where the code was when it ended. -/
def Outcome.cfg : Outcome L S E α → Cfg L S
  | done _ c => c
  | fault _ c => c
  | spin _ c => c
  | halt c => c

/-- The end of code that returns meets `Q`, any other end meets `R`. -/
def Outcome.Meets (Q : α → S → Prop) (R : S → Prop) : Outcome L S E α → Prop
  | done a c => Q a c.data
  | fault _ c => R c.data
  | spin _ c => R c.data
  | halt c => R c.data

namespace Prog

/-! ## What is left alone -/

def Fixes (v : S → V) : Prog L S E α → Prop
  | ret _ => True
  | act f k => (∀ s, v (f s) = v s) ∧ ∀ s, (k s).Fixes v
  | lock _ k => k.Fixes v
  | unlock _ k => k.Fixes v
  | readIf k => ∀ b, (k b).Fixes v
  | cli k => k.Fixes v
  | sti k => k.Fixes v
  | hlt k => k.Fixes v
  | int3 k => k.Fixes v
  | fault _ => True
  | haltLoop => True

section Fixes

variable {v : S → V}

theorem Fixes.bind {p : Prog L S E α} {g : α → Prog L S E β} (hp : p.Fixes v)
    (hg : ∀ a, (g a).Fixes v) : (p.bind g).Fixes v := by
  induction p with
  | ret a => exact hg a
  | act f k ih => exact ⟨hp.1, fun s => ih s (hp.2 s)⟩
  | lock l k ih => exact ih hp
  | unlock l k ih => exact ih hp
  | readIf k ih => exact fun b => ih b (hp b)
  | cli k ih => exact ih hp
  | sti k ih => exact ih hp
  | hlt k ih => exact ih hp
  | int3 k ih => exact ih hp
  | fault e => trivial
  | haltLoop => trivial

theorem Fixes.modify {f : S → S} (hf : ∀ s, v (f s) = v s) :
    (modify f : Prog L S E Unit).Fixes v :=
  ⟨hf, fun _ => trivial⟩

theorem Fixes.attempt {f : S → Option (α × S)} {e : E}
    (hf : ∀ s a s', f s = some (a, s') → v s' = v s) : (attempt f e : Prog L S E α).Fixes v := by
  refine ⟨fun s => ?_, fun s => ?_⟩
  · dsimp only
    cases hs : f s with
    | none => rfl
    | some r => exact hf s r.1 r.2 hs
  · dsimp only
    cases f s with
    | none => trivial
    | some r => trivial

theorem Fixes.withLock {l : L} {p : Prog L S E α} (hp : p.Fixes v) : (withLock l p).Fixes v :=
  Fixes.bind hp fun _ => trivial

theorem Fixes.get : (get : Prog L S E S).Fixes v :=
  ⟨fun _ => rfl, fun _ => trivial⟩

theorem Fixes.callOnce {l : L} {ready : S → Bool} {f : S → S} (hf : ∀ s, v (f s) = v s) :
    (callOnce l ready f : Prog L S E Unit).Fixes v := by
  refine ⟨fun _ => rfl, fun s => ?_⟩
  dsimp only
  split
  · trivial
  · refine Fixes.withLock (Fixes.modify fun s => ?_)
    split
    · rfl
    · exact hf s

theorem Fixes.withoutInterrupts {p : Prog L S E α} (hp : p.Fixes v) :
    (withoutInterrupts p).Fixes v := by
  intro b
  cases b with
  | true => exact Fixes.bind hp fun _ => trivial
  | false => exact hp

variable [DecidableEq L] {trap : Cfg L S → Outcome L S E Unit}

/-- However it ends, as long as the breakpoint handler does the same. -/
theorem Fixes.run {p : Prog L S E α} (hp : p.Fixes v)
    (htrap : ∀ c, v (trap c).cfg.data = v c.data) :
    ∀ c, v (p.run trap c).cfg.data = v c.data := by
  induction p with
  | ret a => intro c; rfl
  | act f k ih => intro c; exact (ih _ (hp.2 _) (c.update f)).trans (hp.1 c.data)
  | lock l k ih =>
      intro c
      simp only [Prog.run]
      split
      · rfl
      · exact ih hp (c.acquire l)
  | unlock l k ih => intro c; exact ih hp (c.release l)
  | readIf k ih => intro c; exact ih _ (hp _) c.next
  | cli k ih => intro c; exact ih hp c.closeIf
  | sti k ih => intro c; exact ih hp c.openIf
  | hlt k _ => intro c; rfl
  | int3 k ih =>
      intro c
      simp only [Prog.run]
      have hc : v (trap c.next).cfg.data = v c.data := htrap c.next
      cases hout : trap c.next with
      | done a c' =>
          rw [hout] at hc
          exact (ih hp c').trans hc
      | fault e c' => rw [hout] at hc; exact hc
      | spin l c' => rw [hout] at hc; exact hc
      | halt c' => rw [hout] at hc; exact hc
  | fault e => intro c; rfl
  | haltLoop => intro c; rfl

end Fixes

/-! ## Both kinds of end -/

variable [DecidableEq L] {trap : Cfg L S → Outcome L S E Unit}

/-- From data that meets `P`, code that returns leaves `Q`, and code that
ends in any other way leaves `R`. -/
def Meets (trap : Cfg L S → Outcome L S E Unit) (P : S → Prop) (p : Prog L S E α)
    (Q : α → S → Prop) (R : S → Prop) : Prop :=
  ∀ c, P c.data → (p.run trap c).Meets Q R

section Meets

variable {P : S → Prop} {Q Q' : α → S → Prop} {R R' : S → Prop} {Q₂ : β → S → Prop}

theorem Meets.done {p : Prog L S E α} (h : Meets trap P p Q R) : Triple trap P p Q := by
  intro c a c' hP hrun
  have hc := h c hP
  rw [hrun] at hc
  exact hc

/-- Where returning is no better than any other end. -/
theorem Meets.any {p : Prog L S E α} (h : Meets trap P p Q R) (hQ : ∀ a s, Q a s → R s)
    (c : Cfg L S) (hP : P c.data) : R (p.run trap c).cfg.data := by
  have hc := h c hP
  cases hrun : p.run trap c with
  | done a c' => rw [hrun] at hc; exact hQ _ _ hc
  | fault e c' => rw [hrun] at hc; exact hc
  | spin l c' => rw [hrun] at hc; exact hc
  | halt c' => rw [hrun] at hc; exact hc

theorem Meets.mono {p : Prog L S E α} (h : Meets trap P p Q R) (hQ : ∀ a s, Q a s → Q' a s)
    (hR : ∀ s, R s → R' s) : Meets trap P p Q' R' := by
  intro c hP
  have hc := h c hP
  cases hrun : p.run trap c with
  | done a c' => rw [hrun] at hc; exact hQ _ _ hc
  | fault e c' => rw [hrun] at hc; exact hR _ hc
  | spin l c' => rw [hrun] at hc; exact hR _ hc
  | halt c' => rw [hrun] at hc; exact hR _ hc

theorem Meets.ret {a : α} (h : ∀ s, P s → Q a s) :
    Meets trap P (ret a : Prog L S E α) Q R :=
  fun c hP => h c.data hP

theorem Meets.bind {p : Prog L S E α} {g : α → Prog L S E β} (hp : Meets trap P p Q R)
    (hg : ∀ a, Meets trap (Q a) (g a) Q₂ R) : Meets trap P (p.bind g) Q₂ R := by
  intro c hP
  have hc := hp c hP
  rw [run_bind]
  cases hrun : p.run trap c with
  | done a c' => rw [hrun] at hc; exact hg a c' hc
  | fault e c' => rw [hrun] at hc; exact hc
  | spin l c' => rw [hrun] at hc; exact hc
  | halt c' => rw [hrun] at hc; exact hc

theorem Meets.act {f : S → S} {k : S → Prog L S E α}
    (hk : ∀ s, P s → Meets trap (fun s' => s' = f s) (k s) Q R) :
    Meets trap P (act f k) Q R :=
  fun c hP => hk c.data hP (c.update f) rfl

theorem Meets.modify {f : S → S} {Q : Unit → S → Prop} (hf : ∀ s, P s → Q () (f s)) :
    Meets trap P (modify f : Prog L S E Unit) Q R :=
  fun c hP => hf c.data hP

theorem Meets.attempt {f : S → Option (α × S)} {e : E}
    (hf : ∀ s, P s → ∃ a s', f s = some (a, s') ∧ Q a s') :
    Meets trap P (attempt f e) Q R := by
  intro c hP
  obtain ⟨a, s', hs, hQ⟩ := hf c.data hP
  simp only [Prog.attempt, run, Cfg.update, hs, Option.map_some, Option.getD_some]
  exact hQ

/-- A lock that is held is one more way to end. -/
theorem Meets.withLock {l : L} {p : Prog L S E α} (hR : ∀ s, P s → R s)
    (hp : Meets trap P p Q R) : Meets trap P (withLock l p) Q R := by
  intro c hP
  simp only [Prog.withLock, run]
  split
  · exact hR _ hP
  · exact Meets.bind hp (g := fun a => unlock l (Prog.ret a)) (fun a c hQ => hQ)
      (c.acquire l) hP

/-- Code that leaves `v` alone keeps what depends on nothing else. -/
theorem Fixes.meets {v : S → V} {p : Prog L S E α} (hp : p.Fixes v)
    (htrap : ∀ c, v (trap c).cfg.data = v c.data) (hP : ∀ {s s'}, v s' = v s → P s → P s') :
    Meets trap P p (fun _ => P) P := by
  intro c hc
  have hend : P (p.run trap c).cfg.data := hP (hp.run htrap c) hc
  cases hrun : p.run trap c with
  | done a c' => rw [hrun] at hend; exact hend
  | fault e c' => rw [hrun] at hend; exact hend
  | spin l c' => rw [hrun] at hend; exact hend
  | halt c' => rw [hrun] at hend; exact hend

end Meets

end Prog

end ProtoOs.Lib
