import ProtoOs.Lib.Raise
import ProtoOs.Lib.Spec

/-!
# Code and the computation it carries out

A function of the kernel, read without locks, flags and buffers, is a
computation on an abstract state that returns or raises an event. `Mirrors`
says that the code is that computation: from data related to the abstract
state it returns where the computation does, with the same answer and
related data, and faults with the event the computation raises. It is exact
on both sides, so nothing is left for the code to do where the computation
is silent.

The rules follow the words of the code. A critical section is mirrored by
what its body is, since the abstract state has no locks.
-/

namespace ProtoOs.Lib

variable {L S T E α β : Type} [DecidableEq L]

namespace Prog

variable {trap : Cfg L S → Outcome L S E Unit}

/-- From the data `s`, the locks `h` and the flag `b`, the code raises `e`. -/
def Faults (trap : Cfg L S → Outcome L S E Unit) (p : Prog L S E α) (s : S)
    (h : L → Bool) (b : Bool) (e : E) : Prop :=
  ∀ shadow, ∃ c, p.run trap ⟨s, h, b, shadow⟩ = .fault e c

section Faults

variable {s s' : S} {h : L → Bool} {b : Bool} {a : α} {e : E}

theorem Faults.fault : (fault e : Prog L S E α).Faults trap s h b e :=
  fun _ => ⟨_, rfl⟩

theorem Faults.attempt {f : S → Option (α × S)} (hf : f s = none) :
    (attempt f e : Prog L S E α).Faults trap s h b e := by
  refine fun shadow => ⟨⟨s, h, b, false⟩, ?_⟩
  simp only [Prog.attempt, run, Cfg.update, hf, Option.map_none, Option.getD_none]

theorem Faults.bind_left {p : Prog L S E α} (hp : p.Faults trap s h b e)
    (g : α → Prog L S E β) : (p.bind g).Faults trap s h b e := by
  intro shadow
  obtain ⟨c, hrun⟩ := hp shadow
  exact ⟨c, by rw [run_bind, hrun]; rfl⟩

theorem Faults.bind {p : Prog L S E α} {g : α → Prog L S E β}
    (hp : p.Yields trap s h b a s') (hg : (g a).Faults trap s' h b e) :
    (p.bind g).Faults trap s h b e := by
  intro shadow
  obtain ⟨shadow', hrun⟩ := hp shadow
  obtain ⟨c, hrun'⟩ := hg shadow'
  exact ⟨c, by rw [run_bind, hrun]; exact hrun'⟩

theorem Faults.withLock {l : L} {p : Prog L S E α} (hl : h l = false)
    (hp : p.Faults trap s (Function.update h l true) b e) :
    (withLock l p).Faults trap s h b e := by
  intro shadow
  obtain ⟨c, hrun⟩ := hp.bind_left (fun a => unlock l (Prog.ret a)) false
  refine ⟨c, ?_⟩
  simp only [Prog.withLock, run, hl, Bool.false_eq_true, if_false, Cfg.acquire]
  exact hrun

theorem Faults.zoom {W : Type} (ln : Lens S W) {trap' : Cfg L W → Outcome L W E Unit}
    (htrap : ∀ c, trap c = (trap' (c.view ln)).within ln c.data)
    {p : Prog L W E α} (hp : p.Faults trap' (ln.get s) h b e) :
    (p.zoom ln).Faults trap s h b e := by
  intro shadow
  obtain ⟨c, hrun⟩ := hp shadow
  refine ⟨c.within ln s, ?_⟩
  rw [run_zoom ln htrap]
  simp only [Cfg.view]
  rw [hrun]
  rfl

theorem Faults.run_eq {p : Prog L S E α} (hp : p.Faults trap s h b e) {c : Cfg L S}
    (hs : c.data = s) (hh : c.held = h) (hb : c.ifl = b) : ∃ d, p.run trap c = .fault e d := by
  obtain ⟨data, held, ifl, shadow⟩ := c
  obtain rfl : data = s := hs
  obtain rfl : held = h := hh
  obtain rfl : ifl = b := hb
  exact hp shadow

/-- Code that faults does not return. -/
theorem Faults.not_done {p : Prog L S E α} (hp : p.Faults trap s h b e) {c c' : Cfg L S} {a : α}
    (hs : c.data = s) (hh : c.held = h) (hb : c.ifl = b) : p.run trap c ≠ .done a c' := by
  obtain ⟨d, hrun⟩ := hp.run_eq hs hh hb
  rw [hrun]
  exact fun h => by cases h

/-- From the data `s` it raises `e` over the data `s'`, outside the critical
sections it has entered. -/
def FaultsOver (trap : Cfg L S → Outcome L S E Unit) (p : Prog L S E α) (s : S)
    (h : L → Bool) (b : Bool) (e : E) (s' : S) : Prop :=
  ∀ shadow, ∃ shadow', p.run trap ⟨s, h, b, shadow⟩ = .fault e ⟨s', h, b, shadow'⟩

theorem FaultsOver.fault : (fault e : Prog L S E α).FaultsOver trap s h b e s :=
  fun _ => ⟨_, rfl⟩

theorem FaultsOver.bind_left {p : Prog L S E α} (hp : p.FaultsOver trap s h b e s')
    (g : α → Prog L S E β) : (p.bind g).FaultsOver trap s h b e s' := by
  intro shadow
  obtain ⟨shadow', hrun⟩ := hp shadow
  exact ⟨shadow', by rw [run_bind, hrun]; rfl⟩

theorem FaultsOver.bind {p : Prog L S E α} {g : α → Prog L S E β} {s'' : S}
    (hp : p.Yields trap s h b a s') (hg : (g a).FaultsOver trap s' h b e s'') :
    (p.bind g).FaultsOver trap s h b e s'' := by
  intro shadow
  obtain ⟨shadow', hrun⟩ := hp shadow
  obtain ⟨shadow'', hrun'⟩ := hg shadow'
  exact ⟨shadow'', by rw [run_bind, hrun]; exact hrun'⟩

theorem FaultsOver.zoom {W : Type} (ln : Lens S W) {trap' : Cfg L W → Outcome L W E Unit}
    (htrap : ∀ c, trap c = (trap' (c.view ln)).within ln c.data)
    {p : Prog L W E α} {w' : W} (hp : p.FaultsOver trap' (ln.get s) h b e w') :
    (p.zoom ln).FaultsOver trap s h b e (ln.set w' s) := by
  intro shadow
  obtain ⟨shadow', hrun⟩ := hp shadow
  refine ⟨shadow', ?_⟩
  rw [run_zoom ln htrap]
  simp only [Cfg.view]
  rw [hrun]
  rfl

end Faults

/-- A breakpoint whose handler returns. -/
theorem Yields.int3 {q : Prog L S E Unit} {s s' : S} {h : L → Bool} {b : Bool}
    (hq : q.Yields Outcome.halt s h false () s') :
    (int3 (Prog.ret ()) : Prog L S E Unit).Yields (runGated Outcome.halt q) s h b () s' := by
  intro shadow
  obtain ⟨shadow', hrun⟩ := hq false
  have hgate : runGated Outcome.halt q ⟨s, h, b, false⟩ = .done () ⟨s', h, b, false⟩ := by
    show (q.run Outcome.halt ⟨s, h, false, false⟩).bind _ = _
    rw [hrun]
    rfl
  refine ⟨false, ?_⟩
  show (runGated Outcome.halt q ⟨s, h, b, false⟩).bind _ = _
  rw [hgate]
  rfl

/-! ## Mirrors -/

/-- The code is the computation `f`, on data that `R` relates to its state. -/
def Mirrors (trap : Cfg L S → Outcome L S E Unit) (R : S → T → Prop) (h : L → Bool) (b : Bool)
    (p : Prog L S E α) (f : StateT T (Except E) α) : Prop :=
  ∀ s t, R s t →
    match f t with
    | .ok (a, t') => ∃ s', p.Yields trap s h b a s' ∧ R s' t'
    | .error e => p.Faults trap s h b e

section Mirrors

variable {R : S → T → Prop} {h : L → Bool} {b : Bool} {p : Prog L S E α}
  {f : StateT T (Except E) α} {s : S} {t t' : T}

theorem Mirrors.ok {a : α} (hp : Mirrors trap R h b p f) (hR : R s t)
    (hf : f t = .ok (a, t')) : ∃ s', p.Yields trap s h b a s' ∧ R s' t' := by
  have hs := hp s t hR
  rw [hf] at hs
  exact hs

theorem Mirrors.error {e : E} (hp : Mirrors trap R h b p f) (hR : R s t)
    (hf : f t = .error e) : p.Faults trap s h b e := by
  have hs := hp s t hR
  rw [hf] at hs
  exact hs

/-- A computation that always returns. -/
theorem Mirrors.of_yields
    (hp : ∀ s t, R s t → ∃ a s' t', f t = .ok (a, t') ∧ p.Yields trap s h b a s' ∧ R s' t') :
    Mirrors trap R h b p f := by
  intro s t hR
  obtain ⟨a, s', t', hf, hy, hR'⟩ := hp s t hR
  rw [hf]
  exact ⟨s', hy, hR'⟩

/-- A change of the abstract state. -/
theorem Mirrors.of_modify {p : Prog L S E Unit} {f : T → T}
    (hp : ∀ s t, R s t → ∃ s', p.Yields trap s h b () s' ∧ R s' (f t)) :
    Mirrors trap R h b p (modifyGet fun t => ((), f t)) :=
  Mirrors.of_yields fun s t hR => by
    obtain ⟨s', hy, hR'⟩ := hp s t hR
    exact ⟨(), s', f t, rfl, hy, hR'⟩

theorem Mirrors.ret {a : α} : Mirrors trap R h b (ret a : Prog L S E α) (pure a) :=
  Mirrors.of_yields fun s t hR => ⟨a, s, t, rfl, Yields.ret, hR⟩

theorem Mirrors.fault {e : E} : Mirrors trap R h b (fault e : Prog L S E α) (throw e) :=
  fun _ _ _ => Faults.fault

theorem Mirrors.bind {g : α → Prog L S E β} {k : α → StateT T (Except E) β}
    (hp : Mirrors trap R h b p f) (hg : ∀ a, Mirrors trap R h b (g a) (k a)) :
    Mirrors trap R h b (p.bind g) (f >>= k) := by
  intro s t hR
  cases hf : f t with
  | error e =>
      rw [bind_error hf]
      exact (hp.error hR hf).bind_left g
  | ok r =>
      obtain ⟨s', hy, hR'⟩ := hp.ok hR hf
      rw [bind_ok hf]
      have hnext := hg r.1 s' r.2 hR'
      cases hk : k r.1 r.2 with
      | error e =>
          rw [hk] at hnext
          exact Faults.bind hy hnext
      | ok r' =>
          rw [hk] at hnext
          obtain ⟨s'', hy', hR''⟩ := hnext
          exact ⟨s'', Yields.bind hy hy', hR''⟩

/-- A step the abstract state does not see. -/
theorem Mirrors.skip {p : Prog L S E Unit} {g : Unit → Prog L S E α}
    (hp : ∀ s t, R s t → ∃ s', p.Yields trap s h b () s' ∧ R s' t)
    (hg : Mirrors trap R h b (g ()) f) : Mirrors trap R h b (p.bind g) f := by
  have hskip : Mirrors trap R h b p (pure ()) := Mirrors.of_modify (f := id) hp
  exact Mirrors.bind (k := fun _ => f) hskip fun _ => hg

theorem Mirrors.withLock {l : L} (hl : h l = false)
    (hp : Mirrors trap R (Function.update h l true) b p f) :
    Mirrors trap R h b (withLock l p) f := by
  intro s t hR
  have hs := hp s t hR
  cases hf : f t with
  | error e =>
      rw [hf] at hs
      exact hs.withLock hl
  | ok r =>
      rw [hf] at hs
      obtain ⟨s', hy, hR'⟩ := hs
      exact ⟨s', Yields.withLock hl hy, hR'⟩

end Mirrors

end Prog

end ProtoOs.Lib
