import ProtoOs.Lib.Prog

/-!
# Specifications of uninterrupted code

Two ways to say what `Prog.run` does. `Yields` is total and exact: the code
returns this value and leaves this data, with the locks and the flag as it
found them. `Triple` is partial: if the code returns at all, it has left the
data as the postcondition says.

Both compose along `bind`, so a function's specification is put together
from those of what it calls, without unfolding `run`.
-/

namespace ProtoOs.Lib

variable {L S W E α β : Type} [DecidableEq L]

namespace Prog

variable {trap : Cfg L S → Outcome L S E Unit}

/-- From the data `s`, the locks `h` and the flag `b`, the code returns `a`
and leaves `s'`. Only the shadow of an `sti` is left open. -/
def Yields (trap : Cfg L S → Outcome L S E Unit) (p : Prog L S E α) (s : S)
    (h : L → Bool) (b : Bool) (a : α) (s' : S) : Prop :=
  ∀ shadow, ∃ shadow', p.run trap ⟨s, h, b, shadow⟩ = .done a ⟨s', h, b, shadow'⟩

section Yields

variable {s s' s'' : S} {h : L → Bool} {b : Bool} {a : α} {r : β}

theorem Yields.ret : (ret a : Prog L S E α).Yields trap s h b a s :=
  fun shadow => ⟨shadow, rfl⟩

theorem Yields.bind {p : Prog L S E α} {g : α → Prog L S E β}
    (hp : p.Yields trap s h b a s') (hg : (g a).Yields trap s' h b r s'') :
    (p.bind g).Yields trap s h b r s'' := by
  intro shadow
  obtain ⟨shadow', hrun⟩ := hp shadow
  obtain ⟨shadow'', hrun'⟩ := hg shadow'
  exact ⟨shadow'', by rw [run_bind, hrun]; exact hrun'⟩

theorem Yields.act {f : S → S} {k : S → Prog L S E α}
    (hk : (k s).Yields trap (f s) h b a s') :
    (act f k).Yields trap s h b a s' :=
  fun _ => hk false

theorem Yields.modify {f : S → S} :
    (modify f : Prog L S E Unit).Yields trap s h b () (f s) :=
  Yields.act Yields.ret

theorem Yields.attempt {f : S → Option (α × S)} {e : E} (hf : f s = some (a, s')) :
    (attempt f e : Prog L S E α).Yields trap s h b a s' := by
  refine fun shadow => ⟨false, ?_⟩
  simp only [Prog.attempt, run, Cfg.update, hf, Option.map_some, Option.getD_some]

theorem Yields.withLock {l : L} {p : Prog L S E α} (hl : h l = false)
    (hp : p.Yields trap s (Function.update h l true) b a s') :
    (withLock l p).Yields trap s h b a s' := by
  intro shadow
  obtain ⟨shadow', hrun⟩ := hp false
  refine ⟨false, ?_⟩
  simp only [Prog.withLock, run, hl, Bool.false_eq_true, if_false, Cfg.acquire]
  rw [run_bind, hrun]
  simp only [Outcome.bind, run, Cfg.release]
  rw [Function.update_idem, ← hl, Function.update_eq_self]

/-- An initialisation leaves what making it leaves, or nothing new where it
was made before. -/
theorem Yields.callOnce {l : L} {ready : S → Bool} {f : S → S} (hl : h l = false)
    (hs : s' = if ready s then s else f s) :
    (callOnce l ready f : Prog L S E Unit).Yields trap s h b () s' := by
  refine Yields.act ?_
  cases hready : ready s with
  | true =>
      rw [hready, if_pos rfl] at hs
      rw [if_pos rfl, hs]
      exact Yields.ret
  | false =>
      rw [if_neg Bool.false_ne_true, hs]
      exact Yields.withLock hl Yields.modify

theorem Yields.withoutInterrupts {p : Prog L S E α}
    (hp : p.Yields trap s h false a s') :
    (withoutInterrupts p).Yields trap s h b a s' := by
  intro shadow
  obtain ⟨shadow', hrun⟩ := hp false
  cases b with
  | false => exact ⟨shadow', hrun⟩
  | true =>
      refine ⟨true, ?_⟩
      simp only [Prog.withoutInterrupts, run, Cfg.next, Cfg.closeIf]
      rw [run_bind, hrun]
      rfl

/-- Lifted code yields what the code of the part does. -/
theorem Yields.zoom (ln : Lens S W) {trap' : Cfg L W → Outcome L W E Unit}
    (htrap : ∀ c, trap c = (trap' (c.view ln)).within ln c.data)
    {p : Prog L W E α} {w' : W} (hp : p.Yields trap' (ln.get s) h b a w') :
    (p.zoom ln).Yields trap s h b a (ln.set w' s) := by
  intro shadow
  obtain ⟨shadow', hrun⟩ := hp shadow
  refine ⟨shadow', ?_⟩
  rw [run_zoom ln htrap]
  simp only [Cfg.view]
  rw [hrun]
  rfl

theorem Yields.run_eq {p : Prog L S E α} (hp : p.Yields trap s h b a s') {c : Cfg L S}
    (hs : c.data = s) (hh : c.held = h) (hb : c.ifl = b) :
    ∃ d, p.run trap c = .done a d ∧ d.data = s' ∧ d.held = h ∧ d.ifl = b := by
  obtain ⟨data, held, ifl, shadow⟩ := c
  obtain rfl : data = s := hs
  obtain rfl : held = h := hh
  obtain rfl : ifl = b := hb
  obtain ⟨shadow', hrun⟩ := hp shadow
  exact ⟨_, hrun, rfl, rfl, rfl⟩

/-- What the code yields is the only way it can end. -/
theorem Yields.eq_of_run {p : Prog L S E α} (hp : p.Yields trap s h b a s')
    {c c' : Cfg L S} {a' : α} (hs : c.data = s) (hh : c.held = h)
    (hb : c.ifl = b) (hrun : p.run trap c = .done a' c') :
    a' = a ∧ c'.data = s' ∧ c'.held = h ∧ c'.ifl = b := by
  obtain ⟨data, held, ifl, shadow⟩ := c
  obtain rfl : data = s := hs
  obtain rfl : held = h := hh
  obtain rfl : ifl = b := hb
  obtain ⟨shadow', hrun'⟩ := hp shadow
  rw [hrun'] at hrun
  obtain ⟨rfl, rfl⟩ := Outcome.done.inj hrun
  exact ⟨rfl, rfl, rfl, rfl⟩

theorem Yields.unique {a' : α} {p : Prog L S E α} (hp : p.Yields trap s h b a s')
    (hp' : p.Yields trap s h b a' s'') : a = a' ∧ s' = s'' := by
  obtain ⟨_, hrun⟩ := hp' false
  obtain ⟨ha, hs, _⟩ := hp.eq_of_run rfl rfl rfl hrun
  exact ⟨ha.symm, hs.symm⟩

/-- One run is enough to know what the code yields: no instruction reads
the shadow. -/
theorem Yields.of_run {p : Prog L S E α} {c c' : Cfg L S}
    (hrun : p.run trap c = .done a c') (hheld : c'.held = c.held)
    (hifl : c'.ifl = c.ifl) : p.Yields trap c.data c.held c.ifl a c'.data := by
  intro shadow
  have hc' : (⟨c'.data, c.held, c.ifl, c'.shadow⟩ : Cfg L S) = c' := by
    rw [← hheld, ← hifl]
  cases p with
  | ret a' =>
      obtain ⟨rfl, rfl⟩ := Outcome.done.inj hrun
      exact ⟨shadow, rfl⟩
  | lock l k =>
      refine ⟨c'.shadow, ?_⟩
      rw [hc']
      simp only [run] at hrun ⊢
      split at hrun <;> rename_i hl
      · cases hrun
      · rw [if_neg hl]
        exact hrun
  | hlt k => cases hrun
  | fault e => cases hrun
  | haltLoop => cases hrun
  | _ =>
      refine ⟨c'.shadow, ?_⟩
      rw [hc']
      exact hrun

/-- A critical section around one access that can panic: if it returns,
the access was made. -/
theorem run_withLock_attempt {l : L} {f : S → Option (α × S)} {e : E}
    {c c' : Cfg L S} (hl : c.held l = false)
    (hrun : (Prog.withLock l (Prog.attempt f e)).run trap c = .done a c') :
    f c.data = some (a, c'.data) := by
  cases hf : f c.data with
  | none =>
      simp only [Prog.withLock, Prog.attempt, Prog.bind, run, hl, Bool.false_eq_true,
        if_false, Cfg.acquire, hf] at hrun
      cases hrun
  | some r =>
      obtain ⟨rfl, hdata, _⟩ := (Yields.withLock hl
        (Yields.attempt (e := e) hf)).eq_of_run (b := c.ifl) rfl rfl rfl hrun
      rw [hdata]

end Yields

/-- From the data `s`, the locks `h` and the flag `b`, the code comes to the
lock `l` and finds it held. -/
def Spins (trap : Cfg L S → Outcome L S E Unit) (p : Prog L S E α) (s : S)
    (h : L → Bool) (b : Bool) (l : L) : Prop :=
  ∀ shadow, ∃ c, p.run trap ⟨s, h, b, shadow⟩ = .spin l c

section Spins

variable {s s' : S} {h : L → Bool} {b : Bool} {l : L} {a : α}

theorem Spins.bind {p : Prog L S E α} (hp : p.Spins trap s h b l) (g : α → Prog L S E β) :
    (p.bind g).Spins trap s h b l := by
  intro shadow
  obtain ⟨c, hrun⟩ := hp shadow
  exact ⟨c, by rw [run_bind, hrun]; rfl⟩

theorem Spins.after {p : Prog L S E α} {g : α → Prog L S E β}
    (hp : p.Yields trap s h b a s') (hg : (g a).Spins trap s' h b l) :
    (p.bind g).Spins trap s h b l := by
  intro shadow
  obtain ⟨shadow', hrun⟩ := hp shadow
  obtain ⟨c, hrun'⟩ := hg shadow'
  exact ⟨c, by rw [run_bind, hrun]; exact hrun'⟩

/-- An initialisation that is still being made. -/
theorem Spins.callOnce {ready : S → Bool} {f : S → S} (hl : h l = true)
    (hready : ready s = false) :
    (callOnce l ready f : Prog L S E Unit).Spins trap s h b l := by
  intro shadow
  refine ⟨⟨s, h, b, false⟩, ?_⟩
  simp only [Prog.callOnce, run, hready, Bool.false_eq_true, if_false, Prog.withLock,
    Cfg.update, id, hl, if_true]

/-- Lifted code spins where the code of the part does. -/
theorem Spins.zoom (ln : Lens S W) {trap' : Cfg L W → Outcome L W E Unit}
    (htrap : ∀ c, trap c = (trap' (c.view ln)).within ln c.data)
    {p : Prog L W E α} (hp : p.Spins trap' (ln.get s) h b l) :
    (p.zoom ln).Spins trap s h b l := by
  intro shadow
  obtain ⟨c, hrun⟩ := hp shadow
  refine ⟨c.within ln s, ?_⟩
  rw [run_zoom ln htrap]
  simp only [Cfg.view]
  rw [hrun]
  rfl

end Spins

/-! ## What is left if the code returns -/

/-- If the code returns from data that meets `P`, its answer and the data
meet `Q`. -/
def Triple (trap : Cfg L S → Outcome L S E Unit) (P : S → Prop) (p : Prog L S E α)
    (Q : α → S → Prop) : Prop :=
  ∀ c a c', P c.data → p.run trap c = .done a c' → Q a c'.data

/-- What survives the code, if it returns. -/
abbrev Keeps (trap : Cfg L S → Outcome L S E Unit) (I : S → Prop)
    (p : Prog L S E α) : Prop := Triple trap I p fun _ => I

section Triple

variable {P P' : S → Prop} {Q Q' : α → S → Prop} {R : β → S → Prop}

theorem Triple.ret {a : α} (h : ∀ s, P s → Q a s) :
    Triple trap P (ret a : Prog L S E α) Q := by
  intro c a' c' hP hrun
  obtain ⟨rfl, rfl⟩ := Outcome.done.inj hrun
  exact h _ hP

theorem Triple.bind {p : Prog L S E α} {g : α → Prog L S E β}
    (hp : Triple trap P p Q) (hg : ∀ a, Triple trap (Q a) (g a) R) :
    Triple trap P (p.bind g) R := by
  intro c b c' hP hrun
  rw [run_bind] at hrun
  obtain ⟨a, c₁, hrunp, hrun⟩ := Outcome.bind_eq_done hrun
  exact hg a _ _ _ (hp _ _ _ hP hrunp) hrun

theorem Triple.mono {p : Prog L S E α} (h : Triple trap P p Q)
    (hP : ∀ s, P' s → P s) (hQ : ∀ a s, Q a s → Q' a s) : Triple trap P' p Q' :=
  fun c a c' hc hrun => hQ _ _ (h c a c' (hP _ hc) hrun)

/-- What the code yields meets its postcondition. -/
theorem Yields.post {p : Prog L S E α} {s s' : S} {h : L → Bool} {b : Bool} {a : α}
    (hp : p.Yields trap s h b a s') (ht : Triple trap P p Q) (hs : P s) : Q a s' := by
  obtain ⟨_, hrun⟩ := hp false
  exact ht _ _ _ hs hrun

theorem Triple.and {p : Prog L S E α} (h : Triple trap P p Q) (h' : Triple trap P' p Q') :
    Triple trap (fun s => P s ∧ P' s) p fun a s => Q a s ∧ Q' a s :=
  fun c a c' hc hrun => ⟨h c a c' hc.1 hrun, h' c a c' hc.2 hrun⟩

theorem Triple.act {f : S → S} {k : S → Prog L S E α}
    (hk : ∀ s, P s → Triple trap (fun s' => s' = f s) (k s) Q) :
    Triple trap P (act f k) Q :=
  fun c a c' hP hrun => hk c.data hP (c.update f) a c' rfl hrun

theorem Triple.modify {f : S → S} {Q : Unit → S → Prop} (hf : ∀ s, P s → Q () (f s)) :
    Triple trap P (modify f : Prog L S E Unit) Q :=
  Triple.act fun s hP => Triple.ret fun s' hs' => by rw [hs']; exact hf s hP

theorem Triple.attempt {f : S → Option (α × S)} {e : E}
    (hf : ∀ s a s', P s → f s = some (a, s') → Q a s') :
    Triple trap P (attempt f e) Q := by
  intro c a c' hP hrun
  simp only [Prog.attempt, run] at hrun
  split at hrun <;> rename_i hfs
  · obtain ⟨rfl, rfl⟩ := Outcome.done.inj hrun
    simp only [Cfg.update, hfs, Option.map_some, Option.getD_some]
    exact hf _ _ _ hP hfs
  · cases hrun

theorem Triple.withLock {l : L} {p : Prog L S E α} (hp : Triple trap P p Q) :
    Triple trap P (withLock l p) Q := by
  intro c a c' hP hrun
  simp only [Prog.withLock, run] at hrun
  split at hrun
  · cases hrun
  · refine Triple.bind hp (g := fun a => unlock l (Prog.ret a)) (R := Q) (fun a => ?_)
      (c.acquire l) _ _ hP hrun
    intro c₁ a' c₂ hQ hrun₁
    obtain ⟨rfl, rfl⟩ := Outcome.done.inj hrun₁
    exact hQ

/-- Making a value keeps what its making keeps, whoever makes it. -/
theorem Keeps.callOnce {I : S → Prop} {l : L} {ready : S → Bool} {f : S → S}
    (hf : ∀ s, I s → I (f s)) : (callOnce l ready f : Prog L S E Unit).Keeps trap I := by
  refine Triple.act fun s hs => ?_
  have hkeep : ∀ s', s' = id s → I s' := fun s' hs' => by rw [hs']; exact hs
  split
  · exact Triple.ret hkeep
  · refine Triple.withLock (Triple.modify fun s' hs' => ?_)
    split
    · exact hkeep s' hs'
    · exact hf s' (hkeep s' hs')

theorem Triple.withoutInterrupts {p : Prog L S E α} (hp : Triple trap P p Q) :
    Triple trap P (withoutInterrupts p) Q := by
  intro c a c' hP hrun
  simp only [Prog.withoutInterrupts, run] at hrun
  cases hifl : c.ifl with
  | false => rw [hifl] at hrun; exact hp c.next _ _ hP hrun
  | true =>
      rw [hifl] at hrun
      refine Triple.bind hp (g := fun a => sti (Prog.ret a)) (R := Q) (fun a => ?_)
        c.next.closeIf _ _ hP hrun
      intro c₁ a' c₂ hQ hrun₁
      obtain ⟨rfl, rfl⟩ := Outcome.done.inj hrun₁
      exact hQ

theorem Triple.fault {e : E} : Triple trap P (fault e : Prog L S E α) Q := by
  intro c a c' _ hrun
  cases hrun

theorem Triple.int3 {Q : Unit → S → Prop}
    (htrap : ∀ {c c'}, P c.data → trap c = .done () c' → Q () c'.data) :
    Triple trap P (int3 (Prog.ret ()) : Prog L S E Unit) Q := by
  intro c a c' hP hrun
  obtain ⟨_, c₁, hrunt, hrun⟩ := Outcome.bind_eq_done hrun
  obtain ⟨_, rfl⟩ := Outcome.done.inj hrun
  exact htrap (c := c.next) hP hrunt

theorem Keeps.bind {I : S → Prop} {p : Prog L S E α} {g : α → Prog L S E β}
    (hp : p.Keeps trap I) (hg : ∀ a, (g a).Keeps trap I) : (p.bind g).Keeps trap I :=
  Triple.bind hp hg

theorem Keeps.act {I : S → Prop} {f : S → S} {k : S → Prog L S E α}
    (hf : ∀ s, I s → I (f s)) (hk : ∀ s, (k s).Keeps trap I) :
    (act f k).Keeps trap I :=
  Triple.act fun s hs => (hk s).mono (fun s' hs' => by rw [hs']; exact hf s hs) fun _ _ => id

/-- Lifted code keeps what does not depend on the part. -/
theorem Keeps.zoom (ln : Lens S W) {trap' : Cfg L W → Outcome L W E Unit}
    (htrap : ∀ c, trap c = (trap' (c.view ln)).within ln c.data) {I : S → Prop}
    (hI : ∀ w s, I s → I (ln.set w s)) (p : Prog L W E α) :
    (p.zoom ln).Keeps trap I := by
  intro c a c' hc hrun
  rw [run_zoom ln htrap] at hrun
  obtain ⟨d, _, rfl⟩ := Outcome.within_eq_done hrun
  exact hI _ _ hc

end Triple

end Prog

end ProtoOs.Lib
