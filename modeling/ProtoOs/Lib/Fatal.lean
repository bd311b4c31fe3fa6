import ProtoOs.Lib.Cpu

/-!
# Runs with fatal events

A fatal handler never returns, so of the frames under it nothing has to be
said: whatever they were doing, they will not go on. What matters is the
innermost fatal frame and, where the event left the flag open, the one
interrupt that may be running over it. `FatalProof` is what has to be shown
of a system's fatal handlers, over a `Proof` of its runs up to the first
event: that each meets its precondition where its event strikes, and that
interrupts keep it. It follows for every run that nothing blocks once a
fatal event has struck, and that the handler left alone reaches its halting
loop.
-/

namespace ProtoOs.Lib

variable {L S E I P : Type} [DecidableEq L]

/-- Where the handler of an event starts. -/
def System.struck (sys : System L S E I P) (m : Cpu L S E P) (e : E) : Cfg L S :=
  if sys.gate e then m.cfg.closeIf else m.cfg.next

/-- What has to be shown: `calm` is the proof of the runs without fatal
events, `fatal` the logic fatal handlers run in, `irq` the one of an
interrupt over such a handler. The boundaries of `fatal` ask for what such
an interrupt needs, and all else that runs provides it. -/
structure FatalProof (sys : System L S E I P)
    (G₀ G : Cpu L S E P → Label E I → Prop) where
  calm : Proof sys G₀
  fatal : Logic L S E
  irq : Logic L S E
  calm_guard : ∀ {m l}, G m l → (∀ e, l ≠ .fatal e) → G₀ m l
  calm_point : ∀ {m}, calm.Inv m → fatal.point m.cfg
  total : fatal.Total
  irq_point : ∀ {c}, irq.point c → c.ifl = false ∧ fatal.point c
  irq_busy : ∀ {l c}, ¬irq.busy l c
  irq_trap : ∀ {Q c}, ¬irq.trap Q c
  irq_rest : ∀ {c}, ¬irq.rest c
  fatal_ok : ∀ {m e}, G m (.fatal e) → fatal.point m.cfg →
    (sys.fatal e).wp fatal (fun _ _ => False) (sys.struck m e)
  irq_ok : ∀ {c i}, c.ifl = true → fatal.point c →
    (sys.irq i).wp irq (fun _ c' => fatal.rely c (c'.iret true)) c.closeIf

namespace FatalProof

variable {sys : System L S E I P} {G₀ G : Cpu L S E P → Label E I → Prop}
  (pf : FatalProof sys G₀ G)

/-- No fatal event has struck yet; or a fatal handler is running; or an
interrupt over one is. -/
inductive Inv (m : Cpu L S E P) : Prop
  | calm (hk : ∀ f ∈ m.frames, f.kind ≠ .fatal) (h : pf.calm.Inv m)
  | top {f : Frame L S E} {fs : List (Frame L S E)} (hf : m.frames = f :: fs)
      (hk : f.kind = .fatal) (hh : m.halted = false)
      (hwp : f.code.wp pf.fatal (fun _ _ => False) m.cfg)
  | above {f g : Frame L S E} {fs : List (Frame L S E)} (hf : m.frames = f :: g :: fs)
      (hkf : f.kind ≠ .fatal) (hkg : g.kind = .fatal) (hh : m.halted = false)
      (hwp : f.code.wp pf.irq
        (fun _ c' => g.code.wp pf.fatal (fun _ _ => False) (c'.iret f.saved)) m.cfg)

variable {pf}

/-- Where no fatal event has struck, an instruction brings none in. -/
theorem tick_calm {m m' : Cpu L S E P} (h : ∀ f ∈ m.frames, f.kind ≠ .fatal)
    (hn : sys.tick m = some m') : ∀ f ∈ m'.frames, f.kind ≠ .fatal := by
  -- What a signal adds to the stack is a breakpoint at most.
  have hsignal : ∀ (m₁ : Cpu L S E P) (sig : Signal),
      (∀ f ∈ m₁.frames, f.kind ≠ .fatal) →
      ∀ f ∈ (sys.signal m₁ sig).frames, f.kind ≠ .fatal := by
    intro m₁ sig h₁ f hf
    cases sig with
    | next => exact h₁ f hf
    | sleep => exact h₁ f hf
    | trap =>
        rcases List.mem_cons.mp hf with rfl | hf
        · simp
        · exact h₁ f hf
  unfold System.tick at hn
  split at hn
  · cases hn
  · split at hn <;> rename_i hf
    · split at hn
      · obtain rfl := Option.some.inj hn
        exact h
      · obtain ⟨r, _, rfl⟩ := Option.map_eq_some_iff.mp hn
        exact hsignal _ _ h
    · rename_i f fs
      rw [hf] at h
      split at hn
      · split at hn
        · cases hn
        · obtain rfl := Option.some.inj hn
          exact fun f' hf' => h f' (by simp [show f' ∈ fs from hf'])
      · obtain ⟨r, _, rfl⟩ := Option.map_eq_some_iff.mp hn
        refine hsignal _ _ fun f' hf' => ?_
        rcases List.mem_cons.mp hf' with rfl | hf'
        · exact h f (by simp)
        · exact h f' (by simp [hf'])

/-- The instructions of whatever frame is on top. -/
theorem tick_frame {m m' : Cpu L S E P} {f : Frame L S E} {fs : List (Frame L S E)}
    (hf : m.frames = f :: fs) (hn : sys.tick m = some m') :
    (∃ a, f.code.result? = some a ∧ f.kind ≠ .fatal ∧
      m' = { m with frames := fs, cfg := m.cfg.iret f.saved }) ∨
    ∃ k c sig, f.code.step m.cfg = some (k, c, sig) ∧
      m' = sys.signal { m with frames := { f with code := k } :: fs, cfg := c } sig := by
  unfold System.tick at hn
  split at hn
  · cases hn
  · rw [hf] at hn
    simp only at hn
    split at hn <;> rename_i hr
    · split at hn <;> rename_i hk
      · cases hn
      · exact .inl ⟨_, hr, hk, (Option.some.inj hn).symm⟩
    · obtain ⟨⟨k, c, sig⟩, hs, rfl⟩ := Option.map_eq_some_iff.mp hn
      exact .inr ⟨k, c, sig, hs, rfl⟩

theorem Inv.tick {m m' : Cpu L S E P} (h : pf.Inv m) (hn : sys.tick m = some m') :
    pf.Inv m' := by
  cases h with
  | calm hk h => exact .calm (tick_calm hk hn) (h.tick hn)
  | top hf hk hh hwp =>
      rcases tick_frame hf hn with ⟨a, _, hnk, _⟩ | ⟨k, c, sig, hs, rfl⟩
      · exact absurd hk hnk
      · have hstep := Prog.wp_step hwp hs
        cases sig with
        | next => exact .top rfl hk hh hstep
        | sleep => exact absurd hstep.1 pf.total.rest
        | trap => exact absurd hstep pf.total.trap
  | above hf hkf hkg hh hwp =>
      rcases tick_frame hf hn with ⟨a, hr, _, rfl⟩ | ⟨k, c, sig, hs, rfl⟩
      · have hret := Prog.wp_ret hwp hr
        exact .top rfl hkg hh hret
      · have hstep := Prog.wp_step hwp hs
        cases sig with
        | next => exact .above rfl hkf hkg hh hstep
        | sleep => exact absurd hstep.1 pf.irq_rest
        | trap => exact absurd hstep pf.irq_trap

/-- A fatal handler is always at an instruction. -/
theorem result?_of_wp {p : Prog L S E Unit} {c : Cfg L S}
    (h : p.wp pf.fatal (fun _ _ => False) c) : p.result? = none := by
  cases hr : p.result? with
  | none => rfl
  | some a => exact (Prog.wp_ret h hr).elim

theorem Inv.irq {m : Cpu L S E P} {i : I} (h : pf.Inv m) (hG : G m (.irq i))
    (hifl : m.cfg.ifl = true) (hsh : m.cfg.shadow = false) :
    pf.Inv (m.enter .irq true (sys.irq i)) := by
  cases h with
  | calm hk h =>
      refine .calm (fun f hf => ?_) (h.irq (pf.calm_guard hG (by simp)) hifl hsh)
      rcases List.mem_cons.mp hf with rfl | hf
      · simp
      · exact hk f hf
  | @top f fs hf hk hh hwp =>
      have hframes : (m.enter .irq true (sys.irq i)).frames =
          ⟨.irq, m.cfg.ifl, sys.irq i⟩ :: f :: fs := by
        simp only [Cpu.enter, hf]
      refine .above hframes (by simp) hk rfl ?_
      simp only [Cpu.enter, hifl]
      exact Prog.wp_mono (fun _ c' hc' => Prog.wp_stable (result?_of_wp hwp) hwp hc')
        (pf.irq_ok hifl (Prog.wp_point hwp))
  | above hf hkf hkg hh hwp =>
      -- The interrupt over the handler has the flag closed.
      have hclosed := (pf.irq_point (Prog.wp_point hwp)).1
      rw [hifl] at hclosed
      cases hclosed

/-- Whatever is running, an event that strikes finds what its handler's
boundaries ask for. -/
theorem Inv.point {m : Cpu L S E P} (h : pf.Inv m) : pf.fatal.point m.cfg := by
  cases h with
  | calm hk h => exact pf.calm_point h
  | top hf hk hh hwp => exact Prog.wp_point hwp
  | above hf hkf hkg hh hwp => exact (pf.irq_point (Prog.wp_point hwp)).2

theorem Inv.step {m m' : Cpu L S E P} {l : Label E I} (h : pf.Inv m) (hG : G m l)
    (hn : sys.step m l = some m') : pf.Inv m' := by
  rcases System.step_cases hn with ⟨rfl, ht⟩ | ⟨i, rfl, hifl, hsh, rfl⟩ | ⟨e, rfl, _, rfl⟩
  · exact h.tick ht
  · exact h.irq hG hifl hsh
  · exact .top rfl rfl rfl (pf.fatal_ok hG h.point)

theorem sound (pf : FatalProof sys G₀ G) {m₀ m : Cpu L S E P}
    {ls : List (Label E I)} (hf₀ : m₀.frames = []) (h₀ : pf.calm.Inv m₀)
    (hrun : Run sys.step G m₀ ls m) : pf.Inv m :=
  hrun.invariant (.calm (by simp [hf₀]) h₀) fun h hG hn => h.step hG hn

/-- Once a fatal event has struck, nothing blocks. -/
theorem Inv.not_blocked {m : Cpu L S E P} {f : Frame L S E} (h : pf.Inv m)
    (hf : f ∈ m.frames) (hk : f.kind = .fatal) : ¬m.Blocked := by
  rintro ⟨_, l, hw, hheld⟩
  unfold Cpu.wants at hw
  have hfree : m.cfg.held l = false := by
    cases h with
    | calm hk' _ => exact absurd hk (hk' f hf)
    | top hf' _ _ hwp =>
        rw [hf'] at hw
        exact Prog.wp_wants (fun _ _ => pf.total.busy) hwp hw
    | above hf' _ _ _ hwp =>
        rw [hf'] at hw
        exact Prog.wp_wants (fun _ _ => pf.irq_busy) hwp hw
  rw [hfree] at hheld
  cases hheld

/-- A fatal handler on top, left alone, ends in the halting loop. -/
theorem Inv.halts {m : Cpu L S E P} {f : Frame L S E} {fs : List (Frame L S E)}
    (h : pf.Inv m) (hf : m.frames = f :: fs) (hk : f.kind = .fatal) :
    ∃ ls m' f', Run sys.step Ticks m ls m' ∧ m'.frames = f' :: fs ∧
      f'.kind = .fatal ∧ f'.code = .haltLoop := by
  obtain ⟨hh, hwp⟩ : m.halted = false ∧
      f.code.wp pf.fatal (fun _ _ => False) m.cfg := by
    cases h with
    | calm hk' _ => exact absurd hk (hk' f (by simp [hf]))
    | top hf' hk' hh hwp =>
        obtain ⟨rfl, rfl⟩ := List.cons.inj (hf.symm.trans hf')
        exact ⟨hh, hwp⟩
    | above hf' hkf hkg hh hwp =>
        obtain ⟨rfl, _⟩ := List.cons.inj (hf.symm.trans hf')
        exact absurd hk hkf
  obtain ⟨q, d, hsteps, hend⟩ := Prog.wp_steps pf.total f.code hwp
  obtain ⟨ls, hls⟩ := sys.run_frame (G := Ticks) (fun _ => rfl) hsteps hf hh rfl rfl
  rcases hend with ⟨_, _, hfalse⟩ | ⟨hq, _⟩
  · exact hfalse.elim
  · exact ⟨ls, _, { f with code := q }, hls, rfl, hk, hq⟩

end FatalProof

end ProtoOs.Lib
