import ProtoOs.Lib.Cpu

/-!
# What lies ahead of a CPU left alone

The two readings of code agree. What is left of a block, and of the handler
over it if there is one, ends in one way if nothing more is delivered:
`System.ahead` is that end, put together from the uninterrupted readings.
An instruction does not change it (`tick_ahead`), so what the reading of a
whole block says of its end holds at every instruction of it; and the end is
reached, in as many instructions as it takes (`reaches_done`,
`reaches_fault`).
-/

namespace ProtoOs.Lib

variable {L S E I P α : Type} [DecidableEq L]

namespace Prog

/-- The event the code has come to raise. -/
def raised : Prog L S E α → Option E
  | fault e => some e
  | _ => none

/-- Code that only looks after the interrupt flag; it sleeps only where
`sleeps` says so. -/
def Plain (sleeps : Bool) : Prog L S E α → Prop
  | ret _ => True
  | readIf k => ∀ b, (k b).Plain sleeps
  | cli k => k.Plain sleeps
  | sti k => k.Plain sleeps
  | hlt k => sleeps = true ∧ k.Plain sleeps
  | _ => False

theorem Plain.step {sleeps : Bool} {p k : Prog L S E α} {c c' : Cfg L S} {sig : Signal}
    (h : p.Plain sleeps) (hs : p.step c = some (k, c', sig)) : k.Plain sleeps := by
  cases p <;> simp only [Prog.step, reduceCtorEq, Option.some.injEq, Prod.mk.injEq] at hs
  case readIf k' =>
    obtain ⟨rfl, _, _⟩ := hs
    exact h c.ifl
  case cli k' =>
    obtain ⟨rfl, _, _⟩ := hs
    exact h
  case sti k' =>
    obtain ⟨rfl, _, _⟩ := hs
    exact h
  case hlt k' =>
    obtain ⟨rfl, _, _⟩ := hs
    exact h.2
  all_goals exact False.elim h

theorem Plain.step_ne_trap {sleeps : Bool} {p : Prog L S E α} {c : Cfg L S}
    (h : p.Plain sleeps) (k : Prog L S E α) (c' : Cfg L S) : p.step c ≠ some (k, c', .trap) := by
  intro hs
  cases p <;> simp only [Prog.step, reduceCtorEq, Option.some.injEq, Prod.mk.injEq,
    and_false] at hs
  case lock => exact h
  case int3 => exact h

/-- It returns or goes to sleep, and touches no data. -/
theorem Plain.run {sleeps : Bool} {trap : Cfg L S → Outcome L S E Unit} {p : Prog L S E α} :
    ∀ {c : Cfg L S}, p.Plain sleeps →
      (∃ a d, p.run trap c = .done a d ∧ d.data = c.data ∧ d.held = c.held) ∨
      sleeps = true ∧ ∃ d, p.run trap c = .halt d := by
  induction p with
  | ret a => intro c _; exact .inl ⟨a, c, rfl, rfl, rfl⟩
  | readIf k ih => intro c h; exact ih c.ifl (c := c.next) (h c.ifl)
  | cli k ih => intro c h; exact ih (c := c.closeIf) h
  | sti k ih => intro c h; exact ih (c := c.openIf) h
  | hlt k ih => intro c h; exact .inr ⟨h.1, c, rfl⟩
  | _ => intro c h; exact h.elim

/-- An instruction leaves the uninterrupted reading as it was. -/
theorem run_of_step {trap : Cfg L S → Outcome L S E Unit} {p k : Prog L S E α} {c c' : Cfg L S}
    {sig : Signal} (hs : p.step c = some (k, c', sig)) :
    p.run trap c = match sig with
      | .next => k.run trap c'
      | .sleep => .halt c
      | .trap => (trap c').bind fun _ d => k.run trap d := by
  cases p <;> simp only [step, reduceCtorEq, Option.some.injEq, Prod.mk.injEq] at hs
  case lock l k' =>
    split at hs
    · cases hs
    next hheld =>
      simp only [Option.some.injEq, Prod.mk.injEq] at hs
      obtain ⟨rfl, rfl, rfl⟩ := hs
      simp only [run, if_neg hheld]
  all_goals
    obtain ⟨rfl, rfl, rfl⟩ := hs
    rfl

/-- Code that faults without a trap got there by plain instructions. -/
theorem steps_of_fault {e : E} {d : Cfg L S} (p : Prog L S E α) :
    ∀ {c}, p.run Outcome.halt c = .fault e d → Steps p c (fault e) d := by
  induction p with
  | ret a => intro c h; cases h
  | act f k ih => intro c h; exact .head rfl (ih _ h)
  | lock l k ih =>
      intro c h
      simp only [run] at h
      split at h
      · cases h
      next hheld => exact .head (if_neg hheld) (ih h)
  | unlock l k ih => intro c h; exact .head rfl (ih h)
  | readIf k ih => intro c h; exact .head rfl (ih _ h)
  | cli k ih => intro c h; exact .head rfl (ih h)
  | sti k ih => intro c h; exact .head rfl (ih h)
  | hlt k ih => intro c h; cases h
  | int3 k ih => intro c h; cases h
  | fault e' =>
      intro c h
      obtain ⟨rfl, rfl⟩ := Outcome.fault.inj h
      exact .refl
  | haltLoop => intro c h; cases h

end Prog

/-- The event that whatever is running has come to raise. -/
def Cpu.raised (m : Cpu L S E P) : Option E :=
  match m.frames with
  | [] => m.code.raised
  | f :: _ => f.code.raised

/-- The main flow runs, or a handler that returns to it. -/
def Cpu.Calm (m : Cpu L S E P) : Prop :=
  m.frames = [] ∨ ∃ f, m.frames = [f] ∧ f.kind ≠ .fatal

omit [DecidableEq L] in
theorem Outcome.bind_eq_fault {β : Type} {o : Outcome L S E α}
    {f : α → Cfg L S → Outcome L S E β} {e : E} {d : Cfg L S} (h : o.bind f = fault e d) :
    o = fault e d ∨ ∃ a c, o = done a c ∧ f a c = fault e d := by
  cases o with
  | done a c => exact .inr ⟨a, c, rfl, h⟩
  | fault e' c => cases h; exact .inl rfl
  | spin l c => cases h
  | halt c => cases h

/-- The handlers over the main flow will return. -/
def Cpu.Returns (m : Cpu L S E P) : Prop :=
  ∀ f ∈ m.frames, ∃ d, f.code.run Outcome.halt m.cfg = .done () d

/-- An end that is no deadlock and no sleep, and no event but those `F`
allows. -/
def Outcome.Ends (F : E → Prop) : Outcome L S E α → Prop
  | done _ _ => True
  | fault e _ => F e
  | spin _ _ => False
  | halt _ => False

omit [DecidableEq L] in
theorem ticks_tick (m : Cpu L S E P) : Ticks m (.tick : Label E I) := rfl

omit [DecidableEq L] in
theorem Outcome.Ends.mono {F F' : E → Prop} (hF : ∀ e, F e → F' e) {o : Outcome L S E α}
    (h : o.Ends F) : o.Ends F' := by
  cases o with
  | done a c => trivial
  | fault e c => exact hF e h
  | spin l c => exact h
  | halt c => exact h

/-- Handlers do not nest in the runs of a proof. -/
theorem Proof.Inv.frames_le {sys : System L S E I P} {G : Cpu L S E P → Label E I → Prop}
    {pf : Proof sys G} {m : Cpu L S E P} (h : pf.Inv m) : m.frames.length ≤ 1 := by
  unfold Proof.Inv at h
  split at h
  next hf => rw [hf]; exact Nat.zero_le 1
  next f hf => rw [hf]; exact Nat.le_refl 1
  · exact h.elim

theorem Proof.Inv.calm {sys : System L S E I P} {G : Cpu L S E P → Label E I → Prop}
    {pf : Proof sys G} {m : Cpu L S E P} (h : pf.Inv m) : m.Calm := by
  unfold Proof.Inv at h
  split at h
  next hf => exact .inl hf
  next f hf => exact .inr ⟨f, hf, h.2.1⟩
  · exact h.elim

namespace System

variable (sys : System L S E I P)

/-- What `int3` does to code nothing else interrupts. -/
def trapRun (c : Cfg L S) : Outcome L S E Unit := Prog.runGated Outcome.halt sys.trap c

/-- How the block being run will end, and the handler over it return, if
nothing more is delivered. -/
def ahead (m : Cpu L S E P) : Outcome L S E P :=
  match m.frames with
  | [] => m.code.run sys.trapRun m.cfg
  | f :: _ => (f.code.run Outcome.halt m.cfg).bind fun _ c =>
      m.code.run sys.trapRun (c.iret f.saved)

variable {sys}

theorem ahead_main {m : Cpu L S E P} (hf : m.frames = []) :
    sys.ahead m = m.code.run sys.trapRun m.cfg := by
  simp only [ahead, hf]

theorem ahead_frame {m : Cpu L S E P} {f : Frame L S E} {fs : List (Frame L S E)}
    (hf : m.frames = f :: fs) :
    sys.ahead m = (f.code.run Outcome.halt m.cfg).bind fun _ c =>
      m.code.run sys.trapRun (c.iret f.saved) := by
  simp only [ahead, hf]

/-- Plain code that does not sleep comes to its end. -/
theorem ahead_of_plain {m : Cpu L S E P} (h : m.code.Plain false) (hr : m.Returns) :
    ∃ p d, sys.ahead m = .done p d := by
  have hmain : ∀ c, ∃ p d, m.code.run sys.trapRun c = .done p d := by
    intro c
    have hend : (∃ a d, m.code.run sys.trapRun c = .done a d ∧ _) ∨ _ := h.run
    rcases hend with ⟨p, d, hd, _⟩ | ⟨hs, _⟩
    · exact ⟨p, d, hd⟩
    · cases hs
  cases hf : m.frames with
  | nil => rw [ahead_main hf]; exact hmain m.cfg
  | cons f fs =>
      obtain ⟨d, hd⟩ := hr f (hf ▸ List.mem_cons_self)
      rw [ahead_frame hf, hd]
      exact hmain (d.iret f.saved)

/-- A breakpoint and what follows it, in one reading. -/
theorem trapRun_bind (c : Cfg L S) (k : Cfg L S → Outcome L S E P) :
    (sys.trap.run Outcome.halt c.closeIf).bind (fun _ d => k (d.iret c.ifl)) =
      (sys.trapRun c).bind fun _ d => k d := by
  rw [trapRun, Prog.runGated]
  cases sys.trap.run Outcome.halt c.closeIf <;> rfl

/-- An instruction that is no jump, and puts no handler over a handler, goes
on to the same end; the one that goes to sleep is the end. -/
theorem tick_ahead {m m' : Cpu L S E P} (hn : sys.tick m = some m') (hm : m.frames.length ≤ 1)
    (hm' : m'.frames.length ≤ 1) :
    (∃ p, m.frames = [] ∧ m.code = .ret p ∧ m' = { m with pc := p, code := sys.block p }) ∨
      m'.pc = m.pc ∧ (m'.halted = false → sys.ahead m' = sys.ahead m) := by
  unfold tick at hn
  split at hn
  · cases hn
  · split at hn
    next hf =>
      split at hn
      next p hr =>
        obtain rfl := Option.some.inj hn
        exact .inl ⟨p, hf, Prog.result?_eq_some hr, rfl⟩
      next =>
        obtain ⟨⟨k, c, sig⟩, hs, rfl⟩ := Option.map_eq_some_iff.mp hn
        have hrun : m.code.run sys.trapRun m.cfg = _ := Prog.run_of_step hs
        right
        cases sig with
        | next =>
            refine ⟨rfl, fun _ => ?_⟩
            rw [ahead_main hf, ahead_main (by exact hf), hrun]
            rfl
        | sleep => exact ⟨rfl, fun hh' => by cases hh'⟩
        | trap =>
            refine ⟨rfl, fun _ => ?_⟩
            rw [ahead_main hf, hrun]
            exact trapRun_bind c fun d => k.run sys.trapRun d
    next f fs hf =>
      obtain rfl : fs = [] := by
        cases fs with
        | nil => rfl
        | cons g gs => rw [hf] at hm; simp at hm
      split at hn
      next hr =>
        split at hn
        · cases hn
        · obtain rfl := Option.some.inj hn
          rw [ahead_frame hf, Prog.result?_eq_some hr]
          exact .inr ⟨rfl, fun _ => rfl⟩
      next =>
        obtain ⟨⟨k, c, sig⟩, hs, rfl⟩ := Option.map_eq_some_iff.mp hn
        have hrun : f.code.run Outcome.halt m.cfg = _ := Prog.run_of_step hs
        right
        cases sig with
        | next =>
            refine ⟨rfl, fun _ => ?_⟩
            rw [ahead_frame hf, hrun]
            rfl
        | sleep => exact ⟨rfl, fun hh' => by cases hh'⟩
        | trap => simp [signal, Cpu.enter] at hm'

/-- Plain code stays plain until its block is left. -/
theorem tick_plain {m m' : Cpu L S E P} {sleeps : Bool} (h : m.code.Plain sleeps)
    (hn : sys.tick m = some m') :
    (∃ p, m.frames = [] ∧ m.code = .ret p ∧ m' = { m with pc := p, code := sys.block p }) ∨
      m'.code.Plain sleeps ∧ m'.pc = m.pc := by
  have hsignal : ∀ (m₁ : Cpu L S E P) (sig : Signal),
      (sys.signal m₁ sig).code = m₁.code ∧ (sys.signal m₁ sig).pc = m₁.pc := by
    intro m₁ sig
    cases sig <;> exact ⟨rfl, rfl⟩
  unfold tick at hn
  split at hn
  · cases hn
  · split at hn
    next hf =>
      split at hn
      next p hr =>
        obtain rfl := Option.some.inj hn
        exact .inl ⟨p, hf, Prog.result?_eq_some hr, rfl⟩
      next =>
        obtain ⟨⟨k, c, sig⟩, hs, rfl⟩ := Option.map_eq_some_iff.mp hn
        obtain ⟨hcode, hpc⟩ := hsignal { m with code := k, cfg := c } sig
        exact .inr ⟨hcode.symm ▸ h.step hs, hpc⟩
    next f fs hf =>
      right
      split at hn
      next =>
        split at hn
        · cases hn
        · obtain rfl := Option.some.inj hn
          exact ⟨h, rfl⟩
      next =>
        obtain ⟨⟨k, c, sig⟩, hs, rfl⟩ := Option.map_eq_some_iff.mp hn
        obtain ⟨hcode, hpc⟩ := hsignal
          { m with frames := { f with code := k } :: fs, cfg := c } sig
        exact ⟨hcode.symm ▸ h, hpc⟩

/-- Over plain code, a handler that will return still will after an
instruction of it, and nothing else puts a handler there. -/
theorem tick_returns {m m' : Cpu L S E P} {sleeps : Bool} (h : m.code.Plain sleeps)
    (hr : m.Returns) (hm : m.frames.length ≤ 1) (hn : sys.tick m = some m') : m'.Returns := by
  unfold tick at hn
  split at hn
  · cases hn
  · split at hn
    next hf =>
      have hnone : ∀ {m₁ : Cpu L S E P}, m₁.frames = m.frames → m₁.Returns := by
        intro m₁ hm₁ f hmem
        rw [hm₁, hf] at hmem
        cases hmem
      split at hn
      · obtain rfl := Option.some.inj hn
        exact hnone rfl
      · obtain ⟨⟨k, c, sig⟩, hs, rfl⟩ := Option.map_eq_some_iff.mp hn
        cases sig with
        | next => exact hnone rfl
        | sleep => exact hnone rfl
        | trap => exact absurd hs (h.step_ne_trap k c)
    next f fs hf =>
      obtain rfl : fs = [] := by
        cases fs with
        | nil => rfl
        | cons g gs => rw [hf] at hm; simp at hm
      obtain ⟨d, hd⟩ := hr f (hf ▸ List.mem_singleton_self f)
      split at hn
      · split at hn
        · cases hn
        · obtain rfl := Option.some.inj hn
          intro g hg
          cases hg
      · obtain ⟨⟨k, c, sig⟩, hs, rfl⟩ := Option.map_eq_some_iff.mp hn
        have hrun : f.code.run Outcome.halt m.cfg = _ := Prog.run_of_step hs
        cases sig with
        | next =>
            intro g hg
            obtain rfl := List.mem_singleton.mp hg
            exact ⟨d, hrun.symm.trans hd⟩
        | sleep => rw [hrun] at hd; cases hd
        | trap => rw [hrun] at hd; cases hd

/-! ## Getting there -/

section Reaches

variable {G : Cpu L S E P → Label E I → Prop} (hG : ∀ m, G m .tick)

include hG

/-- A handler that returns, and what it interrupted goes on. -/
theorem reaches_return {m : Cpu L S E P} {f : Frame L S E} {fs : List (Frame L S E)}
    {d : Cfg L S} (hf : m.frames = f :: fs) (hk : f.kind ≠ .fatal) (hh : m.halted = false)
    (hrun : f.code.run Outcome.halt m.cfg = .done () d) :
    ∃ ls, Run sys.step G m ls { m with frames := fs, cfg := d.iret f.saved } := by
  obtain ⟨ls, hls⟩ := sys.run_frame hG (Prog.steps_of_run _ hrun) hf hh rfl rfl
  refine ⟨_, hls.snoc (hG _) ?_⟩
  simp only [step, tick, hh, Bool.false_eq_true, if_false, Prog.result?, if_neg hk]

/-- A handler that faults. -/
theorem reaches_frame_fault {m : Cpu L S E P} {f : Frame L S E} {fs : List (Frame L S E)}
    {e : E} {d : Cfg L S} (hf : m.frames = f :: fs) (hh : m.halted = false)
    (hrun : f.code.run Outcome.halt m.cfg = .fault e d) :
    ∃ ls m', Run sys.step G m ls m' ∧ m'.raised = some e ∧ m'.cfg = d ∧ m'.pc = m.pc := by
  obtain ⟨ls, hls⟩ := sys.run_frame hG (Prog.steps_of_fault _ hrun) hf hh rfl rfl
  exact ⟨ls, _, hls, rfl, rfl, rfl⟩

/-- An instruction of the main flow in front of a run. -/
theorem run_next {m m' : Cpu L S E P} {k : Prog L S E P} {c : Cfg L S}
    {ls : List (Label E I)} (hf : m.frames = []) (hh : m.halted = false)
    (hs : m.code.step m.cfg = some (k, c, .next))
    (hrun : Run sys.step G { m with code := k, cfg := c } ls m') :
    Run sys.step G m (.tick :: ls) m' := by
  have htick : sys.step m (.tick : Label E I) = some { m with code := k, cfg := c } := by
    simp only [step, tick, hh, hf, Bool.false_eq_true, if_false, Prog.result?_of_step hs, hs,
      Option.map_some, signal]
  exact (Run.one (hG m) htick).trans hrun

/-- A breakpoint whose handler returns. -/
theorem reaches_after_int3 {c d : Cfg L S} {pc : P} {k : Prog L S E P}
    (htrap : sys.trapRun c.next = .done () d) :
    ∃ ls, Run sys.step G ⟨c, false, pc, .int3 k, []⟩ ls ⟨d, false, pc, k, []⟩ := by
  obtain ⟨a, c', hrun, hd⟩ := Outcome.bind_eq_done htrap
  obtain ⟨_, rfl⟩ := Outcome.done.inj hd
  obtain ⟨ls, hls⟩ : ∃ ls, Run sys.step G
      ⟨c.next.closeIf, false, pc, k, [⟨.trap, c.ifl, sys.trap⟩]⟩ ls
      ⟨c'.iret c.ifl, false, pc, k, []⟩ :=
    reaches_return hG (f := ⟨.trap, c.ifl, sys.trap⟩) rfl (by simp) rfl hrun
  exact ⟨_, (Run.one (hG _) rfl).trans hls⟩

/-- A breakpoint whose handler faults. -/
theorem reaches_fault_in_int3 {c d : Cfg L S} {pc : P} {k : Prog L S E P} {e : E}
    (htrap : sys.trapRun c.next = .fault e d) :
    ∃ ls m', Run sys.step G ⟨c, false, pc, .int3 k, []⟩ ls m' ∧ m'.raised = some e ∧
      m'.cfg = d ∧ m'.pc = pc := by
  rcases Outcome.bind_eq_fault htrap with hrun | ⟨_, _, _, hd⟩
  · obtain ⟨ls, m', hls, hm'⟩ : ∃ ls m', Run sys.step G
        ⟨c.next.closeIf, false, pc, k, [⟨.trap, c.ifl, sys.trap⟩]⟩ ls m' ∧ m'.raised = some e ∧
        m'.cfg = d ∧ m'.pc = pc :=
      reaches_frame_fault hG rfl rfl hrun
    exact ⟨_, m', (Run.one (hG _) rfl).trans hls, hm'⟩
  · cases hd

omit hG in
/-- Where a block whose uninterrupted reading is known ends up: at its end,
or at the event it raises. -/
def Reached (m : Cpu L S E P) : Outcome L S E P → Cpu L S E P → Prop
  | .done a d, m' => m' = { m with code := .ret a, cfg := d }
  | .fault e d, m' => m'.raised = some e ∧ m'.cfg = d ∧ m'.pc = m.pc
  | .spin _ _, _ => True
  | .halt _, _ => True

theorem reaches_main (p : Prog L S E P) :
    ∀ {m : Cpu L S E P}, m.frames = [] → m.halted = false → m.code = p →
      ∃ ls m', Run sys.step G m ls m' ∧ Reached m (p.run sys.trapRun m.cfg) m' := by
  -- One plain instruction in front of what follows it.
  have next : ∀ {m : Cpu L S E P} {k : Prog L S E P} {c : Cfg L S} {o : Outcome L S E P},
      m.frames = [] → m.halted = false → m.code.step m.cfg = some (k, c, .next) →
      (∃ ls m', Run sys.step G { m with code := k, cfg := c } ls m' ∧
        Reached { m with code := k, cfg := c } o m') →
      ∃ ls m', Run sys.step G m ls m' ∧ Reached m o m' := by
    intro m k c o hf hh hs ⟨ls, m', hrun, hend⟩
    refine ⟨_, m', run_next hG hf hh hs hrun, ?_⟩
    cases o <;> exact hend
  induction p with
  | ret a =>
      intro m _ _ hcode
      obtain ⟨cfg, halted, pc, code, frames⟩ := m
      obtain rfl : code = .ret a := hcode
      exact ⟨[], _, .nil, rfl⟩
  | act f k ih =>
      intro m hf hh hcode
      exact next hf hh (by rw [hcode]; rfl)
        (ih m.cfg.data (m := { m with code := k m.cfg.data, cfg := m.cfg.update f }) hf hh rfl)
  | lock l k ih =>
      intro m hf hh hcode
      by_cases hheld : m.cfg.held l = true
      · exact ⟨[], m, .nil, by simp only [Prog.run, if_pos hheld]; trivial⟩
      · simp only [Prog.run, if_neg hheld]
        exact next hf hh (by rw [hcode]; exact if_neg hheld)
          (ih (m := { m with code := k, cfg := m.cfg.acquire l }) hf hh rfl)
  | unlock l k ih =>
      intro m hf hh hcode
      exact next hf hh (by rw [hcode]; rfl)
        (ih (m := { m with code := k, cfg := m.cfg.release l }) hf hh rfl)
  | readIf k ih =>
      intro m hf hh hcode
      exact next hf hh (by rw [hcode]; rfl)
        (ih m.cfg.ifl (m := { m with code := k m.cfg.ifl, cfg := m.cfg.next }) hf hh rfl)
  | cli k ih =>
      intro m hf hh hcode
      exact next hf hh (by rw [hcode]; rfl)
        (ih (m := { m with code := k, cfg := m.cfg.closeIf }) hf hh rfl)
  | sti k ih =>
      intro m hf hh hcode
      exact next hf hh (by rw [hcode]; rfl)
        (ih (m := { m with code := k, cfg := m.cfg.openIf }) hf hh rfl)
  | hlt k ih => intro m _ _ _; exact ⟨[], m, .nil, trivial⟩
  | int3 k ih =>
      intro m hf hh hcode
      obtain ⟨c, halted, pc, code, frames⟩ := m
      obtain rfl : code = .int3 k := hcode
      obtain rfl : frames = [] := hf
      obtain rfl : halted = false := hh
      simp only [Prog.run]
      cases htrap : sys.trapRun c.next with
      | done a d =>
          obtain ⟨ls, hret⟩ := reaches_after_int3 hG (k := k) htrap
          obtain ⟨ls', m', hrun, hend⟩ := ih (m := ⟨d, false, pc, k, []⟩) rfl rfl rfl
          refine ⟨_, m', hret.trans hrun, ?_⟩
          simp only [Outcome.bind]
          cases hout : k.run sys.trapRun d <;> rw [hout] at hend <;> exact hend
      | fault e d => exact reaches_fault_in_int3 hG htrap
      | spin l d => exact ⟨[], _, .nil, trivial⟩
      | halt d => exact ⟨[], _, .nil, trivial⟩
  | fault e =>
      intro m hf _ hcode
      exact ⟨[], m, .nil, by simp only [Cpu.raised, hf, hcode, Prog.raised], rfl, rfl⟩
  | haltLoop => intro m _ _ _; exact ⟨[], m, .nil, trivial⟩

/-- The block a jump is about to enter. -/
theorem reaches_jump {m : Cpu L S E P} {p : P} (hf : m.frames = []) (hh : m.halted = false)
    (hcode : m.code = .ret p) :
    ∃ ls m', Run sys.step G m ls m' ∧
      Reached { m with pc := p } ((sys.block p).run sys.trapRun m.cfg) m' := by
  have hjump : sys.step m (.tick : Label E I) = some { m with pc := p, code := sys.block p } := by
    simp only [step, tick, hh, hf, hcode, Prog.result?, Bool.false_eq_true, if_false]
  obtain ⟨ls, m', hrun, hend⟩ := reaches_main hG (sys.block p)
    (m := { m with pc := p, code := sys.block p }) hf hh rfl
  refine ⟨_, m', (Run.one (hG m) hjump).trans hrun, ?_⟩
  cases hout : (sys.block p).run sys.trapRun m.cfg <;> rw [hout] at hend <;> exact hend

/-- What lies ahead is reached. -/
theorem reaches {m : Cpu L S E P} (hm : m.Calm) (hh : m.halted = false) :
    ∃ ls m', Run sys.step G m ls m' ∧ Reached { m with frames := [] } (sys.ahead m) m' := by
  rcases hm with hf | ⟨f, hf, hk⟩
  · obtain ⟨ls, m', hrun, hend⟩ := reaches_main hG m.code hf hh rfl
    rw [ahead_main hf]
    refine ⟨ls, m', hrun, ?_⟩
    cases hout : m.code.run sys.trapRun m.cfg with
    | done a d => rw [hout] at hend; rw [hend, Reached, hf]
    | fault e d => rw [hout] at hend; exact hend
    | spin l d => trivial
    | halt d => trivial
  · rw [ahead_frame hf]
    cases hrun : f.code.run Outcome.halt m.cfg with
    | done a d =>
        obtain ⟨ls, hret⟩ := reaches_return hG hf hk hh hrun
        obtain ⟨ls', m', hmain, hend⟩ := reaches_main hG m.code
          (m := { m with frames := [], cfg := d.iret f.saved }) rfl hh rfl
        refine ⟨_, m', hret.trans hmain, ?_⟩
        simp only [Outcome.bind]
        cases hout : m.code.run sys.trapRun (d.iret f.saved) <;> rw [hout] at hend <;> exact hend
    | fault e d => exact reaches_frame_fault hG hf hh hrun
    | spin l d => exact ⟨[], m, .nil, trivial⟩
    | halt d => exact ⟨[], m, .nil, trivial⟩

end Reaches

end System

end ProtoOs.Lib
