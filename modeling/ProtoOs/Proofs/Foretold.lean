import ProtoOs.Lib.Ahead
import ProtoOs.Proofs.Answers

/-!
# Every end is foretold

Under interrupts the main flow can stand at any instruction, and still what
it is about to do is settled: what lies ahead of a block does not change
while the block runs. So the way a turn of the drain will end can be read
off the ideal machine before its first instruction and at every one after
it (`Foretold`), and an event that is raised is the one the ideal machine
raises.
-/

namespace ProtoOs.Ref

open ProtoOs.Lib ProtoOs.Lib.Prog

variable {H : Type} (pf : Platform H)

/-- Boot panics where `memory::init` does. -/
def BootPanics (mem : Paging.Mem) (e : Fatal) : Prop :=
  memoryInit pf.memoryMap pf.root mem = none ∧ e = memoryInitPanic pf mem

/-- A turn of the drain raises what the ideal machine raises. -/
def TurnRaises (mem : Paging.Mem) (heap : H) (stream : List UInt8) (lossless : Bool)
    (e : Fatal) : Prop :=
  ∃ delivered, (lossless = true → delivered <+: stream) ∧
    Ideal.Foresees pf mem heap delivered e

/-- What lies ahead of the block being run. The head of the loop and the way
out of it do nothing but mind the flag, under handlers that return; boot and
the drain come to their end or to an event that can be told in advance. -/
def Foretold (mem : Paging.Mem) (heap : H) (stream : List UInt8) (lossless : Bool)
    (m : Machine H) : Prop :=
  match m.pc with
  | .boot => ((system pf).ahead m).Ends (BootPanics pf mem)
  | .drain _ => ((system pf).ahead m).Ends (TurnRaises pf mem heap stream lossless)
  | .head => m.code.Plain false ∧ m.Returns
  | .leave _ => m.code.Plain true ∧ m.Returns

section Foretold

variable {buffer : Buffer} {crtc : Crtc} {heap : H} {mem : Paging.Mem} {stream : List UInt8}
  {lossless : Bool} {G : Machine H → Label Fatal Unit → Prop} {m m' : Machine H}

/-- Boot comes to the loop or to a panic of `memory::init`. -/
theorem boot_run {c : Cfg LockId (Kernel H)}
    (hc : c = entryCfg (Kernel.start buffer crtc heap mem stream)) :
    (∃ d, (block pf .boot).run (trapRun pf) c = .done .head d ∧ d.data.port = c.data.port) ∨
      ∃ e d, (block pf .boot).run (trapRun pf) c = .fault e d ∧ BootPanics pf mem e := by
  subst hc
  cases hmi : memoryInit pf.memoryMap pf.root mem with
  | none =>
      have hboot : (boot pf).Faults (trapRun pf) (Kernel.start buffer crtc heap mem stream)
          noLock false (memoryInitPanic pf mem) := boot_faults pf hmi
      have hblock : (block pf .boot).Faults (trapRun pf) _ noLock false _ := hboot.bind_left _
      obtain ⟨d, hrun⟩ := hblock.run_eq (c := entryCfg _) rfl rfl rfl
      exact .inr ⟨_, d, hrun, hmi, rfl⟩
  | some mi =>
      obtain ⟨g, hboot, _⟩ : ∃ g, (boot pf).Yields (trapRun pf)
          (Kernel.start buffer crtc heap mem stream) noLock false () ⟨g, _, _, _, _⟩ ∧
          g.Renders _ :=
        boot_renders pf hmi
      have hblock : (block pf .boot).Yields (trapRun pf) _ noLock false .head _ :=
        Yields.bind hboot Yields.ret
      obtain ⟨d, hrun, hdata, _⟩ := hblock.run_eq (c := entryCfg _) rfl rfl rfl
      exact .inl ⟨d, hrun, by rw [hdata]; rfl⟩

/-- A block entered where its precondition holds. -/
theorem foretold_entry {p : Pc} (hpc : m.pc = p) (hcode : m.code = block pf p)
    (hf : m.frames = []) (h : loopEntry (Kernel.start buffer crtc heap mem stream)
      (Answered pf mem heap stream lossless) p m.cfg) :
    Foretold pf mem heap stream lossless m := by
  have hahead : (system pf).ahead m = (block pf p).run (trapRun pf) m.cfg := by
    rw [System.ahead_main hf, hcode]
    rfl
  have hreturns : m.Returns := by
    intro f hmem
    rw [hf] at hmem
    cases hmem
  unfold Foretold
  rw [hpc, hahead, hcode]
  cases p with
  | boot =>
      rcases boot_run pf h with ⟨d, hd, _⟩ | ⟨e, d, hd, he⟩
      · rw [hd]; trivial
      · rw [hd]; exact he
  | head => exact ⟨fun b => by cases b <;> trivial, hreturns⟩
  | drain enabled =>
      obtain ⟨hifl, hfree, hJ⟩ := h
      rcases drain_run pf enabled hJ hfree hifl with
        ⟨d, hd, _⟩ | ⟨d, hd, _⟩ | ⟨e, d, delivered, hd, hsplit, he⟩
      · rw [hd]; trivial
      · rw [hd]; trivial
      · rw [hd]
        exact ⟨delivered, fun hl => ⟨m.cfg.data.port, (hsplit hl).symm⟩, he⟩
  | leave enabled =>
      refine ⟨?_, hreturns⟩
      cases enabled with
      | false => exact ⟨rfl, trivial⟩
      | true => exact ⟨rfl, trivial⟩

end Foretold

section Runs

variable {buffer : Buffer} {crtc : Crtc} {heap : H} {mem : Paging.Mem} {stream : List UInt8}
  {lossless : Bool} {G : Machine H → Label Fatal Unit → Prop} {m m' : Machine H}
  {inv : LoopInv pf false (Kernel.start buffer crtc heap mem stream)
    (Answered pf mem heap stream lossless) G}

/-- An open flag is the main flow's, at the head of the loop or on the way
out. -/
theorem loop_open (hm : (loopProof pf inv).Inv m) (hifl : m.cfg.ifl = true) :
    m.frames = [] ∧ (m.pc = .head ∨ ∃ enabled, m.pc = .leave enabled) ∧ Free m.cfg ∧
      Answered pf mem heap stream lossless m.cfg.data := by
  rcases hm.calm with hf | ⟨f, hf, _⟩
  · refine ⟨hf, ?_⟩
    cases hh : m.halted with
    | false => exact loopFlow_open pf (wp_point ((Proof.inv_main hf hh).mp hm)) hifl
    | true =>
        obtain ⟨hpc, hfree, hJ, _⟩ := loopFlow_rest pf ((Proof.inv_halted hf hh).mp hm).1
        exact ⟨.inr hpc, hfree, hJ⟩
  · have hclosed : m.cfg.ifl = false := wp_point ((Proof.inv_frame hf).mp hm).2.2
    exact absurd (hifl.symm.trans hclosed) (by decide)

theorem loop_asleep (hm : (loopProof pf inv).Inv m) (hh : m.halted = true) :
    m.frames = [] ∧ ∃ enabled, m.pc = .leave enabled := by
  rcases hm.calm with hf | ⟨f, hf, _⟩
  · exact ⟨hf, (loopFlow_rest pf ((Proof.inv_halted hf hh).mp hm).1).1⟩
  · rw [((Proof.inv_frame hf).mp hm).1] at hh
    cases hh

theorem Foretold.irq (hm : (loopProof pf inv).Inv m)
    (h : Foretold pf mem heap stream lossless m) (hifl : m.cfg.ifl = true) :
    Foretold pf mem heap stream lossless (m.enter .irq true keyboardInterruptHandler) := by
  obtain ⟨hf, hpc, hfree, hv, _⟩ := loop_open pf hm hifl
  have hreturns : (m.enter .irq true keyboardInterruptHandler).Returns := by
    intro f hmem
    simp only [Cpu.enter, hf, List.mem_singleton] at hmem
    subst hmem
    obtain ⟨q, hq, _⟩ := ScancodeQueue.push_spec hv (m.cfg.data.port.headD 0)
    obtain ⟨d, hrun, _⟩ := (keyboardInterruptHandler_yields (b := false) hq).run_eq
      (c := m.cfg.closeIf) rfl hfree rfl
    exact ⟨d, hrun⟩
  rcases hpc with hpc | ⟨enabled, hpc⟩
  · simp only [Foretold, Cpu.enter, hpc] at h ⊢
    exact ⟨h.1, hreturns⟩
  · simp only [Foretold, Cpu.enter, hpc] at h ⊢
    exact ⟨h.1, hreturns⟩

theorem Foretold.tick (hm : (loopProof pf inv).Inv m) (hm' : (loopProof pf inv).Inv m')
    (h : Foretold pf mem heap stream lossless m) (hn : (system pf).tick m = some m') :
    Foretold pf mem heap stream lossless m' := by
  -- A jump goes where the precondition of the next block holds.
  have jump : ∀ {p}, m.frames = [] → m.code = .ret p →
      Foretold pf mem heap stream lossless { m with pc := p, code := block pf p } := by
    intro p hf hcode
    have hh : m.halted = false := by
      cases hh : m.halted with
      | false => rfl
      | true => simp [System.tick, hh] at hn
    have hwp := (Proof.inv_main hf hh).mp hm
    rw [hcode] at hwp
    exact foretold_entry pf rfl rfl hf hwp.2
  -- Boot and the drain do not sleep, so an instruction leaves what is ahead.
  have closed : (∀ enabled, m.pc ≠ .leave enabled) → (∃ p, m.frames = [] ∧ m.code = .ret p ∧
        m' = { m with pc := p, code := block pf p }) ∨
      m'.pc = m.pc ∧ (system pf).ahead m' = (system pf).ahead m := by
    intro hpc
    rcases System.tick_ahead hn hm.frames_le hm'.frames_le with hjump | ⟨hpc', hahead⟩
    · exact .inl hjump
    · refine .inr ⟨hpc', hahead ?_⟩
      cases hh : m'.halted with
      | false => rfl
      | true =>
          obtain ⟨_, enabled, hleave⟩ := loop_asleep pf hm' hh
          exact absurd (hpc'.symm.trans hleave) (hpc enabled)
  have plain : ∀ {sleeps}, m.code.Plain sleeps → m.Returns → (∃ p, m.frames = [] ∧
        m.code = .ret p ∧ m' = { m with pc := p, code := block pf p }) ∨
      m'.pc = m.pc ∧ m'.code.Plain sleeps ∧ m'.Returns := by
    intro sleeps hplain hreturns
    rcases System.tick_plain hplain hn with hjump | ⟨hplain', hpc'⟩
    · exact .inl hjump
    · exact .inr ⟨hpc', hplain', System.tick_returns hplain hreturns hm.frames_le hn⟩
  unfold Foretold at h
  split at h
  next hpc =>
    rcases closed (by simp [hpc]) with ⟨p, hf, hcode, rfl⟩ | ⟨hpc', hahead⟩
    · exact jump hf hcode
    · rw [hpc] at hpc'
      simp only [Foretold, hpc', hahead]
      exact h
  next enabled hpc =>
    rcases closed (by simp [hpc]) with ⟨p, hf, hcode, rfl⟩ | ⟨hpc', hahead⟩
    · exact jump hf hcode
    · rw [hpc] at hpc'
      simp only [Foretold, hpc', hahead]
      exact h
  next hpc =>
    rcases plain h.1 h.2 with ⟨p, hf, hcode, rfl⟩ | ⟨hpc', hrest⟩
    · exact jump hf hcode
    · rw [hpc] at hpc'
      simp only [Foretold, hpc']
      exact hrest
  next enabled hpc =>
    rcases plain h.1 h.2 with ⟨p, hf, hcode, rfl⟩ | ⟨hpc', hrest⟩
    · exact jump hf hcode
    · rw [hpc] at hpc'
      simp only [Foretold, hpc']
      exact hrest

theorem Foretold.step {l : Label Fatal Unit} (hm : (loopProof pf inv).Inv m)
    (h : Foretold pf mem heap stream lossless m) (hG : G m l)
    (hn : (system pf).step m l = some m') : Foretold pf mem heap stream lossless m' := by
  have hm' := hm.step hG hn
  rcases System.step_cases hn with ⟨rfl, ht⟩ | ⟨i, rfl, hifl, _, rfl⟩ | ⟨e, rfl, _⟩
  · exact h.tick pf hm hm' ht
  · exact h.irq pf hm hifl
  · exact absurd hG inv.no_fatal

theorem loop_foretold (inv : LoopInv pf false (Kernel.start buffer crtc heap mem stream)
      (Answered pf mem heap stream lossless) G) {ls : List (Label Fatal Unit)}
    (hrun : Run (system pf).step G
      (Machine.start pf (Kernel.start buffer crtc heap mem stream)) ls m) :
    Foretold pf mem heap stream lossless m := by
  induction hrun with
  | nil =>
      generalize hm₀ : Machine.start pf (Kernel.start buffer crtc heap mem stream) = m₀
      have hentry : loopEntry (Kernel.start buffer crtc heap mem stream)
          (Answered pf mem heap stream lossless) .boot m₀.cfg := by rw [← hm₀]; rfl
      exact foretold_entry pf (by rw [← hm₀]; rfl) (by rw [← hm₀]; rfl) (by rw [← hm₀]; rfl) hentry
  | snoc hrun hG hn ih => exact ih.step pf (loop_inv pf inv hrun) hG hn

end Runs

end ProtoOs.Ref
