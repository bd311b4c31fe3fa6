import ProtoOs.Proofs.Serving

/-!
# Batching does not matter

Interrupts cut the stream of scancodes into batches; the drain puts them
together again. As long as no push finds the queue full, what has been
delivered is what has been processed followed by what is pending, and the
globals are what processing the first part one scancode at a time, with no
interrupts at all, leaves. That is an invariant of the loop, and where the
queue is empty it says that the batches cannot be told apart.

The reference run is the same code under `Prog.run`: boot, then `process`
once per scancode.
-/

namespace ProtoOs.Ref

open ProtoOs.Lib ProtoOs.Lib.Prog

variable {H : Type} (pf : Platform H)

/-- The kernel with nothing in the way: boot, then the stream translated and
fed one scancode at a time. -/
def oneAtATime (stream : List UInt8) : KernelCode H Unit :=
  stream.foldl (fun before scancode => do
    before
    onGlobals (process pf scancode)) (boot pf)

/-! ## The invariant of the loop -/

/-- What has been delivered of the stream is what has been processed, one
scancode at a time, and what is pending. -/
def Caught (k₀ k : Kernel H) : Prop :=
  k.queue.Valid ∧ ∃ processed k',
    k₀.port = processed ++ k.queue.contents ++ k.port ∧
    (oneAtATime pf processed).Yields (trapRun pf) k₀ noLock false () k' ∧
    k'.globals = k.globals

/-- The runs without fatal events in which a scancode is ready at each
interrupt and no push finds the queue full. -/
def NoOverflow (m : Machine H) : Label Fatal Unit → Prop
  | .tick => True
  | .irq _ => m.cfg.data.queue.len < scancodeQueueCapacity ∧ m.cfg.data.port ≠ []
  | .fatal _ => False

section Steps

variable {k₀ : Kernel H}

theorem boot_keeps (I : Kernel H → Prop) (hI : ∀ g pics idtLoaded k, I k →
    I { k with globals := g, pics := pics, idtLoaded := idtLoaded }) :
    (boot pf).Keeps (trapRun pf) I := by
  have hglobals : ∀ {α : Type} (p : Code H α), (onGlobals p).Keeps (trapRun pf) I :=
    fun p => Keeps.zoom Kernel.globalsLens (trapRun_within pf)
      (fun g k h => hI g k.pics k.idtLoaded k h) p
  have hpics : ∀ op, (picsOp op).Keeps (trapRun pf) I :=
    fun op => Triple.withLock (Triple.modify fun k h => hI k.globals _ k.idtLoaded k h)
  have hload : (Prog.modify fun k => { k with idtLoaded := true } : KernelCode H Unit).Keeps
      (trapRun pf) I := Triple.modify fun k h => hI k.globals k.pics true k h
  have hinit : (init pf).Keeps (trapRun pf) I :=
    Keeps.bind (hglobals _) fun _ => Keeps.bind (hglobals _) fun _ =>
      Keeps.bind (Keeps.bind hload fun _ => Keeps.bind (hpics _) fun _ => hpics _) fun _ =>
        Keeps.bind (hglobals _) fun _ => Keeps.bind (hglobals _) fun _ =>
          Keeps.bind (hglobals _) fun _ => hglobals _
  exact Keeps.bind hinit fun _ => Keeps.bind (hglobals _) fun _ =>
    Keeps.bind (hglobals _) fun _ => Keeps.bind (hglobals _) fun _ => hglobals _

/-- Boot delivers nothing and processes nothing. -/
theorem caught_boot (hq : k₀.queue = ScancodeQueue.new) {c : Cfg LockId (Kernel H)}
    (hrun : (boot pf).run (trapRun pf) (entryCfg k₀) = .done () c) (hfree : Free c)
    (hifl : c.ifl = false) : Caught pf k₀ c.data := by
  obtain ⟨hqueue, hport⟩ : c.data.queue = ScancodeQueue.new ∧ c.data.port = k₀.port :=
    boot_keeps pf (fun k => k.queue = ScancodeQueue.new ∧ k.port = k₀.port)
      (fun _ _ _ _ h => h) (entryCfg k₀) _ _ ⟨hq, rfl⟩ hrun
  refine ⟨by rw [hqueue]; exact ScancodeQueue.new_valid, [], c.data, ?_, ?_, rfl⟩
  · rw [hqueue, hport]; rfl
  · exact Yields.of_run (c := entryCfg k₀) hrun hfree hifl

/-- A turn of the drain moves one scancode from pending to processed. -/
theorem caught_turn {k : Kernel H} {q : ScancodeQueue} {scancode : UInt8}
    {c c' : Cfg LockId (Kernel H)} (hJ : Caught pf k₀ k)
    (hpop : k.queue.pop = some (some scancode, q))
    (hdata : c.data = { k with queue := q }) (hfree : Free c) (hifl : c.ifl = false)
    (hrun : (onGlobals (process pf scancode)).run (trapRun pf) c = .done () c')
    (hfree' : Free c') (hifl' : c'.ifl = false) : Caught pf k₀ c'.data := by
  obtain ⟨hv, processed, k', hsplit, hyields, hglobals⟩ := hJ
  obtain ⟨q', hpop', hv', hc'⟩ := ScancodeQueue.pop_spec hv
  rw [hpop] at hpop'
  obtain ⟨hhead, rfl⟩ := Prod.mk.inj (Option.some.inj hpop')
  obtain ⟨rest, hcons⟩ : ∃ rest, k.queue.contents = scancode :: rest :=
    ⟨_, List.eq_cons_of_mem_head? hhead.symm⟩
  -- Over the globals alone, the turn is a run of `process`.
  rw [onGlobals, run_zoom _ (trapRun_within pf)] at hrun
  obtain ⟨d, hproc, rfl⟩ := Outcome.within_eq_done hrun
  have hturn := Yields.of_run hproc (hfree'.trans hfree.symm) (hifl'.trans hifl.symm)
  have hview : (c.view Kernel.globalsLens).data = k'.globals := by
    rw [hglobals]
    show c.data.globals = k.globals
    rw [hdata]
  rw [hview, show (c.view Kernel.globalsLens).held = noLock from hfree,
    show (c.view Kernel.globalsLens).ifl = false from hifl] at hturn
  have hrest : (d.within Kernel.globalsLens c.data).data =
      { k with queue := q, globals := d.data } := by
    show { c.data with globals := d.data } = _
    rw [hdata]
  rw [hrest]
  refine ⟨hv', processed ++ [scancode], { k' with globals := d.data }, ?_, ?_, rfl⟩
  · rw [hsplit, hcons]
    simp only [hc', hcons, List.tail_cons]
    simp
  · rw [oneAtATime, List.foldl_append]
    exact Yields.bind hyields (onGlobals_yields (trapRun_within pf) hturn)

/-- An interrupt with room in the queue moves one scancode from the keyboard
to pending. -/
theorem caught_irq {m : Machine H} {c' : Cfg LockId (Kernel H)}
    (hroom : m.cfg.data.queue.len < scancodeQueueCapacity) (hport : m.cfg.data.port ≠ [])
    (hfree : Free m.cfg) (hJ : Caught pf k₀ m.cfg.data)
    (hrun : keyboardInterruptHandler.run Outcome.halt m.cfg.closeIf = .done () c') :
    Caught pf k₀ c'.data := by
  obtain ⟨hv, processed, k', hsplit, hyields, hglobals⟩ := hJ
  obtain ⟨scancode, rest, hcons⟩ := List.exists_cons_of_ne_nil hport
  obtain ⟨q, hq, hv', hc'⟩ := ScancodeQueue.push_of_room hv hroom scancode
  have hy : keyboardInterruptHandler.Yields Outcome.halt m.cfg.data noLock false () _ :=
    keyboardInterruptHandler_yields (q := q) (by rw [hcons]; exact hq)
  obtain ⟨_, hdata, _⟩ := hy.eq_of_run (c := m.cfg.closeIf) rfl hfree rfl hrun
  rw [hdata]
  refine ⟨hv', processed, k', ?_, hyields, hglobals⟩
  rw [hsplit, hcons]
  simp only [hc', List.tail_cons]
  simp

end Steps

/-- The invariant is one of the loop. -/
theorem caught_loopInv {k₀ : Kernel H} (hq : k₀.queue = ScancodeQueue.new) :
    LoopInv pf false k₀ (Caught pf k₀) NoOverflow where
  boot := caught_boot pf hq
  turn := caught_turn pf
  irq hG := caught_irq pf hG.1 hG.2
  quiet_ok _ h := absurd h (by decide)
  no_fatal h := h

/-! ## Drained states -/

/-- The main flow is outside boot and the drain, and nothing is pending. -/
def Drained (m : Machine H) : Prop :=
  m.frames = [] ∧ (m.pc = .head ∨ ∃ enabled, m.pc = .leave enabled) ∧
    m.cfg.data.queue.contents = []

section Runs

variable {buffer : Buffer} {crtc : Crtc} {heap : H} {mem : Paging.Mem}
  {stream : List UInt8} {ls : List (Label Fatal Unit)} {m : Machine H}

theorem drained_caught
    (hrun : Run (system pf).step NoOverflow
      (Machine.start pf (Kernel.start buffer crtc heap mem stream)) ls m)
    (hd : Drained m) :
    ∃ delivered k', stream = delivered ++ m.cfg.data.port ∧
      (oneAtATime pf delivered).Yields (trapRun pf)
        (Kernel.start buffer crtc heap mem stream) noLock false () k' ∧
      m.cfg.data.globals = k'.globals := by
  have hinv := loop_inv pf (caught_loopInv pf rfl) hrun
  obtain ⟨hf, hpc, hempty⟩ := hd
  have hJ : Caught pf (Kernel.start buffer crtc heap mem stream) m.cfg.data := by
    cases hh : m.halted with
    | false =>
        have hpoint := wp_point ((Proof.inv_main hf hh).mp hinv)
        rcases hpc with hpc | ⟨enabled, hpc⟩
        · rw [hpc] at hpoint; exact hpoint.2
        · rw [hpc] at hpoint; exact hpoint.2
    | true =>
        have hrest := ((Proof.inv_halted hf hh).mp hinv).1
        exact (loopFlow_rest pf hrest).2.2.1
  obtain ⟨_, processed, k', hsplit, hyields, hglobals⟩ := hJ
  refine ⟨processed, k', ?_, hyields, hglobals.symm⟩
  rw [hempty, List.append_nil] at hsplit
  exact hsplit

/-- Once the queue is drained, the globals (the bytes passed to `feed`, the
lines passed to `execute`, `SHIFT`, `LINE` and the screen among them) are
those of translating and feeding what was delivered one scancode at a time;
and any other interleaving of the same deliveries ends in the same state. -/
theorem batching_does_not_matter
    (hrun : Run (system pf).step NoOverflow
      (Machine.start pf (Kernel.start buffer crtc heap mem stream)) ls m)
    (hd : Drained m) :
    (∃ delivered k', stream = delivered ++ m.cfg.data.port ∧
      (oneAtATime pf delivered).Yields (trapRun pf)
        (Kernel.start buffer crtc heap mem stream) noLock false () k' ∧
      m.cfg.data.globals = k'.globals) ∧
    ∀ ls' m', Run (system pf).step NoOverflow
        (Machine.start pf (Kernel.start buffer crtc heap mem stream)) ls' m' →
      Drained m' → m'.cfg.data.port = m.cfg.data.port →
      m'.cfg.data.globals = m.cfg.data.globals := by
  refine ⟨drained_caught pf hrun hd, fun ls' m' hrun' hd' hport => ?_⟩
  obtain ⟨delivered, k, hsplit, hyields, hglobals⟩ := drained_caught pf hrun hd
  obtain ⟨delivered', k', hsplit', hyields', hglobals'⟩ := drained_caught pf hrun' hd'
  have hsame : delivered' = delivered := by
    rw [hport, hsplit] at hsplit'
    exact (List.append_cancel_right hsplit').symm
  subst hsame
  rw [hglobals, hglobals', (hyields.unique hyields').2]

end Runs

theorem noOverflow_serves : Admits (NoOverflow : Machine H → Label Fatal Unit → Prop) where
  tick _ := trivial
  irq hroom hport := ⟨hroom, hport⟩

/-- `O` with Shift, `i` and Enter, as they come from the keyboard. -/
def typedOi : List UInt8 := [0x2A, 0x18, 0xAA, 0x17, 0x1C]

theorem Kernel.Served.drained {k : Kernel H} {rest : List UInt8} {i : Ideal H} {enabled : Bool}
    (hk : k.Served rest i) : Drained (asleep k enabled) := ⟨rfl, .inr ⟨_, rfl⟩, hk.empty⟩

theorem typedOi_presses :
    ∃ i₀ i, Ideal.presses smallPlatform [0x2A, 0x18, 0xAA, 0x17] smallIdeal = .ok ((), i₀) ∧
      Ideal.presses smallPlatform [0x1C] i₀ = .ok ((), i) ∧
      Ideal.presses smallPlatform typedOi smallIdeal = .ok ((), i) ∧
      i₀.ran = [] ∧ i.ran = [bytes "Oi"] := by
  obtain ⟨i₀, hi₀, hran₀⟩ : ∃ i, Ideal.presses smallPlatform [0x2A, 0x18, 0xAA, 0x17]
      smallIdeal = .ok ((), i) ∧ i.ran = [] := presses_ok _ Ideal.ran (by decide +kernel)
  obtain ⟨i, hi, hran⟩ : ∃ i, Ideal.presses smallPlatform typedOi smallIdeal = .ok ((), i) ∧
      i.ran = [bytes "Oi"] := presses_ok _ Ideal.ran (by decide +kernel)
  refine ⟨i₀, i, hi₀, ?_, hi, hran₀, hran⟩
  rw [show typedOi = [0x2A, 0x18, 0xAA, 0x17] ++ [0x1C] from rfl, Ideal.presses_append,
    bind_ok hi₀] at hi
  exact hi

/-- Each scancode in a sleep of its own. -/
theorem typedOi_one_by_one :
    ∃ ls₀ m₀ ls m, Run (system smallPlatform).step NoOverflow (smallStart typedOi) ls₀ m₀ ∧
      Drained m₀ ∧ m₀.cfg.data.port = [0x1C] ∧ m₀.cfg.data.globals.executed = [] ∧
      Run (system smallPlatform).step NoOverflow m₀ ls m ∧ Drained m ∧
      m.cfg.data.port = [] ∧ m.cfg.data.globals.executed = [bytes "Oi"] := by
  obtain ⟨i₀, i, hi₀, hlast, _, hran₀, hran⟩ := typedOi_presses
  obtain ⟨ls₀, k₀, enabled, h₀, hk₀⟩ := smallStart_serves (noOverflow_serves (H := Nat))
    [[0x2A], [0x18], [0xAA], [0x17]] [0x1C] (by decide) hi₀
  obtain ⟨ls, k, h, hk⟩ := serve smallPlatform noOverflow_serves
    (show k₀.Served ([0x1C] ++ []) i₀ from hk₀) (by decide) (by decide) hlast enabled
  exact ⟨ls₀, _, ls, _, h₀, hk₀.drained, hk₀.port, hk₀.renders.ran.trans hran₀, h, hk.drained,
    hk.port, hk.renders.ran.trans hran⟩

/-- All of them pending before the first is drained. -/
theorem typedOi_in_one_burst :
    ∃ ls₁ m₁ ls₂ m₂, Run (system smallPlatform).step NoOverflow (smallStart typedOi) ls₁ m₁ ∧
      m₁.cfg.data.queue.contents = typedOi ∧
      Run (system smallPlatform).step NoOverflow m₁ ls₂ m₂ ∧ Drained m₂ ∧
      m₂.cfg.data.port = [] := by
  obtain ⟨_, i, _, _, hi, _, _⟩ := typedOi_presses
  obtain ⟨ls₁, k₁, h₁, hk₁⟩ := smallStart_sleeps (noOverflow_serves (H := Nat)).tick
    (typedOi ++ [])
  obtain ⟨ls₂, q, pics, h₂, hv, hc⟩ := wake smallPlatform noOverflow_serves hk₁ (by decide)
    (by decide) false
  obtain ⟨ls₃, k₂, shadow, h₃, hk₂⟩ := answer_pending smallPlatform
    (noOverflow_serves (H := Nat)).tick (k := { k₁ with queue := q, pics := pics, port := [] })
    hv hk₁.renders hk₁.loaded (hc ▸ hi) (.leave false)
  obtain ⟨ls₄, h₄⟩ := run_leave smallPlatform (noOverflow_serves (H := Nat)).tick (k := k₂) true
    shadow (.drain true)
  exact ⟨_, _, _, asleep k₂ true, h₁.trans h₂, hc, h₃.trans h₄, hk₂.drained, hk₂.port⟩

/-- `Oi` typed and run twice, one scancode at a time and in one burst. -/
theorem batching_does_not_matter_small :
    ∃ ls₀ m₀ ls m, Run (system smallPlatform).step NoOverflow (smallStart typedOi) ls₀ m₀ ∧
      Drained m₀ ∧ m₀.cfg.data.port = [0x1C] ∧ m₀.cfg.data.globals.executed = [] ∧
      Run (system smallPlatform).step NoOverflow m₀ ls m ∧ Drained m ∧
      m.cfg.data.globals.executed = [bytes "Oi"] ∧
      (∃ k', (oneAtATime smallPlatform typedOi).Yields (trapRun smallPlatform)
          (smallStart typedOi).cfg.data noLock false () k' ∧
        m.cfg.data.globals = k'.globals) ∧
      ∃ ls₁ m₁ ls₂ m₂,
        Run (system smallPlatform).step NoOverflow (smallStart typedOi) ls₁ m₁ ∧
        m₁.cfg.data.queue.contents = typedOi ∧
        Run (system smallPlatform).step NoOverflow m₁ ls₂ m₂ ∧ Drained m₂ ∧
        m₂.cfg.data.globals = m.cfg.data.globals := by
  obtain ⟨ls₀, m₀, ls, m, h₀, hd₀, hport₀, hran₀, h, hd, hport, hran⟩ := typedOi_one_by_one
  obtain ⟨ls₁, m₁, ls₂, m₂, h₁, hpending, h₂, hd₂, hport₂⟩ := typedOi_in_one_burst
  obtain ⟨⟨delivered, k', hsplit, hyields, hglobals⟩, hother⟩ :=
    batching_does_not_matter smallPlatform (h₀.trans h) hd
  rw [hport, List.append_nil] at hsplit
  obtain rfl := hsplit
  exact ⟨ls₀, m₀, ls, m, h₀, hd₀, hport₀, hran₀, h, hd, hran, ⟨k', hyields, hglobals⟩,
    ls₁, m₁, ls₂, m₂, h₁, hpending, h₂, hd₂,
    hother _ _ (h₁.trans h₂) hd₂ (hport₂.trans hport.symm)⟩

end ProtoOs.Ref
