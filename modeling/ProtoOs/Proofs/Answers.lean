import ProtoOs.Proofs.Batching
import ProtoOs.Proofs.Ideal
import ProtoOs.Proofs.Idle

/-!
# The kernel answers what is typed

The ideal machine says what the kernel does with a stream of scancodes.
Here the kernel under interrupts is held against it: wherever the main flow
is outside boot and a turn of the drain, the globals render the ideal
machine after what has been processed (`Answered`), and where nothing is
pending, after all that has been delivered. A turn of the drain is a step
of the ideal machine, and so returns or faults as the step does
(`drain_run`).
-/

namespace ProtoOs.Ref

open ProtoOs.Lib ProtoOs.Lib.Prog

variable {H : Type} (pf : Platform H)

theorem onGlobals_faults {α : Type} {p : Code H α} {k : Kernel H} {h : LockId → Bool} {b : Bool}
    {e : Fatal} (hp : p.Faults (globalsTrapRun pf) k.globals h b e) :
    (onGlobals p).Faults (trapRun pf) k h b e :=
  Faults.zoom Kernel.globalsLens (trapRun_within pf) hp

/-! ## Boot -/

section Boot

variable {buffer : Buffer} {crtc : Crtc} {heap : H} {mem : Paging.Mem} {port : List UInt8}

/-- What `memory::init` panics with where it does not succeed. -/
def memoryInitPanic (mem : Paging.Mem) : Fatal :=
  match initHeap BootInfoFrameAllocator.allocateFrame pf.root mem
      (BootInfoFrameAllocator.init pf.memoryMap) with
  | none => .panic (allocateFramePanic pf.memoryMap)
  | some i => match i.result with
    | .error e => heapNotMapped e
    | .ok () => .panic (usableBytesPanic 0
        (pf.memoryMap.filter fun region => region.regionType = .usable))

theorem memoryInitCode_faults {b : Bool} {g : Globals H}
    {trap : Cfg LockId (Globals H) → Outcome LockId (Globals H) Fatal Unit}
    (hmi : memoryInit pf.memoryMap pf.root g.mem = none) :
    (memoryInitCode pf).Faults trap g noLock b (memoryInitPanic pf g.mem) := by
  simp only [memoryInit, Option.bind_eq_bind] at hmi
  unfold memoryInitPanic
  cases hi : initHeap BootInfoFrameAllocator.allocateFrame pf.root g.mem
      (BootInfoFrameAllocator.init pf.memoryMap) with
  | none =>
      refine Faults.bind_left (Faults.bind_left (Faults.attempt ?_) _) _
      rw [hi]
      rfl
  | some i =>
      rw [hi, Option.bind_some] at hmi
      have hheap : (initHeapCode pf BootInfoFrameAllocator.allocateFrame
          (allocateFramePanic pf.memoryMap) (BootInfoFrameAllocator.init pf.memoryMap)).Yields
          trap g noLock b i _ := initHeapCode_yields _ rfl hi
      refine Faults.bind hheap ?_
      cases hr : i.result with
      | error err =>
          simp only [hr]
          exact Faults.fault
      | ok u =>
          rw [hr] at hmi
          simp only [hr]
          refine Faults.bind_left (Faults.attempt ?_) _
          cases hn : usableBytes pf.memoryMap with
          | none => rfl
          | some n => rw [hn] at hmi; cases hmi

/-- Where `memory::init` does not succeed, boot panics there. -/
theorem boot_faults (hmi : memoryInit pf.memoryMap pf.root mem = none) :
    (boot pf).Faults (trapRun pf) (Kernel.start buffer crtc heap mem port) noLock false
      (memoryInitPanic pf mem) := by
  have hwithin := trapRun_within pf
  refine Faults.bind_left ?_ _
  exact Faults.bind (onGlobals_yields hwithin (serialPrintln_yields _ rfl)) <|
    Faults.bind (onGlobals_yields hwithin (serialPrintln_yields _ rfl)) <|
    Faults.bind (Yields.bind Yields.modify
      (Yields.bind (picsOp_yields _ rfl) (picsOp_yields _ rfl))) <|
    Faults.bind (onGlobals_yields hwithin (serialPrintln_yields _ rfl)) <|
    Faults.bind_left (onGlobals_faults pf (memoryInitCode_faults pf hmi)) _

end Boot

/-! ## The invariant of the loop -/

/-- Booted over this memory and heap, the ideal machine is at `i` once it has
taken the scancodes of `stream`. -/
def Ideal.Reaches (mem : Paging.Mem) (heap : H) (stream : List UInt8) (i : Ideal H) : Prop :=
  ∃ mi, memoryInit pf.memoryMap pf.root mem = some mi ∧
    Ideal.presses pf stream (Ideal.start mi.info (pf.heapInit heapStart heapSize heap)) =
      .ok ((), i)

/-- It raises `e` on one of them. -/
def Ideal.Foresees (mem : Paging.Mem) (heap : H) (stream : List UInt8) (e : Fatal) : Prop :=
  ∃ mi, memoryInit pf.memoryMap pf.root mem = some mi ∧
    Ideal.presses pf stream (Ideal.start mi.info (pf.heapInit heapStart heapSize heap)) = .error e

section Reaches

variable {mem : Paging.Mem} {heap : H} {stream : List UInt8} {i i' : Ideal H} {scancode : UInt8}
  {e : Fatal}

theorem Ideal.presses_snoc (stream : List UInt8) (scancode : UInt8) :
    Ideal.presses pf (stream ++ [scancode]) =
      (Ideal.presses pf stream >>= fun _ => Ideal.press pf scancode) := by
  rw [Ideal.presses_append]
  simp [Ideal.presses]

theorem Ideal.Reaches.snoc (h : Ideal.Reaches pf mem heap stream i)
    (hpress : Ideal.press pf scancode i = .ok ((), i')) :
    Ideal.Reaches pf mem heap (stream ++ [scancode]) i' := by
  obtain ⟨mi, hmi, hstream⟩ := h
  exact ⟨mi, hmi, by rw [Ideal.presses_snoc, bind_ok hstream, hpress]⟩

theorem Ideal.Reaches.of_snoc (h : Ideal.Reaches pf mem heap (stream ++ [scancode]) i) :
    ∃ i', Ideal.Reaches pf mem heap stream i' ∧ Ideal.press pf scancode i' = .ok ((), i) := by
  obtain ⟨mi, hmi, hpresses⟩ := h
  rw [Ideal.presses_snoc] at hpresses
  obtain ⟨_, i', hstream, hpress⟩ := ok_of_bind hpresses
  exact ⟨i', ⟨mi, hmi, hstream⟩, hpress⟩

theorem Ideal.Reaches.unique (h : Ideal.Reaches pf mem heap stream i)
    (h' : Ideal.Reaches pf mem heap stream i') : i = i' := by
  obtain ⟨mi, hmi, hi⟩ := h
  obtain ⟨mi', hmi', hi'⟩ := h'
  obtain rfl := Option.some.inj (hmi.symm.trans hmi')
  exact (Prod.mk.inj (Except.ok.inj (hi.symm.trans hi'))).2

theorem Ideal.Reaches.foresees (h : Ideal.Reaches pf mem heap stream i)
    (hpress : Ideal.press pf scancode i = .error e) :
    Ideal.Foresees pf mem heap (stream ++ [scancode]) e := by
  obtain ⟨mi, hmi, hstream⟩ := h
  exact ⟨mi, hmi, by rw [Ideal.presses_snoc, bind_ok hstream, hpress]⟩

theorem Ideal.Foresees.mono {stream' : List UInt8} (h : Ideal.Foresees pf mem heap stream e)
    (hp : stream <+: stream') : Ideal.Foresees pf mem heap stream' e := by
  obtain ⟨mi, hmi, hstream⟩ := h
  obtain ⟨rest, rfl⟩ := hp
  exact ⟨mi, hmi, by rw [Ideal.presses_append, bind_error hstream]⟩

theorem Ideal.Foresees.unique {e' : Fatal} (h : Ideal.Foresees pf mem heap stream e)
    (h' : Ideal.Foresees pf mem heap stream e') : e = e' := by
  obtain ⟨mi, hmi, hi⟩ := h
  obtain ⟨mi', hmi', hi'⟩ := h'
  obtain rfl := Option.some.inj (hmi.symm.trans hmi')
  exact Except.error.inj (hi.symm.trans hi')

/-- It does not raise an event on what it has answered. -/
theorem Ideal.Foresees.not_reaches (h : Ideal.Foresees pf mem heap stream e) :
    ¬Ideal.Reaches pf mem heap stream i := by
  rintro ⟨mi', hmi', hi'⟩
  obtain ⟨mi, hmi, hi⟩ := h
  obtain rfl := Option.some.inj (hmi.symm.trans hmi')
  rw [hi] at hi'
  cases hi'

/-- The scancode it raises the event on. -/
theorem Ideal.Foresees.press (h : Ideal.Foresees pf mem heap stream e) :
    ∃ before scancode after i, stream = before ++ scancode :: after ∧
      Ideal.Reaches pf mem heap before i ∧ Ideal.press pf scancode i = .error e := by
  obtain ⟨mi, hmi, hstream⟩ := h
  induction stream using List.reverseRecOn with
  | nil => cases hstream
  | append_singleton stream x ih =>
      rw [Ideal.presses_snoc] at hstream
      rcases error_of_bind hstream with herr | ⟨_, i, hok, hpress⟩
      · obtain ⟨before, scancode, after, i, rfl, hi⟩ := ih herr
        exact ⟨before, scancode, after ++ [x], i, by simp, hi⟩
      · exact ⟨stream, x, [], i, rfl, ⟨mi, hmi, hok⟩, hpress⟩

/-- What the first prompt has and every scancode keeps. -/
theorem Ideal.Reaches.invariant {K : Ideal H → Prop} {F : Fatal → Prop}
    (hstart : ∀ info, K (Ideal.start info (pf.heapInit heapStart heapSize heap)))
    (hpress : ∀ scancode, Obeys K (Ideal.press pf scancode) (fun _ => K) F)
    (h : Ideal.Reaches pf mem heap stream i) : K i := by
  obtain ⟨mi, _, hstream⟩ := h
  exact (Ideal.presses_obeys pf hpress stream _ (hstart mi.info)).1 () i hstream

end Reaches

/-- The globals render the ideal machine after what has been processed;
where nothing has been lost, that and what is pending are what has been
delivered of the stream. -/
def Answered (mem : Paging.Mem) (heap : H) (stream : List UInt8) (lossless : Bool)
    (k : Kernel H) : Prop :=
  k.queue.Valid ∧ ∃ processed i,
    (lossless = true → stream = processed ++ k.queue.contents ++ k.port) ∧
    Ideal.Reaches pf mem heap processed i ∧ k.globals.Renders i

section Loop

variable {buffer : Buffer} {crtc : Crtc} {heap : H} {mem : Paging.Mem} {stream : List UInt8}
  {lossless : Bool} {c c' : Cfg LockId (Kernel H)}

theorem answered_boot (hrun : (boot pf).run (trapRun pf)
      (entryCfg (Kernel.start buffer crtc heap mem stream)) = .done () c) :
    Answered pf mem heap stream lossless c.data := by
  cases hmi : memoryInit pf.memoryMap pf.root mem with
  | none =>
      have hfaults : (boot pf).Faults (trapRun pf) (Kernel.start buffer crtc heap mem stream)
          noLock false _ := boot_faults pf hmi
      exact absurd hrun (hfaults.not_done rfl rfl rfl)
  | some mi =>
      obtain ⟨g, hy, hr⟩ : ∃ g, (boot pf).Yields (trapRun pf)
          (Kernel.start buffer crtc heap mem stream) noLock false () ⟨g, _, _, _, _⟩ ∧
          g.Renders _ :=
        boot_renders pf hmi
      obtain ⟨_, hdata, _⟩ := hy.eq_of_run rfl rfl rfl hrun
      rw [hdata]
      exact ⟨ScancodeQueue.new_valid, [], _, fun _ => rfl, ⟨mi, hmi, rfl⟩, hr⟩

/-- A turn of the drain that returns is a step of the ideal machine. -/
theorem answered_turn {k : Kernel H} {q : ScancodeQueue} {scancode : UInt8}
    (hJ : Answered pf mem heap stream lossless k)
    (hpop : k.queue.pop = some (some scancode, q)) (hdata : c.data = { k with queue := q })
    (hfree : Free c) (hifl : c.ifl = false)
    (hrun : (onGlobals (process pf scancode)).run (trapRun pf) c = .done () c') :
    Answered pf mem heap stream lossless c'.data := by
  obtain ⟨hv, processed, i, hsplit, hreach, hr⟩ := hJ
  obtain ⟨q', hpop', hv', hc'⟩ := ScancodeQueue.pop_spec hv
  rw [hpop] at hpop'
  obtain ⟨hhead, rfl⟩ := Prod.mk.inj (Option.some.inj hpop')
  obtain ⟨rest, hcons⟩ : ∃ rest, k.queue.contents = scancode :: rest :=
    ⟨_, List.eq_cons_of_mem_head? hhead.symm⟩
  have hmirror := process_mirrors pf (b := false) scancode
  cases hpress : Ideal.press pf scancode i with
  | error e =>
      have hfaults := onGlobals_faults pf (k := { k with queue := q }) (hmirror.error hr hpress)
      exact absurd hrun (hfaults.not_done hdata hfree hifl)
  | ok r =>
      obtain ⟨g, hy, hr'⟩ := hmirror.ok hr hpress
      obtain ⟨_, hdata', _⟩ := (onGlobals_yields (k := { k with queue := q })
        (trapRun_within pf) hy).eq_of_run hdata hfree hifl hrun
      rw [hdata']
      refine ⟨hv', processed ++ [scancode], r.2, fun hl => ?_, hreach.snoc pf hpress, hr'⟩
      rw [hsplit hl, hcons]
      simp [hc', hcons]

/-- An interrupt changes nothing the ideal machine knows of. -/
theorem answered_irq {m : Machine H} (hJ : Answered pf mem heap stream lossless m.cfg.data)
    (hroom : lossless = true →
      m.cfg.data.queue.len < scancodeQueueCapacity ∧ m.cfg.data.port ≠ [])
    (hfree : Free m.cfg)
    (hrun : keyboardInterruptHandler.run Outcome.halt m.cfg.closeIf = .done () c') :
    Answered pf mem heap stream lossless c'.data := by
  obtain ⟨hv, processed, i, hsplit, hreach, hr⟩ := hJ
  obtain ⟨q, hq, hv', hc'⟩ := ScancodeQueue.push_spec hv (m.cfg.data.port.headD 0)
  have hy : keyboardInterruptHandler.Yields Outcome.halt m.cfg.data noLock false () _ :=
    keyboardInterruptHandler_yields hq
  obtain ⟨_, hdata, _⟩ := hy.eq_of_run (c := m.cfg.closeIf) rfl hfree rfl hrun
  rw [hdata]
  refine ⟨hv', processed, i, fun hl => ?_, hreach, hr⟩
  obtain ⟨hlen, hport⟩ := hroom hl
  obtain ⟨scancode, rest, hcons⟩ := List.exists_cons_of_ne_nil hport
  rw [Fifo.push_of_lt (by rw [ScancodeQueue.contents_length]; exact hlen), hcons] at hc'
  rw [hsplit hl, hcons]
  simp [hc']

theorem answered_loopInv {G : Machine H → Label Fatal Unit → Prop}
    (hroom : ∀ {m i}, G m (.irq i) → lossless = true →
      m.cfg.data.queue.len < scancodeQueueCapacity ∧ m.cfg.data.port ≠ [])
    (hfatal : ∀ {m e}, ¬G m (.fatal e)) :
    LoopInv pf false (Kernel.start buffer crtc heap mem stream)
      (Answered pf mem heap stream lossless) G where
  boot hrun _ _ := answered_boot pf hrun
  turn hJ hpop hdata hfree hifl hrun _ _ := answered_turn pf hJ hpop hdata hfree hifl hrun
  irq hG hfree hJ hrun := answered_irq pf hJ (hroom hG) hfree hrun
  quiet_ok _ h := absurd h (by decide)
  no_fatal := hfatal

/-- What the runs without overflow keep. -/
theorem noOverflow_loopInv : LoopInv pf false (Kernel.start buffer crtc heap mem stream)
    (Answered pf mem heap stream true) NoOverflow :=
  answered_loopInv pf (fun hG _ => hG) fun hG => hG

/-- Those that may lose scancodes keep the rest of it. -/
theorem idleRun_loopInv : LoopInv pf false (Kernel.start buffer crtc heap mem stream)
    (Answered pf mem heap stream false) (IdleRun false) :=
  answered_loopInv pf (fun _ h => absurd h (by decide)) fun hG => hG

end Loop

/-! ## What a turn does next -/

section Turn

variable {heap : H} {mem : Paging.Mem} {stream : List UInt8} {lossless : Bool}
  {c : Cfg LockId (Kernel H)}

/-- A turn of the drain comes to its end, with one scancode less pending or
with nothing pending at all; or to the event the ideal machine raises on
what has been delivered. -/
theorem drain_run (enabled : Bool) (hJ : Answered pf mem heap stream lossless c.data)
    (hfree : Free c) (hifl : c.ifl = false) :
    (∃ d, (block pf (.drain enabled)).run (trapRun pf) c = .done (.leave enabled) d ∧
        d.data.port = c.data.port) ∨
      (∃ d, (block pf (.drain enabled)).run (trapRun pf) c = .done (.drain enabled) d ∧
        d.data.queue.contents.length < c.data.queue.contents.length ∧
        d.data.port = c.data.port) ∨
      ∃ e d delivered, (block pf (.drain enabled)).run (trapRun pf) c = .fault e d ∧
        (lossless = true → stream = delivered ++ c.data.port) ∧
        Ideal.Foresees pf mem heap delivered e := by
  obtain ⟨hv, processed, i, hsplit, hreach, hr⟩ := hJ
  obtain ⟨q, hpop, hv', hc'⟩ := ScancodeQueue.pop_spec hv
  have hnext : nextScancode.Yields (trapRun pf) c.data noLock false _ _ :=
    nextScancode_yields hpop
  cases hcons : c.data.queue.contents with
  | nil =>
      rw [hcons] at hnext
      have hy : (block pf (.drain enabled)).Yields (trapRun pf) c.data noLock false
          (.leave enabled) _ := Yields.bind hnext Yields.ret
      obtain ⟨d, hrun, hdata, _⟩ := hy.run_eq rfl hfree hifl
      exact .inl ⟨d, hrun, by rw [hdata]⟩
  | cons scancode rest =>
      rw [hcons] at hnext hc'
      have hmirror := process_mirrors pf (b := false) scancode
      right
      cases hpress : Ideal.press pf scancode i with
      | ok r =>
          obtain ⟨g, hproc, _⟩ := hmirror.ok hr hpress
          have hy : (block pf (.drain enabled)).Yields (trapRun pf) c.data noLock false
              (.drain enabled) { c.data with queue := q, globals := g } :=
            Yields.bind hnext (Yields.bind (onGlobals_yields (k := { c.data with queue := q })
              (trapRun_within pf) hproc) Yields.ret)
          obtain ⟨d, hrun, hdata, _⟩ := hy.run_eq rfl hfree hifl
          refine .inl ⟨d, hrun, ?_, by rw [hdata]⟩
          rw [hdata]
          simp [hc']
      | error e =>
          have hproc := onGlobals_faults pf (k := { c.data with queue := q })
            (hmirror.error hr hpress)
          have hf : (block pf (.drain enabled)).Faults (trapRun pf) c.data noLock false e :=
            Faults.bind hnext (hproc.bind_left _)
          obtain ⟨d, hrun⟩ := hf.run_eq rfl hfree hifl
          refine .inr ⟨e, d, processed ++ scancode :: rest, hrun, fun hl => ?_,
            (hreach.foresees pf hpress).mono pf ⟨rest, by simp⟩⟩
          rw [hsplit hl, hcons]

end Turn

/-! ## Drained states -/

section Runs

variable {buffer : Buffer} {crtc : Crtc} {heap : H} {mem : Paging.Mem} {stream : List UInt8}
  {m : Machine H}

/-- In every run without fatal events and without overflow, whatever the
order of interrupts, a drained kernel shows what the ideal machine shows
after the scancodes delivered so far: the screen, the line being typed, the
Shift keys, the heap, the serial log and the lines run. -/
theorem kernel_refines_ideal {ls : List (Label Fatal Unit)}
    (hrun : Run (system pf).step NoOverflow
      (Machine.start pf (Kernel.start buffer crtc heap mem stream)) ls m)
    (hd : Drained m) :
    ∃ delivered i, stream = delivered ++ m.cfg.data.port ∧
      Ideal.Reaches pf mem heap delivered i ∧ m.cfg.data.globals.Renders i := by
  obtain ⟨hf, hpc, hempty⟩ := hd
  obtain ⟨_, processed, i, hsplit, hreach, hr⟩ :=
    loop_between pf (loop_inv pf (noOverflow_loopInv pf) hrun) hf hpc
  refine ⟨processed, i, ?_, hreach, hr⟩
  rw [hsplit rfl, hempty, List.append_nil]

end Runs

/-- `Oi` typed in one burst, and another key still to come. -/
theorem kernel_refines_ideal_small :
    ∃ ls m, Run (system smallPlatform).step NoOverflow (smallStart (typedOi ++ [0x1E])) ls m ∧
      Drained m ∧ m.cfg.data.port = [0x1E] ∧
      ∃ i, Ideal.Reaches smallPlatform (fun _ _ => .unused) 0 typedOi i ∧
        m.cfg.data.globals.Renders i ∧ i.ran = [bytes "Oi"] := by
  obtain ⟨_, i, _, _, hi, _, hran⟩ := typedOi_presses
  obtain ⟨ls, k, enabled, hrun, hk⟩ := smallStart_serves
    (noOverflow_serves (H := Nat)) [typedOi] [0x1E] (by decide) hi
  obtain ⟨delivered, i', hsplit, hreach, hr⟩ :=
    kernel_refines_ideal smallPlatform hrun hk.drained
  rw [show (asleep k enabled).cfg.data.port = [0x1E] from hk.port] at hsplit
  obtain rfl := List.append_cancel_right hsplit
  exact ⟨ls, _, hrun, hk.drained, hk.port, i', hreach, hr,
    hr.ran.symm.trans (hk.renders.ran.trans hran)⟩

end ProtoOs.Ref
