import ProtoOs.Proofs.Flow
import ProtoOs.Proofs.Ideal

/-!
# Runs that serve what is typed

The preconditions of the blocks say what holds in every run. This file makes
runs: boot comes to a first sleep, a burst of interrupts ends it, the drain
takes the scancodes of the burst one after the other, and the kernel sleeps
again. The ideal machine says what it has then done, so a run through whole
lines and commands is had from the scancodes alone (`serve_all`).

All that is asked of the scancodes is that the ideal machine takes them, and
of a burst that the queue has room for it. In a run so made the interrupts
land where a block has just ended, which also a run that allows none before
the `hlt` allows (`Admits`).
-/

namespace ProtoOs.Ref

open ProtoOs.Lib ProtoOs.Lib.Prog

variable {H : Type} (pf : Platform H)

/-! ## Boot -/

namespace Ideal

/-- The lines `init` sends to the serial port. -/
def initLog (info : MemoryInfo) : List (List UInt8) :=
  [ bytes "[boot] " ++ version ++ bytes " iniciado",
    bytes "[boot] gdt/tss ativos",
    bytes "[boot] interrupcoes ativas",
    bootMessage info ]

def bootLog (info : MemoryInfo) : List (List UInt8) :=
  initLog info ++ [bytes "[boot] prompt pronto"]

def welcome : List (List UInt8) :=
  [ version,
    bytes "proto-os - sem sistema operacional embaixo",
    bytes "Este texto foi escrito direto no buffer de video VGA,",
    bytes "por este mesmo binario Rust, sem nenhum SO por baixo." ]

/-- The machine at its first prompt. -/
def start (info : MemoryInfo) (heap : H) : Ideal H where
  term := printBytes (Terminal.blank bufferHeight) (welcome.flatMap (· ++ bytes "\n") ++ prompt)
  line := []
  shift := ShiftState.new
  info := info
  heap := heap
  serial := bootLog info
  ran := []

end Ideal

section Boot

variable {buffer : Buffer} {crtc : Crtc} {heap : H} {mem : Paging.Mem} {port : List UInt8}

/-- The screen cleared, the welcome, the prompt and the last line of the
log, once `init` is done. -/
theorem greeting_renders {g : Globals H} {info : MemoryInfo} {b : Bool}
    {trap : Cfg LockId (Globals H) → Outcome LockId (Globals H) Fatal Unit}
    (hline : g.line.len = 0) (hshift : g.shift = ShiftState.new)
    (hinfo : g.memoryInfo = some info)
    (hserial : g.serial1 = (Ideal.initLog info).flatMap (· ++ bytes "\n"))
    (hran : g.executed = []) (hcalm : g.panicking = false) :
    ∃ g₁ g₂ g₃ g₄, clearScreen.Yields trap g noLock b () g₁ ∧
      printWelcome.Yields trap g₁ noLock b () g₂ ∧ printPrompt.Yields trap g₂ noLock b () g₃ ∧
      (serialPrintln (bytes "[boot] prompt pronto")).Yields trap g₃ noLock b () g₄ ∧
      g₄.Renders (Ideal.start info g.heap) := by
  obtain ⟨w₁, hw₁, ht₁⟩ := g.writer.clearScreen_tracks
  have h₁ : clearScreen.Yields trap g noLock b () { g with writer := w₁, writerReady := true } :=
    clearScreen_yields noLock_writerFree hw₁
  have hr₁ : ({ g with writer := w₁, writerReady := true } : Globals H).Renders
      ⟨Terminal.blank bufferHeight, [], ShiftState.new, info, g.heap,
        Ideal.initLog info, []⟩ :=
    ⟨ht₁, LineBuffer.holds_nil hline, hshift, hinfo, rfl, hserial, hran, hcalm⟩
  have hsay : ∀ text, Mirrors trap Globals.Renders noLock b (println text) (Ideal.say text) :=
    fun text => println_mirrors text noLock_writerFree
  have hwelcome : Mirrors trap Globals.Renders noLock b printWelcome
      (Ideal.sayAll Ideal.welcome) := by
    simp only [Ideal.sayAll, Ideal.welcome, bind_pure_unit]
    exact Mirrors.bind (hsay _) fun _ => Mirrors.bind (hsay _) fun _ =>
      Mirrors.bind (hsay _) fun _ => hsay _
  have hprompt : Mirrors trap Globals.Renders noLock b printPrompt (Ideal.write prompt) :=
    print_mirrors prompt noLock_writerFree
  have hlog : Mirrors trap Globals.Renders noLock b (serialPrintln (bytes "[boot] prompt pronto"))
      (Ideal.log (bytes "[boot] prompt pronto")) := serialPrintln_mirrors _ rfl
  obtain ⟨g₂, h₂, hr₂⟩ := hwelcome.ok hr₁ (Ideal.sayAll_eq _ _)
  obtain ⟨g₃, h₃, hr₃⟩ := hprompt.ok hr₂ rfl
  obtain ⟨g₄, h₄, hr₄⟩ := hlog.ok hr₃ rfl
  refine ⟨_, g₂, g₃, g₄, h₁, h₂, h₃, h₄, ?_⟩
  rw [Ideal.start, Ideal.bootLog, printBytes_append]
  dsimp only at hr₄
  exact hr₄

section Init

variable {trap : Cfg LockId (Globals H) → Outcome LockId (Globals H) Fatal Unit}
  {ktrap : Cfg LockId (Kernel H) → Outcome LockId (Kernel H) Fatal Unit}

/-- What `init` leaves where `memory::init` succeeds: the log, and the memory,
heap and summary of `memory::init`. -/
theorem init_leaves (htrap : ∀ c, ktrap c = (trap (c.view Kernel.globalsLens)).within
      Kernel.globalsLens c.data)
    {mi : MemoryInit} (hmi : memoryInit pf.memoryMap pf.root mem = some mi) :
    (init pf).Yields ktrap (Kernel.start buffer crtc heap mem port) noLock false ()
      ⟨{ (Kernel.start buffer crtc heap mem port).globals with
          serial1 := (Ideal.initLog mi.info).flatMap (· ++ bytes "\n")
          mem := mi.mem
          heap := pf.heapInit heapStart heapSize heap
          memoryInfo := some mi.info }, ScancodeQueue.new,
        [.initPics, .writeMasks masterPicMask slavePicMask], port, true⟩ := by
  obtain ⟨k₁, hinit, hk₁⟩ : ∃ k₁, (init pf).Yields ktrap
      (Kernel.start buffer crtc heap mem port) noLock false () k₁ ∧
      k₁ = ⟨{ (Kernel.start buffer crtc heap mem port).globals with
          serial1 := (Ideal.initLog mi.info).flatMap (· ++ bytes "\n")
          mem := mi.mem
          heap := pf.heapInit heapStart heapSize heap
          memoryInfo := some mi.info }, ScancodeQueue.new,
        [.initPics, .writeMasks masterPicMask slavePicMask], port, true⟩ := by
    refine ⟨_,
      Yields.bind (onGlobals_yields htrap (serialPrintln_yields _ rfl)) <|
      Yields.bind (onGlobals_yields htrap (serialPrintln_yields _ rfl)) <|
      Yields.bind (Yields.bind Yields.modify
        (Yields.bind (picsOp_yields _ rfl) (picsOp_yields _ rfl))) <|
      Yields.bind (onGlobals_yields htrap (serialPrintln_yields _ rfl)) <|
      Yields.bind (onGlobals_yields htrap (memoryInitCode_yields rfl rfl hmi)) <|
      Yields.bind (onGlobals_yields htrap (memoryInfo_yields rfl rfl)) <|
      onGlobals_yields htrap (serialPrintln_yields _ rfl), ?_⟩
    simp [Kernel.start, Ideal.initLog]
  exact hk₁ ▸ hinit

end Init

/-- Boot comes to its first prompt where `memory::init` succeeds. -/
theorem boot_renders {mi : MemoryInit} (hmi : memoryInit pf.memoryMap pf.root mem = some mi) :
    ∃ g, (boot pf).Yields (trapRun pf) (Kernel.start buffer crtc heap mem port) noLock false ()
        ⟨g, ScancodeQueue.new, [.initPics, .writeMasks masterPicMask slavePicMask], port, true⟩ ∧
      g.Renders (Ideal.start mi.info (pf.heapInit heapStart heapSize heap)) := by
  have hwithin := trapRun_within pf
  obtain ⟨g₁, g₂, g₃, g₄, h₁, h₂, h₃, h₄, hr⟩ := greeting_renders (b := false)
    (g := { (Kernel.start buffer crtc heap mem port).globals with
          serial1 := (Ideal.initLog mi.info).flatMap (· ++ bytes "\n")
          mem := mi.mem
          heap := pf.heapInit heapStart heapSize heap
          memoryInfo := some mi.info })
    rfl rfl rfl rfl rfl rfl
  exact ⟨g₄, Yields.bind (init_leaves pf hwithin hmi) <|
    Yields.bind (onGlobals_yields hwithin h₁) <| Yields.bind (onGlobals_yields hwithin h₂) <|
    Yields.bind (onGlobals_yields hwithin h₃) <| onGlobals_yields hwithin h₄, hr⟩

variable {G : Machine H → Label Fatal Unit → Prop}

/-- Boot up to the line of the log that follows `interrupts::init`: from
here on an exception finds its handler. -/
theorem start_loads (hG : ∀ m, G m .tick) :
    ∃ ls k shadow rest, Run (system pf).step G
        (Machine.start pf (Kernel.start buffer crtc heap mem port)) ls
        (idling k false shadow false .boot
          ((onGlobals (serialPrintln (bytes "[boot] interrupcoes ativas"))).bind rest)) ∧
      k.idtLoaded = true ∧ k.globals.panicking = false := by
  have hserial : ∀ (text : List UInt8) {k : Kernel H},
      (onGlobals (serialPrintln text)).Yields Outcome.halt k noLock false () _ :=
    fun text _ => onGlobals_yields (Outcome.halt_within _) (serialPrintln_yields text rfl)
  have hinterrupts : ∀ {k : Kernel H}, interruptsInit.Yields Outcome.halt k noLock false () _ :=
    fun {_} => Yields.bind Yields.modify
      (Yields.bind (picsOp_yields _ rfl) (picsOp_yields _ rfl))
  obtain ⟨shadow₁, h₁⟩ := steps_of_yields (hserial (bytes "[boot] " ++ version ++
    bytes " iniciado") (k := Kernel.start buffer crtc heap mem port)) false _
  obtain ⟨shadow₂, h₂⟩ := steps_of_yields (hserial (bytes "[boot] gdt/tss ativos")) shadow₁ _
  obtain ⟨shadow₃, h₃⟩ := steps_of_yields hinterrupts shadow₂ _
  have hinit : Steps (init pf) _ _ _ := (h₁.trans h₂).trans h₃
  obtain ⟨ls, hrun⟩ := (system pf).run_main hG ((hinit.bind _).bind _)
    (m := Machine.start pf (Kernel.start buffer crtc heap mem port)) rfl rfl rfl rfl
  simp only [bind_def, bind_bind] at hrun
  exact ⟨ls, _, shadow₃, _, hrun, rfl, rfl⟩

/-- Boot up to the first use of `WRITER`. -/
theorem start_inits (hG : ∀ m, G m .tick) {mi : MemoryInit}
    (hmi : memoryInit pf.memoryMap pf.root mem = some mi) :
    ∃ ls k shadow rest, Run (system pf).step G
        (Machine.start pf (Kernel.start buffer crtc heap mem port)) ls
        (idling k false shadow false .boot ((onGlobals clearScreen).bind rest)) ∧
      k.idtLoaded = true ∧ k.globals.panicking = false ∧ k.globals.writerReady = false := by
  have hleaves : (init pf).Yields Outcome.halt (Kernel.start buffer crtc heap mem port) noLock
      false () _ := init_leaves pf (Outcome.halt_within Kernel.globalsLens) hmi
  obtain ⟨shadow, hinit⟩ := steps_of_yields hleaves false _
  obtain ⟨ls, hrun⟩ := (system pf).run_main hG (hinit.bind _)
    (m := Machine.start pf (Kernel.start buffer crtc heap mem port)) rfl rfl rfl rfl
  simp only [bind_def, bind_bind] at hrun
  exact ⟨ls, _, shadow, _, hrun, rfl, rfl, rfl⟩

end Boot

/-! ## From one sleep to the next -/

/-- Nothing is pending, `rest` is still to come, and the globals show the
ideal machine at `i`. -/
structure Kernel.Served (k : Kernel H) (rest : List UInt8) (i : Ideal H) : Prop where
  valid : k.queue.Valid
  empty : k.queue.contents = []
  port : k.port = rest
  loaded : k.idtLoaded = true
  renders : k.globals.Renders i

/-- The CPU sleeps at the end of a turn of the loop, and the next interrupt
will be taken. -/
def asleep (k : Kernel H) (enabled : Bool) : Machine H :=
  idling k true false true (.leave enabled) (ret .head)

/-- Runs that may execute, and that take an interrupt where a block has just
ended if a scancode is ready and the queue has room for it. -/
structure Admits (G : Machine H → Label Fatal Unit → Prop) : Prop where
  tick : ∀ m, G m .tick
  irq : ∀ {k halted pc}, k.queue.len < scancodeQueueCapacity → k.port ≠ [] →
    G (idling k true false halted pc (ret .head)) (.irq ())

section Serving

variable {G : Machine H → Label Fatal Unit → Prop} {rest : List UInt8} {i i' : Ideal H}

/-- Interrupts one after the other, with no instruction of the main flow in
between. The first one ends a sleep. -/
theorem run_burst (hG : Admits G) (pc : Pc) (codes : List UInt8) :
    ∀ {k : Kernel H} (halted : Bool), k.queue.Valid → k.port = codes ++ rest →
      k.queue.contents.length + codes.length ≤ scancodeQueueCapacity →
      ∃ ls q pics, Run (system pf).step G (idling k true false halted pc (ret .head)) ls
          (idling { k with queue := q, pics := pics, port := rest } true false
            (halted && codes.isEmpty) pc (ret .head)) ∧
        q.Valid ∧ q.contents = k.queue.contents ++ codes := by
  induction codes with
  | nil =>
      intro k halted hv hport _
      obtain ⟨globals, queue, pics, port, loaded⟩ := k
      obtain rfl : port = rest := hport
      rw [List.isEmpty_nil, Bool.and_true]
      exact ⟨[], queue, pics, .nil, hv, (List.append_nil _).symm⟩
  | cons code codes ih =>
      intro k halted hv hport hroom
      rw [List.length_cons] at hroom
      have hlen : k.queue.len < scancodeQueueCapacity := by
        rw [← ScancodeQueue.contents_length]
        omega
      obtain ⟨q₁, hq₁, hv₁, hc₁⟩ := ScancodeQueue.push_of_room hv hlen code
      obtain ⟨ls₁, pics₁, h₁⟩ := run_irq pf hG.tick (k := k) (q := q₁) (by rw [hport]; exact hq₁)
        halted pc (ret .head) (hG.irq hlen (by rw [hport]; simp))
      rw [show k.port.tail = codes ++ rest by rw [hport]; rfl] at h₁
      obtain ⟨ls₂, q, pics, h₂, hv', hc'⟩ := ih
        (k := { k with queue := q₁, pics := pics₁, port := codes ++ rest }) false hv₁ rfl (by
          simp only [hc₁, List.length_append, List.length_singleton]
          omega)
      rw [List.isEmpty_cons, Bool.and_false]
      refine ⟨_, q, pics, h₁.trans h₂, hv', ?_⟩
      simp only [hc', hc₁, List.append_assoc, List.singleton_append]

/-- The drain, as long as the ideal machine takes what it finds. -/
theorem run_drain (hG : ∀ m, G m .tick) (enabled : Bool) (codes : List UInt8) :
    ∀ {k : Kernel H} (shadow : Bool) (pc : Pc) {i : Ideal H}, k.queue.Valid →
      k.queue.contents = codes → k.globals.Renders i →
      Ideal.presses pf codes i = .ok ((), i') →
      ∃ ls g q shadow', Run (system pf).step G
          (idling k false shadow false pc (ret (.drain enabled))) ls
          (idling { k with globals := g, queue := q } false shadow' false (.drain enabled)
            (ret (.leave enabled))) ∧
        g.Renders i' ∧ q.Valid ∧ q.contents = [] := by
  induction codes with
  | nil =>
      intro k shadow pc i hv hc hr hpresses
      obtain ⟨_, rfl⟩ := Prod.mk.inj (Except.ok.inj hpresses)
      obtain ⟨q, hturn, hv', hc'⟩ := drain_yields_none pf (b := false) hv hc enabled
      obtain ⟨ls, shadow', h⟩ := run_block pf hG hturn shadow pc
      exact ⟨ls, k.globals, q, shadow', h, hr, hv', hc'⟩
  | cons code codes ih =>
      intro k shadow pc i hv hc hr hpresses
      obtain ⟨_, i₁, hpress, hrest⟩ := ok_of_bind hpresses
      obtain ⟨g₁, hproc, hr₁⟩ := (process_mirrors pf (b := false) code).ok hr hpress
      obtain ⟨q₁, hturn, hv₁, hc₁⟩ := drain_yields_some pf hv hc enabled hproc
      obtain ⟨ls₁, shadow₁, h₁⟩ := run_block pf hG hturn shadow pc
      obtain ⟨ls₂, g, q, shadow', h₂, hr', hv', hc'⟩ := ih
        (k := { k with queue := q₁, globals := g₁ }) shadow₁ (.drain enabled) hv₁ hc₁ hr₁ hrest
      exact ⟨_, g, q, shadow', h₁.trans h₂, hr', hv', hc'⟩

variable {batch : List UInt8} {k : Kernel H}

/-- A burst that ends a sleep: all of it is pending. -/
theorem wake (hG : Admits G) (hk : k.Served (batch ++ rest) i) (hne : batch ≠ [])
    (hroom : batch.length ≤ scancodeQueueCapacity) (enabled : Bool) :
    ∃ ls q pics, Run (system pf).step G (asleep k enabled) ls
        (idling { k with queue := q, pics := pics, port := rest } true false false
          (.leave enabled) (ret .head)) ∧
      q.Valid ∧ q.contents = batch := by
  obtain ⟨ls, q, pics, h, hv, hc⟩ := run_burst pf hG (.leave enabled) batch true
    hk.valid hk.port (by rw [hk.empty, List.length_nil, Nat.zero_add]; exact hroom)
  rw [List.isEmpty_eq_false_iff.mpr hne, Bool.and_false] at h
  rw [hk.empty, List.nil_append] at hc
  exact ⟨ls, q, pics, h, hv, hc⟩

/-- What is pending is taken before the next sleep, up to where the drain has
found the queue empty. -/
theorem answer_pending (hG : ∀ m, G m .tick) (hv : k.queue.Valid) (hr : k.globals.Renders i)
    (hl : k.idtLoaded = true) (hpresses : Ideal.presses pf k.queue.contents i = .ok ((), i'))
    (pc : Pc) :
    ∃ ls k' shadow, Run (system pf).step G (idling k true false false pc (ret .head)) ls
        (idling k' false shadow false (.drain true) (ret (.leave true))) ∧
      k'.Served k.port i' := by
  obtain ⟨ls₁, h₁⟩ := run_head_open pf hG (k := k) pc
  obtain ⟨ls₂, g, q, shadow, h₂, hr', hv', hc'⟩ := run_drain pf hG true k.queue.contents
    (k := k) false .head hv rfl hr hpresses
  exact ⟨_, _, shadow, h₁.trans h₂, hv', hc', rfl, hl, hr'⟩

/-- A burst that ends a sleep, up to where the drain has found the queue
empty. -/
theorem serve_drained (hG : Admits G) (hk : k.Served (batch ++ rest) i) (hne : batch ≠ [])
    (hroom : batch.length ≤ scancodeQueueCapacity)
    (hpresses : Ideal.presses pf batch i = .ok ((), i')) (enabled : Bool) :
    ∃ ls k' shadow, Run (system pf).step G (asleep k enabled) ls
        (idling k' false shadow false (.drain true) (ret (.leave true))) ∧
      k'.Served rest i' := by
  obtain ⟨ls₁, q, pics, h₁, hv, rfl⟩ := wake pf hG hk hne hroom enabled
  obtain ⟨ls₂, k', shadow, h₂, hk'⟩ := answer_pending pf hG.tick
    (k := { k with queue := q, pics := pics, port := rest }) hv hk.renders hk.loaded hpresses
    (.leave enabled)
  exact ⟨_, k', shadow, h₁.trans h₂, hk'⟩

/-- A burst that ends a sleep, up to the next sleep. -/
theorem serve (hG : Admits G) (hk : k.Served (batch ++ rest) i) (hne : batch ≠ [])
    (hroom : batch.length ≤ scancodeQueueCapacity)
    (hpresses : Ideal.presses pf batch i = .ok ((), i')) (enabled : Bool) :
    ∃ ls k', Run (system pf).step G (asleep k enabled) ls (asleep k' true) ∧
      k'.Served rest i' := by
  obtain ⟨ls₁, k', shadow, h₁, hk'⟩ := serve_drained pf hG hk hne hroom hpresses enabled
  obtain ⟨ls₂, h₂⟩ := run_leave pf hG.tick (k := k') true shadow (.drain true)
  exact ⟨_, k', h₁.trans h₂, hk'⟩

/-- Any number of bursts, each one in a sleep of its own. -/
theorem serve_all (hG : Admits G) (batches : List (List UInt8)) :
    ∀ {k : Kernel H} {i : Ideal H} {enabled : Bool}, k.Served (batches.flatten ++ rest) i →
      (∀ batch ∈ batches, batch ≠ [] ∧ batch.length ≤ scancodeQueueCapacity) →
      Ideal.presses pf batches.flatten i = .ok ((), i') →
      ∃ ls k' enabled', Run (system pf).step G (asleep k enabled) ls (asleep k' enabled') ∧
        k'.Served rest i' := by
  induction batches with
  | nil =>
      intro k i enabled hk _ hpresses
      obtain ⟨_, rfl⟩ := Prod.mk.inj (Except.ok.inj hpresses)
      exact ⟨[], k, enabled, .nil, hk⟩
  | cons batch batches ih =>
      intro k i enabled hk hfit hpresses
      rw [List.flatten_cons, List.append_assoc] at hk
      rw [List.flatten_cons, Ideal.presses_append] at hpresses
      obtain ⟨_, i₁, hbatch, hrest⟩ := ok_of_bind hpresses
      obtain ⟨hne, hroom⟩ := hfit batch List.mem_cons_self
      obtain ⟨ls₁, k₁, h₁, hk₁⟩ := serve pf hG hk hne hroom hbatch enabled
      obtain ⟨ls₂, k', enabled', h₂, hk'⟩ := ih hk₁
        (fun batch hmem => hfit batch (List.mem_cons_of_mem _ hmem)) hrest
      exact ⟨_, k', enabled', h₁.trans h₂, hk'⟩

variable {buffer : Buffer} {crtc : Crtc} {heap : H} {mem : Paging.Mem} {port : List UInt8}

/-- The first sleep. -/
theorem start_sleeps (hG : ∀ m, G m .tick) {mi : MemoryInit}
    (hmi : memoryInit pf.memoryMap pf.root mem = some mi) :
    ∃ ls k, Run (system pf).step G
        (Machine.start pf (Kernel.start buffer crtc heap mem port)) ls (asleep k false) ∧
      k.Served port (Ideal.start mi.info (pf.heapInit heapStart heapSize heap)) := by
  obtain ⟨g, hboot, hr⟩ := @boot_renders _ pf buffer crtc heap mem port _ hmi
  obtain ⟨ls₁, shadow, h₁⟩ := run_boot pf hG (Yields.bind hboot Yields.ret)
  obtain ⟨ls₂, q, h₂, hv, hc⟩ := run_first_turn pf hG
    (k := ⟨g, ScancodeQueue.new, [.initPics, .writeMasks masterPicMask slavePicMask], port, true⟩)
    ScancodeQueue.new_valid rfl shadow
  exact ⟨_, _, h₁.trans h₂, hv, hc, rfl, rfl, hr⟩

end Serving

/-! ## On the small machine -/

/-- What the small machine shows at its first prompt. -/
def smallIdeal : Ideal Nat := Ideal.start ⟨63 * 4096, heapStart, heapSize⟩ heapStart

theorem smallPlatform_info : ∃ mi, memoryInit smallPlatform.memoryMap smallPlatform.root
    (fun _ _ => .unused) = some mi ∧ mi.info = ⟨63 * 4096, heapStart, heapSize⟩ := by
  have hinfo : (memoryInit smallPlatform.memoryMap smallPlatform.root fun _ _ => .unused).map
      MemoryInit.info = some ⟨63 * 4096, heapStart, heapSize⟩ := by decide +kernel
  exact Option.map_eq_some_iff.mp hinfo

section Small

variable {G : Machine Nat → Label Fatal Unit → Prop} {i : Ideal Nat}

theorem smallStart_sleeps (hG : ∀ m, G m .tick) (port : List UInt8) :
    ∃ ls k, Run (system smallPlatform).step G (smallStart port) ls (asleep k false) ∧
      k.Served port smallIdeal := by
  obtain ⟨mi, hmi, hinfo⟩ := smallPlatform_info
  obtain ⟨ls, k, h, hk⟩ : ∃ ls k, Run (system smallPlatform).step G (smallStart port) ls
      (asleep k false) ∧ k.Served port (Ideal.start mi.info heapStart) :=
    start_sleeps smallPlatform hG hmi
  rw [hinfo] at hk
  exact ⟨ls, k, h, hk⟩

/-- Whatever the ideal machine takes, in bursts or one by one. -/
theorem smallStart_serves (hG : Admits G) (batches : List (List UInt8)) (rest : List UInt8)
    (hfit : ∀ batch ∈ batches, batch ≠ [] ∧ batch.length ≤ scancodeQueueCapacity)
    (hpresses : Ideal.presses smallPlatform batches.flatten smallIdeal = .ok ((), i)) :
    ∃ ls k enabled, Run (system smallPlatform).step G (smallStart (batches.flatten ++ rest)) ls
        (asleep k enabled) ∧ k.Served rest i := by
  obtain ⟨ls₁, k, h₁, hk⟩ := smallStart_sleeps hG.tick (batches.flatten ++ rest)
  obtain ⟨ls₂, k', enabled, h₂, hk'⟩ := serve_all smallPlatform hG batches hk hfit hpresses
  exact ⟨_, k', enabled, h₁.trans h₂, hk'⟩

/-- The ideal machine takes the scancodes, and what of it is asked for is
computed. -/
theorem presses_ok {β : Type} (codes : List UInt8) (f : Ideal Nat → β) {x : β}
    (h : (Ideal.presses smallPlatform codes smallIdeal).toOption.map (fun r => f r.2) = some x) :
    ∃ i, Ideal.presses smallPlatform codes smallIdeal = .ok ((), i) ∧ f i = x := by
  obtain ⟨⟨_, i⟩, hi, hx⟩ := Option.map_eq_some_iff.mp h
  cases hpresses : Ideal.presses smallPlatform codes smallIdeal with
  | ok r =>
      rw [hpresses] at hi
      exact ⟨i, by rw [Option.some.inj hi], hx⟩
  | error e =>
      rw [hpresses] at hi
      cases hi

/-- Some keys have been served, and the next one has woken the machine: its
handler has read the byte. -/
theorem smallStart_wakes (hG : Admits G) {codes : List UInt8} (code : UInt8) (hne : codes ≠ [])
    (hroom : codes.length ≤ scancodeQueueCapacity)
    (hpresses : Ideal.presses smallPlatform codes smallIdeal = .ok ((), i)) :
    ∃ ls g queue pics enabled saved rest,
      Run (system smallPlatform).step G (smallStart (codes ++ [code])) ls
        ⟨⟨⟨g, queue, pics, [], true⟩, noLock, false, false⟩, false, .leave enabled, ret .head,
          [⟨.irq, saved, rest⟩]⟩ ∧
      g.Renders i := by
  obtain ⟨ls, ⟨g, queue, pics, port, loaded⟩, enabled, hserve, hk⟩ : ∃ ls k enabled,
      Run (system smallPlatform).step G (smallStart ([codes].flatten ++ [code])) ls
        (asleep k enabled) ∧ k.Served [code] i :=
    smallStart_serves hG [codes] _ (by simp [hne, hroom]) (by simpa using hpresses)
  obtain rfl : loaded = true := hk.loaded
  obtain rfl : port = [code] := hk.port
  have hlen : queue.len < scancodeQueueCapacity := by
    rw [← ScancodeQueue.contents_length, show queue.contents = [] from hk.empty]
    decide
  rw [List.flatten_singleton] at hserve
  have hirq : G (asleep ⟨g, queue, pics, [code], true⟩ enabled) (.irq ()) :=
    hG.irq hlen (List.cons_ne_nil _ _)
  exact ⟨_, g, queue, pics, enabled, _, _, (hserve.snoc hirq rfl).snoc (hG.tick _) rfl, hk.renders⟩

/-- `oi` has been executed, and another key has woken the machine. -/
theorem oi_wakes (hG : Admits G) :
    ∃ ls g queue pics enabled saved rest i,
      Run (system smallPlatform).step G (smallStart [0x18, 0x17, 0x1C, 0x1E]) ls
        ⟨⟨⟨g, queue, pics, [], true⟩, noLock, false, false⟩, false, .leave enabled, ret .head,
          [⟨.irq, saved, rest⟩]⟩ ∧
      g.Renders i ∧ g.executed = [bytes "oi"] := by
  obtain ⟨i, hpresses, hran⟩ := presses_ok [0x18, 0x17, 0x1C] (fun i => i.ran)
    (x := [bytes "oi"]) (by decide +kernel)
  obtain ⟨ls, g, queue, pics, enabled, saved, rest, hwake, hr⟩ :=
    smallStart_wakes hG 0x1E (by decide) (by decide) hpresses
  exact ⟨ls, g, queue, pics, enabled, saved, rest, i, hwake, hr, hr.ran.trans hran⟩

end Small

end ProtoOs.Ref
