import ProtoOs.Lib.Duty
import ProtoOs.Proofs.Batching
import ProtoOs.Proofs.Report

/-!
# What the handlers leave alone, and what they owe

Two disciplines every handler of the IDT keeps, at any depth of nesting and
under any interference. It takes no lock but those of the screen, the serial
port, the queue and the controllers, and changes nothing the main flow works
on: the heap, the line, the Shift keys, the page tables. And an IRQ1 handler
reads one byte and acknowledges once, which nothing else does.

Both are said of the handlers' code once and read off every stack of frames
by `Lib.Duty`.
-/

namespace ProtoOs.Ref

open ProtoOs.Lib ProtoOs.Lib.Prog

variable {H : Type} (pf : Platform H)

/-! ## Reporting -/

/-- A protocol that does not mind what is shown, nor `PANICKING`. -/
def Reporting {γ : Type} (R : γ → Globals H → Globals H → γ → Prop) : Prop :=
  ∀ x g writer writerReady serial1 panicking,
    R x g { g with
      writer := writer, writerReady := writerReady, serial1 := serial1, panicking := panicking } x

section Reporting

variable {γ : Type} {R : γ → Globals H → Globals H → γ → Prop} {A : LockId → Prop}
  {Q : Unit → γ → Prop} {x : γ} (hR : Reporting R) (hwriter : WriterLocks A)
  (hserial : A .serial1)

include hR

theorem performAll_follows (as : List Access) (hQ : Q () x) :
    (performAll as : Code H Unit).Follows R A Q x := by
  induction as with
  | nil => exact hQ
  | cons a as ih =>
      refine Follows.then (Follows.attempt (y := x) (fun g _ g' hg => ?_) fun g _ => ?_) fun _ => ih
      · obtain ⟨w, _, hpair⟩ := Option.map_eq_some_iff.mp hg
        obtain ⟨_, rfl⟩ := Prod.mk.inj hpair
        exact ⟨hR x g w g.writerReady g.serial1 g.panicking, rfl⟩
      · exact hR x g g.writer g.writerReady g.serial1 g.panicking

theorem writeText_follows (text : List UInt8) (hQ : Q () x) :
    (writeText text : Code H Unit).Follows R A Q x := by
  induction text with
  | nil => exact hQ
  | cons b bs ih =>
      refine Follows.then (y := x) (fun g => ⟨x, ?_, performAll_follows hR _ rfl⟩) fun _ => ih
      exact hR x g g.writer g.writerReady g.serial1 g.panicking

theorem writeLines_follows (texts : List (List UInt8)) (hQ : Q () x) :
    (writeLines texts : Code H Unit).Follows R A Q x := by
  induction texts with
  | nil => exact hQ
  | cons text texts ih => exact Follows.then (writeText_follows hR _ rfl) fun _ => ih

include hserial

theorem report_follows (text : List UInt8) (hQ : Q () x) :
    (serialPrintln text : Code H Unit).Follows R A Q x :=
  serialPrintln_follows text hserial
    (fun g serial1 => hR x g g.writer g.writerReady serial1 g.panicking) hQ

include hwriter

omit hserial in
theorem withWriter_follows {p : Code H Unit} (hp : p.Follows R A Q x) :
    (withWriter p).Follows R A Q x :=
  Follows.then (Follows.callOnce hwriter.1
    (fun g => hR x g g.writer g.writerReady g.serial1 g.panicking)
    (fun g => hR x g g.writer true g.serial1 g.panicking) rfl) fun _ =>
    Follows.withLock hwriter.2 hp

theorem breakpointHandler_follows (hQ : Q () x) : (breakpointHandler pf).Follows R A Q x :=
  Follows.then (report_follows hR hserial _ rfl) fun _ =>
    withWriter_follows hR hwriter (writeText_follows hR _ hQ)

theorem fatalHandler_follows (e : Fatal) : (fatalHandler pf e).Follows R A Q x := by
  have henter : (enterFatalHandler : Code H Bool).Follows R A (fun _ x' => x' = x) x :=
    fun g => ⟨x, hR x g g.writer g.writerReady g.serial1 true, rfl⟩
  cases e with
  | panic message =>
      refine Follows.then henter fun reentrant => ?_
      split
      · trivial
      · refine Follows.then (report_follows hR hserial _ rfl) fun _ => ?_
        refine Follows.then (y := x) (withWriter_follows hR hwriter ?_) fun _ => trivial
        exact Follows.then (writeText_follows hR _ rfl) fun _ => writeText_follows hR _ rfl
  | exception exc address =>
      refine Follows.then henter fun reentrant => ?_
      split
      · exact Follows.then (report_follows hR hserial _ rfl) fun _ => trivial
      · refine Follows.then (report_follows hR hserial _ rfl) fun _ => ?_
        refine Follows.then (serialPrintLines_follows _ hserial
          (fun g serial1 => hR x g g.writer g.writerReady serial1 g.panicking) rfl) fun _ => ?_
        refine Follows.then (report_follows hR hserial _ rfl) fun _ => ?_
        refine Follows.then (y := x) (withWriter_follows hR hwriter ?_) fun _ => trivial
        exact Follows.then (writeText_follows hR _ rfl) fun _ => writeLines_follows hR _ rfl

end Reporting

/-! ## What a handler does -/

/-- The locks a handler may take. -/
def HandlerLock : LockId → Prop
  | .writer | .writerOnce | .serial1 | .scancodeQueue | .pics => True
  | .line | .shift | .memoryInfo | .heap => False

/-- All that changed is what is shown, that `WRITER` may have been built, and
`PANICKING`: the heap, the line, the Shift keys, the page tables and the
memory summary are what they were. -/
def Untouched (g g' : Globals H) : Prop :=
  g' = { g with
    writer := g'.writer, writerReady := g'.writerReady, serial1 := g'.serial1,
    panicking := g'.panicking }

def endOfKeyboardInterrupt : PicsOp := .notifyEndOfInterrupt keyboardInterruptVector

/-- How often the keyboard's interrupt has been acknowledged. -/
def Kernel.acknowledged (k : Kernel H) : Nat := k.pics.count endOfKeyboardInterrupt

/-- What a handler has still to do: bytes to read off the keyboard's port,
and interrupts to acknowledge. -/
structure Owing where
  reads : Nat
  acks : Nat

/-- An access of a handler: it pays off some of what is owing, the reads
first, and leaves alone what the main flow works on. -/
def Serves (x : Owing) (k k' : Kernel H) (x' : Owing) : Prop :=
  Untouched k.globals k'.globals ∧
    (∃ n, k'.port = k.port.drop n ∧ n + x'.reads = x.reads) ∧
    k'.acknowledged + x'.acks = k.acknowledged + x.acks ∧
    x'.acks ≤ x.acks ∧ (x.reads ≤ x.acks → x'.reads ≤ x'.acks)

/-- Only the keyboard's handler has anything to do besides reporting. -/
def owing : FrameKind → Owing
  | .irq => ⟨1, 1⟩
  | .trap => ⟨0, 0⟩
  | .fatal => ⟨0, 0⟩

theorem Serves.same (x : Owing) (k : Kernel H) {k' : Kernel H}
    (hglobals : Untouched k.globals k'.globals) (hport : k'.port = k.port)
    (hpics : k'.pics = k.pics) : Serves x k k' x := by
  have hack : k'.acknowledged = k.acknowledged := congrArg (List.count _) hpics
  exact ⟨hglobals, ⟨0, hport, Nat.zero_add _⟩, by rw [hack], le_rfl, id⟩

theorem keyboardInterruptHandler_serves :
    (keyboardInterruptHandler : KernelCode H Unit).Follows Serves HandlerLock
      (fun _ x => x = ⟨0, 0⟩) (owing .irq) := by
  have hport : (readPort : KernelCode H UInt8).Follows Serves HandlerLock
      (fun _ x => x = ⟨0, 1⟩) ⟨1, 1⟩ :=
    fun k => ⟨⟨0, 1⟩,
      ⟨rfl, ⟨1, (List.drop_one).symm, rfl⟩, rfl, le_rfl, fun _ => Nat.zero_le 1⟩, rfl⟩
  refine Follows.then hport fun scancode => ?_
  refine Follows.then (y := ⟨0, 1⟩) (Follows.withLock trivial
    (Follows.attempt (y := ⟨0, 1⟩) (fun k _ k' hk => ?_) fun k _ => .same _ _ rfl rfl rfl))
    fun _ => ?_
  · obtain ⟨queue, _, hpair⟩ := Option.map_eq_some_iff.mp hk
    obtain ⟨_, rfl⟩ := Prod.mk.inj hpair
    exact ⟨.same _ _ rfl rfl rfl, rfl⟩
  · refine Follows.withLock trivial (Follows.modify (y := ⟨0, 0⟩) (fun k => ?_) rfl)
    refine ⟨rfl, ⟨0, rfl, rfl⟩, ?_, Nat.zero_le 1, fun _ => le_rfl⟩
    show (k.pics ++ [endOfKeyboardInterrupt]).count endOfKeyboardInterrupt + 0 =
      k.pics.count endOfKeyboardInterrupt + 1
    rw [List.count_append, List.count_singleton_self, Nat.add_zero]

/-- What reporting does to a whole kernel. -/
theorem serves_reporting : Reporting
    (fun x (g g' : Globals H) x' =>
      ∀ k, Kernel.globalsLens.get k = g → Serves x k (Kernel.globalsLens.set g' k) x') := by
  rintro x g writer writerReady serial1 panicking k rfl
  exact .same _ _ rfl rfl rfl

/-! ## What the main flow does -/

/-- What the main flow leaves to the keyboard's handler. -/
def keyboardView (k : Kernel H) : List UInt8 × Nat := (k.port, k.acknowledged)

theorem onGlobals_fixes {α : Type} (p : Code H α) : (onGlobals p).Fixes keyboardView :=
  Fixes.zoom_of _ (fun _ _ => rfl) p

theorem picsOp_fixes {op : PicsOp} (hop : op ≠ endOfKeyboardInterrupt) :
    (picsOp op : KernelCode H Unit).Fixes keyboardView := by
  refine Fixes.withLock (Fixes.modify fun k => ?_)
  refine congrArg (Prod.mk k.port) ?_
  show (k.pics ++ [op]).count endOfKeyboardInterrupt = k.pics.count endOfKeyboardInterrupt
  rw [List.count_append, List.count_singleton, if_neg (by simpa using hop), Nat.add_zero]

theorem block_fixes (p : Pc) : (block pf p).Fixes keyboardView := by
  cases p with
  | boot =>
      have hinit : (init pf).Fixes keyboardView := by
        refine Fixes.bind (onGlobals_fixes _) fun _ => Fixes.bind (onGlobals_fixes _) fun _ => ?_
        refine Fixes.bind (Fixes.bind (Fixes.modify fun _ => rfl) fun _ =>
          Fixes.bind (picsOp_fixes (by decide)) fun _ => picsOp_fixes (by decide)) fun _ => ?_
        exact Fixes.bind (onGlobals_fixes _) fun _ => Fixes.bind (onGlobals_fixes _) fun _ =>
          Fixes.bind (onGlobals_fixes _) fun _ => onGlobals_fixes _
      have hboot : (boot pf).Fixes keyboardView :=
        Fixes.bind hinit fun _ => Fixes.bind (onGlobals_fixes _) fun _ =>
          Fixes.bind (onGlobals_fixes _) fun _ => Fixes.bind (onGlobals_fixes _) fun _ =>
            onGlobals_fixes _
      exact Fixes.bind hboot fun _ => trivial
  | head =>
      intro b
      cases b <;> trivial
  | drain enabled =>
      have hnext : (nextScancode : KernelCode H (Option UInt8)).Fixes keyboardView := by
        refine Fixes.withLock (Fixes.attempt fun k _ k' hk => ?_)
        obtain ⟨_, _, hpair⟩ := Option.map_eq_some_iff.mp hk
        obtain ⟨_, rfl⟩ := Prod.mk.inj hpair
        rfl
      refine Fixes.bind hnext fun scancode => ?_
      cases scancode with
      | none => trivial
      | some scancode => exact Fixes.bind (onGlobals_fixes _) fun _ => trivial
  | leave enabled => cases enabled <;> trivial

theorem system_discipline :
    Discipline (system pf) keyboardView Serves HandlerLock owing (· = ⟨0, 0⟩) where
  block := block_fixes pf
  irq _ := keyboardInterruptHandler_serves
  trap := Follows.zoom_of _
    (breakpointHandler_follows pf serves_reporting ⟨trivial, trivial⟩ trivial rfl)
  fatal e := Follows.zoom_of _
    (fatalHandler_follows pf serves_reporting ⟨trivial, trivial⟩ trivial e)

/-! ## Every run -/

section Runs

variable {buffer : Buffer} {crtc : Crtc} {heap : H} {mem : Paging.Mem}
  {port : List UInt8} {ls : List (Label Fatal Unit)} {m : Machine H}

/-- A main flow that still runs has never been struck by a fatal event. -/
theorem idle_of_main
    (hrun : Run (system pf).step (fun _ _ => True)
      (Machine.start pf (Kernel.start buffer crtc heap mem port)) ls m)
    (hf : m.frames = []) : Run (system pf).step (IdleRun false)
      (Machine.start pf (Kernel.start buffer crtc heap mem port)) ls m := by
  refine hrun.calm (fun m l hl => ?_) (by simp [hf])
  cases l with
  | tick => trivial
  | irq i => exact fun h => absurd h (by decide)
  | fatal e => exact absurd rfl (hl e)

/-- It finds every lock it wants free. -/
theorem main_unblocked
    (hrun : Run (system pf).step (fun _ _ => True)
      (Machine.start pf (Kernel.start buffer crtc heap mem port)) ls m)
    (hf : m.frames = []) : ¬m.Blocked := by
  have hinv := loop_inv pf (idle_loopInv pf false _) (idle_of_main pf hrun hf)
  refine hinv.not_blocked (fun p l c h => ?_) fun _ _ h => h
  cases p <;> exact h

/-- No handler of the IDT touches what the main flow works on. In every run,
whatever interrupts and fatal events are delivered and however deep they
nest: a handler takes only the locks of the screen, the serial port, the
queue and the controllers; entering one, its instructions and its return
change nothing of `Globals` but what is shown and `PANICKING`; and so the
lock of the allocator, and any other a handler has no business with, is free
whenever it is wanted. -/
theorem handlers_leave_main_state
    (hrun : Run (system pf).step (fun _ _ => True)
      (Machine.start pf (Kernel.start buffer crtc heap mem port)) ls m) :
    (m.frames ≠ [] → ∀ l, m.wants = some l → HandlerLock l) ∧
      (∀ l m', (system pf).step m l = some m' → m.frames ≠ [] ∨ m'.frames ≠ [] →
        Untouched m.cfg.data.globals m'.cfg.data.globals) ∧
      ∀ l, m.halted = false → m.wants = some l → ¬HandlerLock l → m.cfg.held l = false := by
  obtain ⟨xs, hxs, _⟩ := (system_discipline pf).run rfl (block_fixes pf .boot)
    (J := fun _ _ _ => True) trivial (fun _ _ => trivial) hrun
  have hwants : m.frames ≠ [] → ∀ l, m.wants = some l → HandlerLock l :=
    fun hne l hw => Discipline.wants hxs hne hw
  refine ⟨hwants, fun l m' hn hne => ?_, fun l hh hw hl => ?_⟩
  · have hsame : m'.cfg.data = m.cfg.data →
        Untouched m.cfg.data.globals m'.cfg.data.globals := fun hdata => by
      rw [hdata]
      rfl
    obtain ⟨xs', _, hmoves⟩ := (system_discipline pf).step hxs hn
    cases hmoves with
    | main hf hf' _ => exact absurd hne (by simp [hf, hf'])
    | enters _ hdata _ => exact hsame hdata
    | acts hR _ => exact hR.elim And.left fun h => hsame h.2
    | returns _ hdata _ => exact hsame hdata
  · have hf : m.frames = [] := Classical.byContradiction fun hne => hl (hwants hne l hw)
    cases hheld : m.cfg.held l with
    | false => rfl
    | true => exact absurd ⟨hh, l, hw, hheld⟩ (main_unblocked pf hrun hf)

end Runs

/-- A key wakes the machine once a line has been executed, a page fault
strikes its handler, and another one the handler of the first, where that
wants the serial port. -/
theorem handlers_leave_main_state_nested :
    ∃ ls m, Run (system smallPlatform).step (fun _ _ => True)
        (smallStart [0x18, 0x17, 0x1C, 0x1E]) ls m ∧
      m.frames.map Frame.kind = [.fatal, .fatal, .irq] ∧ m.wants = some .serial1 ∧
      HandlerLock .serial1 ∧ ∀ l m', (system smallPlatform).step m l = some m' →
        Untouched m.cfg.data.globals m'.cfg.data.globals := by
  obtain ⟨ls, _, _, _, _, _, _, _, hwake, _, _⟩ :=
    oi_wakes (G := fun _ _ => True) ⟨fun _ => trivial, fun _ _ => trivial⟩
  obtain ⟨m, hrun, hkinds, hw⟩ : ∃ m, Run (system smallPlatform).step (fun _ _ => True)
      (smallStart [0x18, 0x17, 0x1C, 0x1E])
      (ls ++ [.fatal pageFault] ++ [.tick] ++ [.fatal pageFault] ++ [.tick] ++ [.tick]) m ∧
      m.frames.map Frame.kind = [.fatal, .fatal, .irq] ∧ m.wants = some .serial1 :=
    ⟨_, ((((hwake.snoc trivial rfl).snoc trivial rfl).snoc trivial rfl).snoc trivial rfl).snoc
      trivial rfl, rfl, rfl⟩
  have hne : m.frames ≠ [] := by
    intro hf
    rw [hf] at hkinds
    cases hkinds
  obtain ⟨hwants, hsteps, _⟩ := handlers_leave_main_state smallPlatform hrun
  exact ⟨_, m, hrun, hkinds, hw, hwants hne _ hw, fun l m' hn => hsteps l m' hn (.inl hne)⟩

/-! ## Every interrupt is served -/

def isIrq : Label Fatal Unit → Bool
  | .irq _ => true
  | .tick => false
  | .fatal _ => false

/-- How many interrupts a run has delivered. -/
def irqs (ls : List (Label Fatal Unit)) : Nat := ls.countP isIrq

theorem irqs_snoc (ls : List (Label Fatal Unit)) (l : Label Fatal Unit) :
    irqs (ls ++ [l]) = irqs ls + if isIrq l then 1 else 0 := by
  rw [irqs, List.countP_append, List.countP_singleton]
  rfl

/-- What the frames still owe is what separates the interrupts delivered from
the bytes read and the acknowledgements made. -/
def Balanced (stream : List UInt8) (ls : List (Label Fatal Unit)) (m : Machine H)
    (xs : List Owing) : Prop :=
  (∃ n, m.cfg.data.port = stream.drop n ∧ n + (xs.map Owing.reads).sum = irqs ls) ∧
    m.cfg.data.acknowledged + (xs.map Owing.acks).sum = irqs ls ∧
    List.Forall₂ (fun kind x => x.reads ≤ x.acks ∧ x.acks ≤ (owing kind).acks) m.kinds xs

section Balanced

variable {stream : List UInt8} {ls : List (Label Fatal Unit)} {m m' : Machine H}
  {xs xs' : List Owing} {l : Label Fatal Unit}

/-- Of what is owing, the reads come first, and only interrupt handlers owe
anything. -/
theorem Balanced.bounds (h : Balanced stream ls m xs) :
    (xs.map Owing.reads).sum ≤ (xs.map Owing.acks).sum ∧
      (xs.map Owing.acks).sum ≤ m.kinds.count .irq := by
  obtain ⟨_, _, hframes⟩ := h
  revert hframes
  generalize m.kinds = kinds
  intro hframes
  clear * - hframes
  induction hframes with
  | nil => exact ⟨le_rfl, le_rfl⟩
  | @cons kind x kinds xs hx _ ih =>
      have hkind : (owing kind).acks + kinds.count .irq = (kind :: kinds).count .irq := by
        cases kind <;> simp [owing, Nat.add_comm]
      simp only [List.map_cons, List.sum_cons]
      omega

theorem Balanced.moves (h : Balanced stream ls m xs)
    (hmoves : Moves keyboardView Serves owing (· = ⟨0, 0⟩) m m' l xs xs') :
    Balanced stream (ls ++ [l]) m' xs' := by
  obtain ⟨⟨n, hport, hreads⟩, hacks, hframes⟩ := h
  cases hmoves with
  | main hf hf' hv =>
      obtain ⟨hport', hack'⟩ := Prod.mk.inj hv
      refine ⟨⟨n, hport'.trans hport, ?_⟩, ?_, ?_⟩
      · rw [irqs_snoc]
        exact hreads
      · rw [irqs_snoc, hack']
        exact hacks
      · simp only [Cpu.kinds, hf']
        exact .nil
  | @enters l kind xs hkind hdata hkinds =>
      have hl : (if isIrq l then 1 else 0) = (owing kind).reads ∧
          (owing kind).reads = (owing kind).acks := by
        cases l <;> cases kind <;> simp_all [isIrq, owing]
      rw [← hdata] at hport hacks
      refine ⟨⟨n, hport, ?_⟩, ?_, ?_⟩
      · rw [irqs_snoc, hl.1, List.map_cons, List.sum_cons]
        omega
      · rw [irqs_snoc, hl.1, List.map_cons, List.sum_cons]
        omega
      · rw [hkinds]
        exact .cons ⟨hl.2.le, le_rfl⟩ hframes
  | @acts x x' xs hR hkinds =>
      have hserves : Serves x m.cfg.data m'.cfg.data x' := by
        rcases hR with hR | ⟨rfl, hdata⟩
        · exact hR
        · rw [hdata]
          exact .same _ _ rfl rfl rfl
      obtain ⟨_, ⟨r, hport', hr⟩, hack', hle, hfirst⟩ := hserves
      simp only [List.map_cons, List.sum_cons] at hreads hacks
      refine ⟨⟨n + r, ?_, ?_⟩, ?_, ?_⟩
      · rw [hport', hport, List.drop_drop]
      · rw [irqs_snoc, List.map_cons, List.sum_cons]
        show n + r + (x'.reads + _) = irqs ls
        omega
      · rw [irqs_snoc, List.map_cons, List.sum_cons]
        show _ = irqs ls
        omega
      · rw [hkinds]
        generalize m.kinds = kinds at hframes ⊢
        cases hframes with
        | cons hx hxs => exact .cons ⟨hfirst hx.1, hle.trans hx.2⟩ hxs
  | @returns kind x xs hx hdata hkinds =>
      obtain rfl : x = ⟨0, 0⟩ := hx
      rw [← hdata] at hport hacks
      rw [hkinds] at hframes
      simp only [List.map_cons, List.sum_cons, Nat.zero_add] at hreads hacks
      refine ⟨⟨n, hport, ?_⟩, ?_, ?_⟩
      · rw [irqs_snoc]
        exact hreads
      · rw [irqs_snoc]
        exact hacks
      · cases hframes with
        | cons _ hxs => exact hxs

end Balanced

/-! ## What the controllers are told -/

/-- How boot programs the controllers: once, with every line but that of the
keyboard masked. -/
def programmed : List PicsOp := [.initPics, .writeMasks masterPicMask slavePicMask]

/-- After that, only acknowledgements. -/
def Programmed (k : Kernel H) : Prop :=
  ∃ n, k.pics = programmed ++ List.replicate n endOfKeyboardInterrupt

theorem boot_programs : Triple (trapRun pf) (fun k => k.pics = []) (boot pf)
    fun _ k => k.pics = programmed := by
  have hglobals : ∀ (pics : List PicsOp) {α : Type} (p : Code H α),
      (onGlobals p).Keeps (trapRun pf) fun k => k.pics = pics :=
    fun pics _ p => Keeps.zoom Kernel.globalsLens (trapRun_within pf) (fun _ _ h => h) p
  have hpics : ∀ (pics : List PicsOp) (op : PicsOp), Triple (trapRun pf)
      (fun k => k.pics = pics) (picsOp op) fun _ k => k.pics = pics ++ [op] := by
    intro pics op
    refine Triple.withLock (Triple.modify fun k hk => ?_)
    exact congrArg (· ++ [op]) hk
  have hinit : Triple (trapRun pf) (fun k => k.pics = []) (init pf)
      fun _ k => k.pics = programmed := by
    refine Triple.bind (hglobals _ _) fun _ => Triple.bind (hglobals _ _) fun _ => ?_
    refine Triple.bind (Triple.bind (Triple.modify fun _ h => h) fun _ =>
      Triple.bind (hpics [] _) fun _ => hpics _ _) fun _ => ?_
    exact Triple.bind (hglobals _ _) fun _ => Triple.bind (hglobals _ _) fun _ =>
      Triple.bind (hglobals _ _) fun _ => hglobals _ _
  exact Triple.bind hinit fun _ => Triple.bind (hglobals _ _) fun _ =>
    Triple.bind (hglobals _ _) fun _ => Triple.bind (hglobals _ _) fun _ => hglobals _ _

theorem keyboardInterruptHandler_programmed :
    (keyboardInterruptHandler : KernelCode H Unit).Keeps Outcome.halt Programmed := by
  refine Keeps.bind (Keeps.act (fun _ h => h) fun _ => Triple.ret fun _ h => h) fun scancode => ?_
  refine Keeps.bind (Triple.withLock (Triple.attempt fun k _ k' h hk => ?_)) fun _ =>
    Triple.withLock (Triple.modify fun k h => ?_)
  · obtain ⟨q, _, hq⟩ := Option.map_eq_some_iff.mp hk
    obtain ⟨_, rfl⟩ := Prod.mk.inj hq
    exact h
  · obtain ⟨n, hn⟩ := h
    refine ⟨n + 1, ?_⟩
    show k.pics ++ [endOfKeyboardInterrupt] = _
    rw [hn, List.replicate_succ', List.append_assoc]

theorem programmed_loopInv (k₀ : Kernel H) (h₀ : k₀.pics = []) :
    LoopInv pf false k₀ Programmed (IdleRun false) where
  boot hrun _ _ := ⟨0, by simpa using boot_programs pf (entryCfg k₀) _ _ h₀ hrun⟩
  turn hJ _ hdata _ _ hrun _ _ := by
    refine Keeps.zoom Kernel.globalsLens (trapRun_within pf) (fun _ _ h => h) _ _ _ _ ?_ hrun
    rw [hdata]
    exact hJ
  irq _ _ hJ hrun := keyboardInterruptHandler_programmed (Cfg.closeIf _) _ _ hJ hrun
  quiet_ok _ h := absurd h (by decide)
  no_fatal h := h

/-! ## Every run -/

theorem keyboardInterruptHandler_shut : (keyboardInterruptHandler : KernelCode H Unit).Shut :=
  Shut.bind (.act fun _ => .ret _) fun _ =>
    Shut.bind (Shut.withLock (Shut.attempt _ _)) fun _ => Shut.withLock (Shut.modify _)

theorem writeText_shut (text : List UInt8) : (writeText text : Code H Unit).Shut := by
  have hall : ∀ as, (performAll as : Code H Unit).Shut := by
    intro as
    induction as with
    | nil => exact .ret ()
    | cons a as ih => exact Shut.bind (Shut.attempt _ _) fun _ => ih
  induction text with
  | nil => exact .ret ()
  | cons b bs ih => exact Shut.bind (.act fun g => hall _) fun _ => ih

theorem withWriter_shut {p : Code H Unit} (hp : p.Shut) : (withWriter p).Shut :=
  Shut.bind (Shut.callOnce _ _ _) fun _ => Shut.withLock hp

theorem writeLines_shut (texts : List (List UInt8)) : (writeLines texts : Code H Unit).Shut := by
  induction texts with
  | nil => exact .ret ()
  | cons text texts ih => exact Shut.bind (writeText_shut _) fun _ => ih

theorem serialPrintln_shut (text : List UInt8) : (serialPrintln text : Code H Unit).Shut := by
  have hsend : ∀ text, (sendText text : Code H Unit).Shut := by
    intro text
    induction text with
    | nil => exact .ret ()
    | cons b bs ih => exact Shut.bind (Shut.modify _) fun _ => ih
  exact Shut.withoutInterrupts (Shut.withLock (hsend _))

theorem serialPrintLines_shut (texts : List (List UInt8)) :
    (serialPrintLines texts : Code H Unit).Shut := by
  induction texts with
  | nil => exact .ret ()
  | cons text texts ih => exact Shut.bind (serialPrintln_shut _) fun _ => ih

theorem fatalHandler_shut (e : Fatal) : (fatalHandler pf e).Shut := by
  have henter : (enterFatalHandler : Code H Bool).Shut := .act fun g => .ret g.panicking
  cases e with
  | panic message =>
      refine Shut.bind henter fun reentrant => ?_
      split
      · exact .haltLoop
      · refine Shut.bind (serialPrintln_shut _) fun _ => ?_
        refine Shut.bind (withWriter_shut ?_) fun _ => .haltLoop
        exact Shut.bind (writeText_shut _) fun _ => writeText_shut _
  | exception x address =>
      refine Shut.bind henter fun reentrant => ?_
      split
      · exact Shut.bind (serialPrintln_shut _) fun _ => .haltLoop
      · refine Shut.bind (serialPrintln_shut _) fun _ =>
          Shut.bind (serialPrintLines_shut _) fun _ => Shut.bind (serialPrintln_shut _) fun _ => ?_
        refine Shut.bind (withWriter_shut ?_) fun _ => .haltLoop
        exact Shut.bind (writeText_shut _) fun _ => writeLines_shut _

section Runs

variable {buffer : Buffer} {crtc : Crtc} {heap : H} {mem : Paging.Mem}
  {stream : List UInt8} {ls : List (Label Fatal Unit)} {m : Machine H}

/-- Every interrupt is served once. In every run, whatever fatal events
strike and wherever: the bytes taken off the keyboard's port are the first of
the stream, at most one for each interrupt delivered; each is taken before
its interrupt is acknowledged; at most one interrupt is waiting for its
acknowledgement, and none where no interrupt handler is on the stack. Between
two turns of the loop, all the controllers were ever told is how boot
programs them and one acknowledgement for each interrupt. -/
theorem interrupts_served
    (hrun : Run (system pf).step (fun _ _ => True)
      (Machine.start pf (Kernel.start buffer crtc heap mem stream)) ls m) :
    (∃ read, m.cfg.data.port = stream.drop read ∧ m.cfg.data.acknowledged ≤ read ∧
      read ≤ irqs ls) ∧
    irqs ls ≤ m.cfg.data.acknowledged + 1 ∧
    (.irq ∉ m.kinds → m.cfg.data.acknowledged = irqs ls ∧
      m.cfg.data.port = stream.drop (irqs ls)) ∧
    (m.frames = [] → (m.pc = .head ∨ ∃ enabled, m.pc = .leave enabled) →
      m.cfg.data.pics = programmed ++ List.replicate (irqs ls) endOfKeyboardInterrupt) := by
  obtain ⟨xs, _, hbalanced⟩ := (system_discipline pf).run rfl (block_fixes pf .boot)
    (J := Balanced stream) ⟨⟨0, rfl, rfl⟩, rfl, .nil⟩ (fun h hmoves => h.moves hmoves) hrun
  obtain ⟨hfirst, hcount⟩ := hbalanced.bounds
  obtain ⟨⟨read, hport, hreads⟩, hacks, _⟩ := hbalanced
  have halone : m.kinds.count .irq ≤ 1 :=
    (hrun.alone (fun _ => keyboardInterruptHandler_shut)
      (fun e => Shut.zoom _ (fatalHandler_shut pf e)) rfl).count_le
  have hserved : .irq ∉ m.kinds → m.cfg.data.acknowledged = irqs ls ∧
      m.cfg.data.port = stream.drop (irqs ls) := by
    intro hnone
    rw [List.count_eq_zero.mpr hnone] at hcount
    refine ⟨by omega, ?_⟩
    rw [hport]
    exact congrArg stream.drop (by omega)
  refine ⟨⟨read, hport, by omega, by omega⟩, by omega, hserved, fun hf hpc => ?_⟩
  have hinv := loop_inv pf (programmed_loopInv pf _ rfl) (idle_of_main pf hrun hf)
  obtain ⟨n, hn⟩ := loop_between pf hinv hf hpc
  have hack : m.cfg.data.acknowledged = n := by
    rw [Kernel.acknowledged, hn, List.count_append, List.count_replicate_self]
    exact Nat.zero_add n
  rw [hn, ← hack, (hserved (by simp [Cpu.kinds, hf])).1]

end Runs

/-- A line is typed in a burst and executed; the next key wakes the machine,
and a page fault strikes its handler once the byte is read. -/
theorem interrupts_served_struck :
    ∃ ls m, Run (system smallPlatform).step (fun _ _ => True)
        (smallStart [0x18, 0x17, 0x1C, 0x1E]) ls m ∧
      m.kinds = [.fatal, .irq] ∧ m.cfg.data.globals.executed = [bytes "oi"] ∧
      m.cfg.data.port = [] ∧ 4 ≤ irqs ls ∧ 3 ≤ m.cfg.data.acknowledged := by
  obtain ⟨ls, g, _, _, _, _, _, _, hwake, _, hran⟩ :=
    oi_wakes (G := fun _ _ => True) ⟨fun _ => trivial, fun _ _ => trivial⟩
  obtain ⟨m, hrun, hkinds, hexecuted, hport⟩ : ∃ m,
      Run (system smallPlatform).step (fun _ _ => True) (smallStart [0x18, 0x17, 0x1C, 0x1E])
        (ls ++ [.fatal pageFault]) m ∧
      m.kinds = [.fatal, .irq] ∧ m.cfg.data.globals.executed = g.executed ∧
      m.cfg.data.port = [] :=
    ⟨_, hwake.snoc trivial rfl, rfl, rfl, rfl⟩
  obtain ⟨⟨read, hread, _, hirqs⟩, hacks, _⟩ := interrupts_served smallPlatform hrun
  have hall : 4 ≤ read := List.drop_eq_nil_iff.mp (hread.symm.trans hport)
  exact ⟨_, m, hrun, hkinds, hexecuted.trans hran, hport, by omega, by omega⟩

end ProtoOs.Ref
