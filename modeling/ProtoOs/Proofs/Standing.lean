import ProtoOs.Lib.Standing
import ProtoOs.Proofs.Closed
import ProtoOs.Proofs.Handlers
import ProtoOs.Proofs.PowerOn

/-!
# The heap stays mapped

`memory::init` sets up the page tables and the summary `mem` prints, and
nothing in the kernel writes either again: no command, no handler, no fatal
path. So what `init_heap` has made of the address space holds of every state
after boot, in the middle of a command and under any pile of handlers.
-/

namespace ProtoOs.Ref

open ProtoOs.Lib ProtoOs.Lib.Prog ProtoOs.Lib.Paging
open ProtoOs.Ref.Frames ProtoOs.Ref.Mapping BootInfoFrameAllocator

variable {H : Type} (pf : Platform H)

/-- What boot sets up for good. -/
def Globals.standing (g : Globals H) : Mem × Option MemoryInfo := (g.mem, g.memoryInfo)

/-! ## Nothing writes it -/

theorem standing_commandFree : CommandFree (Globals.standing : Globals H → _) where
  writer _ _ := rfl
  writerReady _ _ := rfl
  serial1 _ _ := rfl
  heap _ _ := rfl

theorem runLine_standing : (runLine pf).Fixes Globals.standing := by
  refine Fixes.bind (standing_commandFree.print _) fun _ => Fixes.withLock ?_
  refine Fixes.bind (Fixes.attempt fun g line g' hg => ?_) fun line => ?_
  · obtain ⟨_, _, hg⟩ := Option.map_eq_some_iff.mp hg
    obtain ⟨_, rfl⟩ := Prod.mk.inj hg
    rfl
  · refine Fixes.bind (Fixes.bind (Fixes.modify fun _ => rfl) fun _ => ?_)
      fun _ => Fixes.modify fun _ => rfl
    dsimp only
    split
    · trivial
    · exact (standing_commandFree.commands pf).dispatch _ _

theorem feed_standing (byte : UInt8) : (feed pf byte).Fixes Globals.standing := by
  refine Fixes.bind (Fixes.modify fun _ => rfl) fun _ => ?_
  split
  · exact Fixes.bind (runLine_standing pf) fun _ => standing_commandFree.print _
  · split
    · refine Fixes.bind (Fixes.withLock ⟨fun _ => rfl, fun _ => trivial⟩) fun popped => ?_
      cases popped with
      | true => exact standing_commandFree.backspace
      | false => trivial
    · split
      · refine Fixes.bind (Fixes.withLock (Fixes.attempt fun g ok g' hg => ?_)) fun pushed => ?_
        · obtain ⟨_, _, hg⟩ := Option.map_eq_some_iff.mp hg
          obtain ⟨_, rfl⟩ := Prod.mk.inj hg
          rfl
        · cases pushed with
          | true => exact standing_commandFree.print _
          | false => trivial
      · trivial

theorem process_standing (scancode : UInt8) : (process pf scancode).Fixes Globals.standing := by
  have hset : ∀ f : Globals H → Globals H, (∀ g, (f g).standing = g.standing) →
      ((withLock .shift (modify f)).bind fun _ => ret none : Code H (Option UInt8)).Fixes
        Globals.standing :=
    fun f hf => Fixes.bind (Fixes.withLock (Fixes.modify hf)) fun _ => trivial
  refine Fixes.bind ?_ fun byte => ?_
  · unfold translate
    repeat' split
    · exact hset _ fun _ => rfl
    · exact hset _ fun _ => rfl
    · exact hset _ fun _ => rfl
    · exact hset _ fun _ => rfl
    · trivial
    · exact Fixes.bind (Fixes.withLock ⟨fun _ => rfl, fun _ => trivial⟩) fun _ => trivial
  · cases byte with
    | none => trivial
    | some byte => exact feed_standing pf byte

theorem serialPrintLines_standing (texts : List (List UInt8)) :
    (serialPrintLines texts : Code H Unit).Fixes Globals.standing := by
  induction texts with
  | nil => trivial
  | cons text texts ih => exact Fixes.bind (standing_commandFree.serialPrint _) fun _ => ih

theorem writeLines_standing (texts : List (List UInt8)) :
    (writeLines texts : Code H Unit).Fixes Globals.standing := by
  induction texts with
  | nil => trivial
  | cons text texts ih => exact Fixes.bind (standing_commandFree.writeText _) fun _ => ih

theorem fatalHandler_standing (e : Fatal) : (fatalHandler pf e).Fixes Globals.standing := by
  have henter : (enterFatalHandler : Code H Bool).Fixes Globals.standing :=
    ⟨fun _ => rfl, fun _ => trivial⟩
  cases e with
  | panic message =>
      refine Fixes.bind henter fun reentrant => ?_
      cases reentrant with
      | true => trivial
      | false =>
          refine Fixes.bind (standing_commandFree.serialPrint _) fun _ => ?_
          exact Fixes.bind (standing_commandFree.withWriter
            (Fixes.bind (standing_commandFree.writeText _) fun _ =>
              standing_commandFree.writeText _)) fun _ => trivial
  | exception x address =>
      refine Fixes.bind henter fun reentrant => ?_
      cases reentrant with
      | true => exact Fixes.bind (standing_commandFree.serialPrint _) fun _ => trivial
      | false =>
          refine Fixes.bind (standing_commandFree.serialPrint _) fun _ => ?_
          refine Fixes.bind (serialPrintLines_standing _) fun _ => ?_
          refine Fixes.bind (standing_commandFree.serialPrint _) fun _ => ?_
          exact Fixes.bind (standing_commandFree.withWriter
            (Fixes.bind (standing_commandFree.writeText _) fun _ =>
              writeLines_standing _)) fun _ => trivial

def Kernel.standing (k : Kernel H) : Mem × Option MemoryInfo := k.globals.standing

theorem onGlobals_standing {α : Type} {p : Code H α} (hp : p.Fixes Globals.standing) :
    (onGlobals p).Fixes Kernel.standing := Fixes.zoom Kernel.globalsLens hp

theorem picsOp_standing (op : PicsOp) : (picsOp op : KernelCode H Unit).Fixes Kernel.standing :=
  Fixes.withLock (Fixes.modify fun _ => rfl)

theorem keyboardInterruptHandler_standing :
    (keyboardInterruptHandler : KernelCode H Unit).Fixes Kernel.standing := by
  have hread : (readPort : KernelCode H UInt8).Fixes Kernel.standing :=
    ⟨fun _ => rfl, fun _ => trivial⟩
  refine Fixes.bind hread fun scancode => Fixes.bind (Fixes.withLock ?_) fun _ => picsOp_standing _
  refine Fixes.attempt fun k _ k' hk => ?_
  obtain ⟨_, _, hk⟩ := Option.map_eq_some_iff.mp hk
  obtain ⟨_, rfl⟩ := Prod.mk.inj hk
  rfl

/-- Only boot writes it. -/
theorem system_reads : Reads (system pf) Kernel.standing (· = .boot) where
  block p hp := by
    cases p with
    | boot => exact absurd rfl hp
    | head =>
        intro b
        cases b <;> trivial
    | drain enabled =>
        refine Fixes.bind (Fixes.withLock (Fixes.attempt fun k _ k' hk => ?_)) fun scancode => ?_
        · obtain ⟨_, _, hk⟩ := Option.map_eq_some_iff.mp hk
          obtain ⟨_, rfl⟩ := Prod.mk.inj hk
          rfl
        · cases scancode with
          | none => trivial
          | some scancode =>
              exact Fixes.bind (onGlobals_standing (process_standing pf scancode)) fun _ => trivial
    | leave enabled => cases enabled <;> trivial
  irq _ := keyboardInterruptHandler_standing
  trap := onGlobals_standing (standing_commandFree.breakpointHandler pf)
  fatal e := onGlobals_standing (fatalHandler_standing pf e)

/-! ## Boot leaves it -/

/-- It is what `memory::init` has made of the page tables the loader left. -/
def SetUp (mem : Mem) (x : Mem × Option MemoryInfo) : Prop :=
  ∃ mi, memoryInit pf.memoryMap pf.root mem = some mi ∧ x = (mi.mem, some mi.info)

theorem trapRun_standing (c : Cfg LockId (Kernel H)) :
    (trapRun pf c).cfg.data.standing = c.data.standing := by
  have hrun : ((onGlobals (breakpointHandler pf)).run Outcome.halt c.closeIf).cfg.data.standing =
      c.data.standing :=
    (onGlobals_standing (standing_commandFree.breakpointHandler pf)).run (fun _ => rfl) c.closeIf
  unfold trapRun runGated
  cases hout : (onGlobals (breakpointHandler pf)).run Outcome.halt c.closeIf with
  | done a c' => rw [hout] at hrun; exact hrun
  | fault e c' => rw [hout] at hrun; exact hrun
  | spin l c' => rw [hout] at hrun; exact hrun
  | halt c' => rw [hout] at hrun; exact hrun

section Runs

variable {buffer : Buffer} {crtc : Crtc} {heap : H} {mem : Mem} {port : List UInt8}
  {c : Cfg LockId (Kernel H)}

theorem boot_standing (hrun : (boot pf).run (trapRun pf)
      (entryCfg (Kernel.start buffer crtc heap mem port)) = .done () c) :
    SetUp pf mem c.data.standing := by
  cases hmi : memoryInit pf.memoryMap pf.root mem with
  | none =>
      have hfaults : (boot pf).Faults (trapRun pf) (Kernel.start buffer crtc heap mem port)
          noLock false (memoryInitPanic pf mem) := boot_faults pf hmi
      exact absurd hrun (hfaults.not_done rfl rfl rfl)
  | some mi =>
      obtain ⟨rest, hboot, hrest⟩ : ∃ rest, boot pf = (init pf).bind rest ∧
          ∀ u, (rest u).Fixes Kernel.standing := by
        refine ⟨_, rfl, fun _ => ?_⟩
        refine Fixes.bind (onGlobals_standing standing_commandFree.clearScreen) fun _ => ?_
        refine Fixes.bind (onGlobals_standing ?_) fun _ => ?_
        · exact Fixes.bind (standing_commandFree.print _) fun _ =>
            Fixes.bind (standing_commandFree.print _) fun _ =>
            Fixes.bind (standing_commandFree.print _) fun _ => standing_commandFree.print _
        · exact Fixes.bind (onGlobals_standing (standing_commandFree.print _)) fun _ =>
            onGlobals_standing (standing_commandFree.serialPrint _)
      obtain ⟨d, hd, hdata, _⟩ := (init_leaves pf (trapRun_within pf) hmi).run_eq
        (c := entryCfg (Kernel.start buffer crtc heap mem port)) rfl rfl rfl
      rw [hboot, run_bind, hd] at hrun
      have hkept := (hrest ()).run (trapRun_standing pf) d
      rw [show (rest ()).run (trapRun pf) d = .done () c from hrun, hdata] at hkept
      exact ⟨mi, hmi, hkept⟩

/-- What it is where the loop goes round. -/
theorem standing_loopInv : LoopInv pf false (Kernel.start buffer crtc heap mem port)
    (fun k => SetUp pf mem k.standing) (IdleRun false) where
  boot hrun _ _ := boot_standing pf hrun
  turn {k q scancode c c'} hJ _ hdata _ _ hrun _ _ := by
    have hkept := (onGlobals_standing (process_standing pf scancode)).run (trapRun_standing pf) c
    rw [hrun, hdata] at hkept
    exact (show c'.data.standing = k.standing from hkept) ▸ hJ
  irq {m i c'} _ _ hJ hrun := by
    have hkept : ((keyboardInterruptHandler : KernelCode H Unit).run Outcome.halt
        m.cfg.closeIf).cfg.data.standing = m.cfg.closeIf.data.standing :=
      keyboardInterruptHandler_standing.run (fun _ => rfl) m.cfg.closeIf
    rw [hrun] at hkept
    exact (show c'.data.standing = m.cfg.data.standing from hkept) ▸ hJ
  quiet_ok _ h := absurd h (by decide)
  no_fatal hG := hG

variable {ls : List (Label Fatal Unit)} {m : Machine H}

/-- What it is in every state after boot. -/
theorem standing_setUp (hrun : Run (system pf).step (fun _ _ => True)
      (Machine.start pf (Kernel.start buffer crtc heap mem port)) ls m) (hpc : m.pc ≠ .boot) :
    SetUp pf mem m.cfg.data.standing := by
  have hstanding : m.Standing Kernel.standing (· = .boot) (SetUp pf mem) := by
    refine hrun.standing (system_reads pf) rfl rfl fun {ls m p} hrun hf hh hcode _ hp => ?_
    -- A main flow that comes to the end of boot has met no fatal event.
    have hwp := (Proof.inv_main hf hh).mp
      (loop_inv pf (standing_loopInv pf) (idle_of_main pf hrun hf))
    rw [hcode] at hwp
    cases p with
    | boot => exact absurd rfl hp
    | head => exact hwp.2.2
    | drain enabled => exact hwp.2.2.2
    | leave enabled => exact hwp.2.2.2.1
  exact (hstanding.main.resolve_left hpc).2

end Runs

/-! ## The heap -/

/-- All of the heap is mapped, no two addresses to the same place and none to
a page table, and every other address leads where it led before. -/
structure HeapMapped (root : Nat) (mem mem' : Mem) : Prop where
  maps : ∀ addr, InHeap addr → ∃ phys, translateAddr mem' root addr = some phys ∧
    ∀ js, ¬Path mem' root js (phys / 4096)
  inj : ∀ addr addr', InHeap addr → InHeap addr' →
    translateAddr mem' root addr = translateAddr mem' root addr' → addr = addr'
  others : ∀ addr < 2 ^ 48, ¬InHeap addr →
    translateAddr mem' root addr = translateAddr mem root addr

theorem heapMapped_of_mapped {root : Nat} {mem mem' : Mem} {frame : Nat → Nat} {ds : List Nat}
    (hm : Mapped root heapPages mem mem' frame ds) : HeapMapped root mem mem' where
  maps addr hin := by
    refine ⟨_, hm.maps (mem_heapPages.mpr hin), fun js => ?_⟩
    have hframe : (frame (addr / pageSize) * pageSize + addr % pageSize) / 4096 =
        frame (addr / pageSize) := by
      rw [pageSize]
      omega
    rw [hframe]
    exact hm.apart _ (mem_heapPages.mpr hin) js
  inj addr addr' hin hin' heq := by
    have hphys : frame (addr / 4096) * 4096 + addr % 4096 =
        frame (addr' / 4096) * 4096 + addr' % 4096 :=
      Option.some.inj ((hm.maps (mem_heapPages.mpr hin)).symm.trans
        (heq.trans (hm.maps (mem_heapPages.mpr hin'))))
    have hframe : frame (addr / 4096) = frame (addr' / 4096) := by omega
    have hpage : addr / 4096 = addr' / 4096 :=
      hm.inj _ (mem_heapPages.mpr hin) _ (mem_heapPages.mpr hin') hframe
    omega
  others addr hlt hout := by
    refine hm.others ?_ fun hmem => hout (mem_heapPages.mp hmem)
    rw [pageSize]
    omega

/-- What `memory::init` sets up, where the loader keeps its promises. -/
theorem Handover.setUp {mem : Mem} {x : Mem × Option MemoryInfo}
    (h : Handover pf.memoryMap pf.root mem) (hx : SetUp pf mem x) :
    HeapMapped pf.root mem x.1 ∧
      x.2 = some ⟨4096 * frames pf.memoryMap, heapStart, heapSize⟩ := by
  obtain ⟨mi, hmi, rfl⟩ := hx
  obtain ⟨r, hr, hmi⟩ := Option.bind_eq_some_iff.mp hmi
  split at hmi
  · cases hmi
  next hok =>
    rw [h.usableBytes_eq] at hmi
    obtain rfl := Option.some.inj hmi
    obtain ⟨frame, ds, _, hm⟩ := mapPages_mapped h.ready hr hok
    exact ⟨heapMapped_of_mapped hm, rfl⟩

/-- What `init_heap` has made of the address space stays so. On page tables
and a memory map as the loader promises them, in every run, whatever
interrupts and fatal events strike and wherever: from the end of boot on the
heap is mapped, to places of its own, everything else is as it was when the
kernel was entered, and the summary for `mem` counts every usable byte. -/
theorem heap_stays_mapped {buffer : Buffer} {crtc : Crtc} {heap : H} {mem : Mem}
    {port : List UInt8} {ls : List (Label Fatal Unit)} {m : Machine H}
    (h : Handover pf.memoryMap pf.root mem)
    (hrun : Run (system pf).step (fun _ _ => True)
      (Machine.start pf (Kernel.start buffer crtc heap mem port)) ls m) (hpc : m.pc ≠ .boot) :
    HeapMapped pf.root mem m.cfg.data.globals.mem ∧
      m.cfg.data.globals.memoryInfo =
        some ⟨4096 * frames pf.memoryMap, heapStart, heapSize⟩ :=
  h.setUp pf (standing_setUp pf hrun hpc)

/-- After a command, under a page fault in the handler of the next key. -/
theorem heap_stays_mapped_struck :
    ∃ ls m f g, Run (system smallPlatform).step (fun _ _ => True)
        (smallStart [0x18, 0x17, 0x1C, 0x1E]) ls m ∧
      m.frames = [f, g] ∧ f.kind = .fatal ∧ g.kind = .irq ∧
      m.cfg.data.globals.executed = [bytes "oi"] ∧
      ∃ phys, translateAddr m.cfg.data.globals.mem 0 (heapStart + 5000) = some phys := by
  obtain ⟨ls, globals, _, _, enabled, _, _, _, hwake, _, hran⟩ :=
    oi_wakes (G := fun _ _ => True) ⟨fun _ => trivial, fun _ _ => trivial⟩
  obtain ⟨m, f, g, hstruck, hframes, hf, hg, hpc, hglobals⟩ : ∃ m f g,
      Run (system smallPlatform).step (fun _ _ => True) (smallStart [0x18, 0x17, 0x1C, 0x1E])
        (ls ++ [.fatal pageFault]) m ∧
      m.frames = [f, g] ∧ f.kind = .fatal ∧ g.kind = .irq ∧ m.pc = .leave enabled ∧
      m.cfg.data.globals = globals :=
    ⟨_, _, _, hwake.snoc trivial rfl, rfl, rfl, rfl, rfl, rfl⟩
  have h : Handover smallPlatform.memoryMap smallPlatform.root emptyMem :=
    handover_emptyMem (by decide) (by decide)
  obtain ⟨hmapped, _⟩ := heap_stays_mapped smallPlatform h hstruck (by rw [hpc]; exact nofun)
  obtain ⟨phys, hphys, _⟩ := hmapped.maps (heapStart + 5000) ⟨by decide, by decide⟩
  exact ⟨_, m, f, g, hstruck, hframes, hf, hg, by rw [hglobals]; exact hran, phys, hphys⟩

end ProtoOs.Ref
