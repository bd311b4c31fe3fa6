import ProtoOs.Lib.Cpu
import ProtoOs.Ref.Interrupts
import ProtoOs.Ref.Shell

/-!
# The kernel as a system

`main.rs`, `lib.rs` and the keyboard half of `interrupts.rs`: the boot
sequence, the idle loop that drains the scancode queue with interrupts off
and then sleeps, and the IRQ1 handler that fills it.

The idle loop is cut where it can be entered: at its head, which reads and
closes the flag, at each turn of the drain inside `without_interrupts`, and
at the way out, which opens the flag if it was open and then runs
`sti; hlt`. The queue, the interrupt controllers and the keyboard's data
port belong to this level; everything else runs on `Globals` alone.

Until `interrupts::init` has loaded the IDT, an exception finds no handler
and the machine resets: no step of it. The breakpoints and interrupts of
this kernel all come later, so nothing has to be said of them. What a
`lazy_static` holds is what the loader leaves; only that of `WRITER` is seen
being built.
-/

namespace ProtoOs.Ref

open ProtoOs.Lib

/-- What is asked of the two interrupt controllers. -/
inductive PicsOp where
  | initPics
  | writeMasks (master slave : UInt8)
  | notifyEndOfInterrupt (vector : UInt8)
  deriving DecidableEq, Repr

structure Kernel (H : Type) where
  globals : Globals H
  queue : ScancodeQueue
  pics : List PicsOp
  /-- The scancodes the keyboard will hand over, one per IRQ1. -/
  port : List UInt8
  /-- Whether the processor has been told where the handlers are. -/
  idtLoaded : Bool

variable {H : Type} (pf : Platform H)

def Kernel.globalsLens : Lens (Kernel H) (Globals H) where
  get k := k.globals
  set g k := { k with globals := g }
  get_set _ _ := rfl
  set_get _ := rfl
  set_set _ _ _ := rfl

abbrev KernelCode (H α : Type) := Prog LockId (Kernel H) Fatal α

def onGlobals {α : Type} (p : Code H α) : KernelCode H α := p.zoom Kernel.globalsLens

/-! ## Scancodes -/

def pic1Offset : UInt8 := 32
def keyboardInterruptVector : UInt8 := pic1Offset + 1
def masterPicMask : UInt8 := 0b11111101
def slavePicMask : UInt8 := 0b11111111

/-- Port 0x60. The handler only runs when a byte is ready; a read without
one answers a zero here. -/
def readPort : KernelCode H UInt8 :=
  Prog.act (fun k => { k with port := k.port.tail }) fun k => pure (k.port.headD 0)

def picsOp (op : PicsOp) : KernelCode H Unit :=
  Prog.withLock .pics (Prog.modify fun k => { k with pics := k.pics ++ [op] })

def pushScancode (scancode : UInt8) : KernelCode H Unit :=
  Prog.withLock .scancodeQueue (Prog.attempt
    (fun k => (k.queue.push scancode).map fun queue => ((), { k with queue }))
    indexOutOfBounds)

def keyboardInterruptHandler : KernelCode H Unit := do
  let scancode ← readPort
  pushScancode scancode
  picsOp (.notifyEndOfInterrupt keyboardInterruptVector)

def nextScancode : KernelCode H (Option UInt8) :=
  Prog.withLock .scancodeQueue (Prog.attempt
    (fun k => k.queue.pop.map fun (scancode, queue) => (scancode, { k with queue }))
    indexOutOfBounds)

/-- One turn of the drain, once it has a scancode. -/
def process (scancode : UInt8) : Code H Unit := do
  let byte ← translate scancode
  match byte with
  | some byte => feed pf byte
  | none => pure ()

/-! ## Boot -/

def interruptsInit : KernelCode H Unit := do
  -- `IDT.load()`.
  Prog.modify fun k => { k with idtLoaded := true }
  picsOp .initPics
  picsOp (.writeMasks masterPicMask slavePicMask)

def bootMessage (info : MemoryInfo) : List UInt8 :=
  bytes "[boot] memoria inicializada: " ++ decimal (info.usableBytes / 1024) ++
    bytes " KiB utilizaveis, heap em " ++ hex info.heapStart ++ bytes " (" ++
    decimal (info.heapSize / 1024) ++ bytes " KiB)"

/-- `proto_os::init`. -/
def init : KernelCode H Unit := do
  onGlobals (serialPrintln (bytes "[boot] " ++ version ++ bytes " iniciado"))
  onGlobals (serialPrintln (bytes "[boot] gdt/tss ativos"))
  interruptsInit
  onGlobals (serialPrintln (bytes "[boot] interrupcoes ativas"))
  onGlobals (memoryInitCode pf)
  let info ← onGlobals memoryInfo
  onGlobals (serialPrintln (bootMessage info))

/-- `kernel_main` up to its loop. -/
def boot : KernelCode H Unit := do
  init pf
  onGlobals clearScreen
  onGlobals printWelcome
  onGlobals printPrompt
  onGlobals (serialPrintln (bytes "[boot] prompt pronto"))

/-! ## The idle loop -/

/-- The blocks of `kernel_main`. `drain` and `leave` carry the flag that
`without_interrupts` found. -/
inductive Pc where
  | boot
  | head
  | drain (enabled : Bool)
  | leave (enabled : Bool)
  deriving DecidableEq, Repr

def block : Pc → KernelCode H Pc
  | .boot => do
      boot pf
      pure .head
  | .head => Prog.readIf fun
      | true => Prog.cli (pure (.drain true))
      | false => pure (.drain false)
  | .drain enabled => do
      let scancode ← nextScancode
      match scancode with
      | some scancode => do
          onGlobals (process pf scancode)
          pure (.drain enabled)
      | none => pure (.leave enabled)
  | .leave true => Prog.sti (Prog.sti (Prog.hlt (pure .head)))
  | .leave false => Prog.sti (Prog.hlt (pure .head))

def system : System LockId (Kernel H) Fatal Unit Pc where
  block := block pf
  irq := fun _ => keyboardInterruptHandler
  trap := onGlobals (breakpointHandler pf)
  fatal := fun e => onGlobals (fatalHandler pf e)
  gate := Fatal.gated
  -- An exception needs the IDT; a panic is a call.
  delivers := fun k e => k.idtLoaded || !e.gated

/-- What the loader leaves: the statics as they are compiled in, over a
screen, a heap and page tables of its own. -/
def Kernel.start (buffer : Buffer) (crtc : Crtc) (heap : H) (mem : Paging.Mem)
    (port : List UInt8) : Kernel H where
  globals :=
    { writer := ⟨0, ColorCode.new .yellow .black, buffer, crtc⟩
      writerReady := false
      serial1 := []
      line := LineBuffer.new
      shift := ShiftState.new
      memoryInfo := none
      heap := heap
      mem := mem
      panicking := false
      fed := []
      executed := [] }
  queue := ScancodeQueue.new
  pics := []
  port := port
  idtLoaded := false

/-- The kernel is entered with interrupts off and no lock held. -/
def entryCfg (k : Kernel H) : Cfg LockId (Kernel H) :=
  ⟨k, fun _ => false, false, false⟩

abbrev Machine (H : Type) := Cpu LockId (Kernel H) Fatal Pc

def Machine.start (k : Kernel H) : Machine H where
  cfg := entryCfg k
  halted := false
  pc := .boot
  code := block pf .boot
  frames := []

end ProtoOs.Ref
