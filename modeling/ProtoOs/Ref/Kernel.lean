import ProtoOs.Lib.Prog
import ProtoOs.Ref.Keyboard
import ProtoOs.Ref.Line
import ProtoOs.Ref.Memory
import ProtoOs.Ref.Queue

/-!
# The statics of the kernel and the code that locks them

Every `static` behind a `spin::Mutex` is a field of `Globals` or `Kernel`
and a lock of its own; a guard is held exactly as long as the source holds
it. The screen is written one cell and the serial port one byte at a time,
so that an event can strike inside a line being printed, and inside a
character of it.

`WRITER` is a `lazy_static`: whoever locks it first builds it, and until that
is done it is a lock too. So is `SERIAL1`, which `serial::init` builds before
there is a handler that could find it half built; its once-flag is left out.

`Platform` is what the kernel is given and does not decide: the boot
loader's map and root table, the heap of the `linked_list_allocator` crate,
how a panic's location is rendered, and the addresses of the instructions
that raise exceptions.

`fed` and `executed` are not in the source. They record the arguments of
the calls to `feed` and `execute`, and no code reads them.
-/

namespace ProtoOs.Ref

open ProtoOs.Lib

def version : List UInt8 := bytes "proto-os v0.4.0"

/-- A mutex, or the initialisation of `WRITER`. -/
inductive LockId where
  | writer | writerOnce | serial1 | line | shift | scancodeQueue | pics | memoryInfo | heap
  deriving DecidableEq, Repr

/-- The fatal exceptions, with what the processor pushes besides the
address of the instruction. -/
inductive Exception where
  | invalidOpcode
  | generalProtection (errorCode : Nat)
  | pageFault (errorCode faultAddress : Nat)
  | doubleFault
  deriving DecidableEq, Repr

inductive Fatal where
  | panic (message : List UInt8)
  | exception (x : Exception) (instructionPointer : Nat)
  deriving DecidableEq, Repr

structure Platform (H : Type) where
  memoryMap : MemoryMap
  /-- The frame `CR3` points at. -/
  root : Nat
  heapInit : (start size : Nat) → H → H
  heapAlloc : (size align : Nat) → H → Option (Nat × H)
  heapDealloc : (addr size align : Nat) → H → H
  /-- `PanicInfo` as it is displayed: the location and the message. -/
  panicInfo : List UInt8 → List UInt8
  /-- Where the commands that raise an exception raise it. -/
  exceptionAddress : Exception → Nat
  breakpointAddress : Nat

structure Globals (H : Type) where
  writer : Writer
  /-- Whether `WRITER` has been built. -/
  writerReady : Bool
  /-- What has been handed to the serial port. -/
  serial1 : List UInt8
  line : LineBuffer
  shift : ShiftState
  memoryInfo : Option MemoryInfo
  heap : H
  /-- Physical memory, as the page tables are read in it. -/
  mem : Paging.Mem
  panicking : Bool
  fed : List UInt8
  executed : List (List UInt8)

abbrev Code (H α : Type) := Prog LockId (Globals H) Fatal α

variable {H : Type}

/-! ## Texts -/

def digits (base n : Nat) : List UInt8 :=
  (Nat.toDigits base n).map fun c => c.toNat.toUInt8

/-- `{}` of an unsigned number. -/
def decimal (n : Nat) : List UInt8 := digits 10 n

/-- `{:#x}`. -/
def hex (n : Nat) : List UInt8 := bytes "0x" ++ digits 16 n

/-! ## The screen -/

def indexOutOfBounds : Fatal := .panic (bytes "index out of bounds")

/-- Accesses to a `Writer` whose guard is already held. -/
def performAll : List Access → Code H Unit
  | [] => pure ()
  | a :: as => do
      Prog.attempt (fun g => (a.perform g.writer).map fun w => ((), { g with writer := w }))
        indexOutOfBounds
      performAll as

/-- A method of the `Writer` whose guard is already held. -/
def onWriter (accesses : Writer → List Access) : Code H Unit := do
  let g ← Prog.get
  performAll (accesses g.writer)

/-- `write!` on a `Writer` whose guard is already held. -/
def writeText : List UInt8 → Code H Unit
  | [] => pure ()
  | b :: bs => do
      onWriter fun w => w.writeByteAccesses (Writer.shownByte b)
      writeText bs

/-- `WRITER.lock()`, which builds the `Writer` if nobody has yet. -/
def withWriter {α : Type} (p : Code H α) : Code H α := do
  Prog.callOnce .writerOnce Globals.writerReady fun g => { g with writerReady := true }
  Prog.withLock .writer p

/-- `_print`. -/
def print (text : List UInt8) : Code H Unit := withWriter (writeText text)

def println (text : List UInt8) : Code H Unit := print (text ++ bytes "\n")

def clearScreen : Code H Unit := withWriter (onWriter Writer.clearScreenAccesses)

def backspace : Code H Unit := withWriter (onWriter Writer.backspaceAccesses)

def screenContains (needle : List UInt8) : Code H Bool :=
  if needle = [] ∨ bufferWidth < needle.length then pure false
  else withWriter (Prog.attempt
    (fun g => (g.writer.buffer.contains needle).map fun found => (found, g)) indexOutOfBounds)

/-! ## The serial port -/

def sendText : List UInt8 → Code H Unit
  | [] => pure ()
  | b :: bs => do
      Prog.modify fun g => { g with serial1 := g.serial1 ++ [b] }
      sendText bs

/-- `_serial_print`: the lock is taken and the text sent with interrupts
off. -/
def serialPrint (text : List UInt8) : Code H Unit :=
  Prog.withoutInterrupts (Prog.withLock .serial1 (sendText text))

def serialPrintln (text : List UInt8) : Code H Unit :=
  serialPrint (text ++ bytes "\n")

/-! ## The keyboard -/

def setLeftHeld (held : Bool) : Code H Unit :=
  Prog.withLock .shift
    (Prog.modify fun g => { g with shift := { g.shift with leftHeld := held } })

def setRightHeld (held : Bool) : Code H Unit :=
  Prog.withLock .shift
    (Prog.modify fun g => { g with shift := { g.shift with rightHeld := held } })

def translate (scancode : UInt8) : Code H (Option UInt8) :=
  if scancode = leftShiftMake then do setLeftHeld true; pure none
  else if scancode = leftShiftBreak then do setLeftHeld false; pure none
  else if scancode = rightShiftMake then do setRightHeld true; pure none
  else if scancode = rightShiftBreak then do setRightHeld false; pure none
  else if scancode &&& 0x80 ≠ 0 then pure none
  else do
    let g ← Prog.withLock .shift Prog.get
    pure (asciiForMakeCode scancode g.shift.isActive)

/-! ## Memory -/

/-- `memory::info`: the `expect` panics with the lock held. -/
def memoryInfo : Code H MemoryInfo :=
  Prog.withLock .memoryInfo
    (Prog.attempt (fun g => g.memoryInfo.map fun info => (info, g))
      (.panic (bytes "memoria nao inicializada")))

variable (pf : Platform H)

/-- The handler the compiler calls when an allocation fails. -/
def allocError (size align : Nat) : Fatal :=
  .panic (bytes "heap esgotado: pedido de " ++ decimal size ++
    bytes " bytes (alinhamento " ++ decimal align ++ bytes ")")

/-- The global allocator's `alloc` behind its own lock, and the error
handler outside it. -/
def alloc (size align : Nat) : Code H Nat := do
  let got ← Prog.withLock .heap (Prog.act
    (fun g => match pf.heapAlloc size align g.heap with
      | some (_, heap) => { g with heap }
      | none => g)
    fun g => pure ((pf.heapAlloc size align g.heap).map Prod.fst))
  match got with
  | some addr => pure addr
  | none => Prog.fault (allocError size align)

def dealloc (addr size align : Nat) : Code H Unit :=
  Prog.withLock .heap
    (Prog.modify fun g => { g with heap := pf.heapDealloc addr size align g.heap })

/-! What the checked arithmetic of `u64` and `usize` panics with. -/

def addOverflow : List UInt8 := bytes "attempt to add with overflow"
def subtractOverflow : List UInt8 := bytes "attempt to subtract with overflow"
def multiplyOverflow : List UInt8 := bytes "attempt to multiply with overflow"

/-- What `PhysAddr::new(frame_number * 4096)` panics with. -/
def frameAddressPanic (frameNumber : Nat) : List UInt8 :=
  if frameNumber * 4096 < 2 ^ 64 then
    bytes "physical addresses must not have any bits in the range 52 to 64 set"
  else multiplyOverflow

/-- What `allocate_frame` panics with: the first frame of the map that has
no address stops every call that comes to it. -/
def allocateFramePanic (memoryMap : MemoryMap) : List UInt8 :=
  match (BootInfoFrameAllocator.usableFrameNumbers memoryMap).find?
    fun n => (frameAddress n).isNone with
  | some n => frameAddressPanic n
  | none => addOverflow

/-- What the sum of `memory::init` panics with, from `total` on. -/
def usableBytesPanic (total : Nat) : List MemoryRegion → List UInt8
  | [] => []
  | region :: regions =>
      if region.range.endFrameNumber < region.range.startFrameNumber then subtractOverflow
      else
        let size :=
          (region.range.endFrameNumber - region.range.startFrameNumber) * 4096
        if 2 ^ 64 ≤ size then multiplyOverflow
        else if 2 ^ 64 ≤ total + size then addOverflow
        else usableBytesPanic (total + size) regions

/-- `{:?}` of an error of the mapper. -/
def debugMapToError : Paging.MapToError → List UInt8
  | .frameAllocationFailed => bytes "FrameAllocationFailed"
  | .parentEntryHugePage => bytes "ParentEntryHugePage"
  | .pageAlreadyMapped frame =>
      bytes "PageAlreadyMapped(PhysFrame[4KiB](" ++ hex (frame * 4096) ++ bytes "))"

/-- What the `expect` of `memory::init` panics with. -/
def heapNotMapped (e : Paging.MapToError) : Fatal :=
  .panic (bytes "falha ao mapear o heap: memoria fisica insuficiente: " ++ debugMapToError e)

/-- `init_heap`, with the allocator it is given and what that panics with:
the global allocator is told about the range once all of it is mapped. -/
def initHeapCode {A : Type} (frameSource : Paging.FrameSource A) (sourcePanic : List UInt8)
    (a : A) : Code H (InitHeap A) := do
  let h ← Prog.attempt
    (fun g => (initHeap frameSource pf.root g.mem a).map fun h => (h, { g with mem := h.mem }))
    (.panic sourcePanic)
  match h.result with
  | .error _ => pure h
  | .ok () => do
      Prog.withLock .heap
        (Prog.modify fun g => { g with heap := pf.heapInit heapStart heapSize g.heap })
      pure h

/-- `memory::init`: the heap is mapped and handed to the allocator, and the
summary stored. -/
def memoryInitCode : Code H Unit := do
  let h ← initHeapCode pf BootInfoFrameAllocator.allocateFrame
    (allocateFramePanic pf.memoryMap) (BootInfoFrameAllocator.init pf.memoryMap)
  match h.result with
  | .error e => Prog.fault (heapNotMapped e)
  | .ok () => do
      let total ← Prog.attempt (fun g => (usableBytes pf.memoryMap).map fun n => (n, g))
        (.panic (usableBytesPanic 0
          (pf.memoryMap.filter fun region => region.regionType = .usable)))
      Prog.withLock .memoryInfo
        (Prog.modify fun g => { g with memoryInfo := some ⟨total, heapStart, heapSize⟩ })

end ProtoOs.Ref
