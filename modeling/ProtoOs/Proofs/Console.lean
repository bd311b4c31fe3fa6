import ProtoOs.Lib.Spec
import ProtoOs.Proofs.Accesses
import ProtoOs.Ref.Main

/-!
# What the kernel's code does when nothing interrupts it

The exact effect of printing, of the serial port and of `memory::init`. No
operation of the `Writer` panics, whatever state it is in, so printing
always returns; what it leaves on the screen is what the writer's own
`write_string` leaves.
-/

namespace ProtoOs.Ref

open ProtoOs.Lib ProtoOs.Lib.Prog

/-! ## The writer never panics -/

namespace Writer

theorem writeByte_total (w : Writer) (byte : UInt8) :
    ∃ w', w.writeByte byte = some w' := by
  by_cases hbyte : byte = 0x0A
  · obtain ⟨b, hb, _⟩ := w.newLine_spec
    exact ⟨_, by rw [writeByte, if_pos hbyte, hb]; rfl⟩
  · obtain ⟨_, _, _, _, hwrite, _⟩ := w.writeByte_spec hbyte
    exact ⟨_, hwrite⟩

theorem writeString_total (w : Writer) (s : List UInt8) :
    ∃ w', w.writeString s = some w' := by
  obtain ⟨w', hw', _⟩ := foldlM_refines (R := fun _ (_ : Unit) => True)
    (g := fun _ _ => ()) (fun w _ b _ => by
      obtain ⟨w', hw'⟩ := w.writeByte_total (shownByte b)
      exact ⟨w', hw', trivial⟩) s (s := w) (t := ()) trivial
  exact ⟨w', hw'⟩

theorem writeString_append (w : Writer) (s s' : List UInt8) :
    w.writeString (s ++ s') = (w.writeString s).bind fun w' => w'.writeString s' :=
  List.foldlM_append

theorem writeString_singleton (w : Writer) (byte : UInt8) :
    w.writeString [byte] = w.writeByte (shownByte byte) := by
  rw [writeString, List.foldlM_cons]
  cases w.writeByte (shownByte byte) <;> rfl

end Writer

variable {H : Type} {trap : Cfg LockId (Globals H) → Outcome LockId (Globals H) Fatal Unit}
  {g : Globals H} {h : LockId → Bool} {b : Bool}

/-! ## Printing -/

theorem performAll_yields (as : List Access) :
    ∀ {g : Globals H} {w : Writer}, g.writer.perform as = some w →
      (performAll as).Yields trap g h b () { g with writer := w } := by
  induction as with
  | nil =>
      intro g w hw
      obtain rfl := Option.some.inj hw
      exact Yields.ret
  | cons a as ih =>
      intro g w hw
      rw [Writer.perform, List.foldlM_cons] at hw
      obtain ⟨w₁, hw₁, hw⟩ := Option.bind_eq_some_iff.mp hw
      exact Yields.bind (Yields.attempt (by rw [hw₁]; rfl)) (ih (g := { g with writer := w₁ }) hw)

theorem onWriter_yields {accesses : Writer → List Access} {w : Writer}
    (hw : g.writer.perform (accesses g.writer) = some w) :
    (onWriter accesses).Yields trap g h b () { g with writer := w } :=
  Yields.bind (Yields.act Yields.ret) (performAll_yields _ hw)

theorem writeText_yields (text : List UInt8) :
    ∀ {g : Globals H} {w : Writer}, g.writer.writeString text = some w →
      (writeText text).Yields trap g h b () { g with writer := w } := by
  induction text with
  | nil =>
      intro g w hw
      obtain rfl := Option.some.inj hw
      exact Yields.ret
  | cons x xs ih =>
      intro g w hw
      simp only [Writer.writeString, List.foldlM_cons] at hw
      obtain ⟨w₁, hw₁⟩ := g.writer.writeByte_total (Writer.shownByte x)
      rw [hw₁] at hw
      refine Yields.bind (onWriter_yields ?_) (ih (g := { g with writer := w₁ }) hw)
      rw [Writer.perform_writeByte, hw₁]

theorem writeText_append (text text' : List UInt8) :
    (writeText (text ++ text') : Code H Unit) =
      (writeText text).bind fun _ => writeText text' := by
  induction text with
  | nil => rfl
  | cons x xs ih =>
      rw [List.cons_append, writeText, writeText, ih]
      exact (bind_bind _ _ _).symm

/-- Nothing keeps code from the guard of `WRITER`. -/
def WriterFree (h : LockId → Bool) : Prop := h .writerOnce = false ∧ h .writer = false

/-- Whoever asks for `WRITER` finds it built afterwards. -/
theorem writerOnce_yields (honce : h .writerOnce = false) :
    (callOnce .writerOnce Globals.writerReady fun g => { g with writerReady := true } :
      Code H Unit).Yields trap g h b () { g with writerReady := true } := by
  refine Yields.callOnce honce ?_
  cases hready : g.writerReady with
  | true => rw [if_pos rfl, ← hready]
  | false => rfl

/-- Under the guard of `WRITER`, which is built by then. -/
theorem withWriter_yields {α : Type} {p : Code H α} {a : α} {g' : Globals H}
    (hh : WriterFree h)
    (hp : p.Yields trap { g with writerReady := true } (Function.update h .writer true) b a g') :
    (withWriter p).Yields trap g h b a g' :=
  Yields.bind (writerOnce_yields hh.1) (Yields.withLock hh.2 hp)

/-- While `WRITER` is being built nobody else gets at it. -/
theorem withWriter_spins {α : Type} {p : Code H α} (honce : h .writerOnce = true)
    (hready : g.writerReady = false) : (withWriter p).Spins trap g h b .writerOnce :=
  Spins.bind (Spins.callOnce honce hready) _

theorem print_yields {text : List UInt8} {w : Writer} (hh : WriterFree h)
    (hw : g.writer.writeString text = some w) :
    (print text).Yields trap g h b () { g with writer := w, writerReady := true } :=
  withWriter_yields hh (writeText_yields text (g := { g with writerReady := true }) hw)

theorem clearScreen_yields {w : Writer} (hh : WriterFree h)
    (hw : g.writer.clearScreen = some w) :
    clearScreen.Yields trap g h b () { g with writer := w, writerReady := true } :=
  withWriter_yields hh (onWriter_yields (g := { g with writerReady := true })
    (by rw [Writer.perform_clearScreen, hw]))

theorem backspace_yields {w : Writer} (hh : WriterFree h)
    (hw : g.writer.backspace = some w) :
    backspace.Yields trap g h b () { g with writer := w, writerReady := true } :=
  withWriter_yields hh (onWriter_yields (g := { g with writerReady := true })
    (by rw [Writer.perform_backspace, hw]))

theorem sendText_yields (text : List UInt8) :
    ∀ {g : Globals H}, (sendText text).Yields trap g h b ()
      { g with serial1 := g.serial1 ++ text } := by
  induction text with
  | nil =>
      intro g
      rw [List.append_nil]
      exact Yields.ret
  | cons x xs ih =>
      intro g
      rw [List.append_cons]
      exact Yields.bind Yields.modify (ih (g := { g with serial1 := g.serial1 ++ [x] }))

theorem serialPrintln_yields (text : List UInt8) (hh : h .serial1 = false) :
    (serialPrintln text).Yields trap g h b ()
      { g with serial1 := g.serial1 ++ (text ++ bytes "\n") } :=
  Yields.withoutInterrupts (Yields.withLock hh (sendText_yields _))

/-- Lines as they go out on the serial port. -/
def inLines (texts : List (List UInt8)) : List UInt8 := texts.flatMap (· ++ bytes "\n")

theorem serialPrintLines_yields (texts : List (List UInt8)) (hh : h .serial1 = false) :
    ∀ {g : Globals H}, (serialPrintLines texts).Yields trap g h b ()
      { g with serial1 := g.serial1 ++ inLines texts } := by
  induction texts with
  | nil =>
      intro g
      simp only [inLines, List.flatMap_nil, List.append_nil]
      exact Yields.ret
  | cons text texts ih =>
      intro g
      rw [inLines, List.flatMap_cons, ← List.append_assoc]
      exact Yields.bind (serialPrintln_yields text hh)
        (ih (g := { g with serial1 := g.serial1 ++ (text ++ bytes "\n") }))

/-! ## Boot -/

theorem memoryInfo_yields {info : MemoryInfo} (hh : h .memoryInfo = false)
    (hinfo : g.memoryInfo = some info) :
    memoryInfo.Yields trap g h b info g :=
  Yields.withLock hh (Yields.attempt (by rw [hinfo]; rfl))

variable {pf : Platform H}

/-- `init_heap` does what the loop does, and tells the global allocator only
about a range that is mapped. -/
theorem initHeapCode_yields {A : Type} {src : Paging.FrameSource A} {a : A}
    {r : InitHeap A} (sourcePanic : List UInt8) (hheap : h .heap = false)
    (hi : initHeap src pf.root g.mem a = some r) :
    (initHeapCode pf src sourcePanic a).Yields trap g h b r
      { g with
        mem := r.mem
        heap := match r.result with
          | .ok () => pf.heapInit heapStart heapSize g.heap
          | .error _ => g.heap } := by
  refine Yields.bind (Yields.attempt (a := r) (by rw [hi]; rfl)) ?_
  cases r.result with
  | error e => exact Yields.ret
  | ok u => exact Yields.bind (Yields.withLock hheap Yields.modify) Yields.ret

/-- `memory::init` does to the page tables and the summary what the pure
one does, and hands the heap over. -/
theorem memoryInitCode_yields {m : MemoryInit} (hheap : h .heap = false)
    (hinfo : h .memoryInfo = false)
    (hm : memoryInit pf.memoryMap pf.root g.mem = some m) :
    (memoryInitCode pf).Yields trap g h b ()
      { g with
        mem := m.mem
        heap := pf.heapInit heapStart heapSize g.heap
        memoryInfo := some m.info } := by
  simp only [memoryInit, Option.bind_eq_bind] at hm
  obtain ⟨i, hi, hm⟩ := Option.bind_eq_some_iff.mp hm
  cases hr : i.result with
  | error e => rw [hr] at hm; cases hm
  | ok u =>
      have hheapCode : (initHeapCode pf BootInfoFrameAllocator.allocateFrame
          (allocateFramePanic pf.memoryMap) (BootInfoFrameAllocator.init pf.memoryMap)).Yields
          trap g h b i _ := initHeapCode_yields _ hheap hi
      rw [hr] at hm hheapCode
      obtain ⟨total, htotal, hm⟩ := Option.bind_eq_some_iff.mp hm
      obtain rfl := Option.some.inj hm
      refine Yields.bind hheapCode ?_
      rw [hr]
      exact Yields.bind (Yields.attempt (by rw [htotal]; rfl)) (Yields.withLock hinfo Yields.modify)

/-- What `int3` does, as far as the globals can tell. -/
def globalsTrapRun (pf : Platform H) (c : Cfg LockId (Globals H)) :
    Outcome LockId (Globals H) Fatal Unit :=
  runGated Outcome.halt (breakpointHandler pf) c

/-- No lock is held. -/
def noLock : LockId → Bool := fun _ => false

theorem noLock_writerFree : WriterFree noLock := ⟨rfl, rfl⟩

section Kernel

variable {ktrap : Cfg LockId (Kernel H) → Outcome LockId (Kernel H) Fatal Unit}
  {k : Kernel H}

theorem onGlobals_yields {α : Type} {p : Code H α} {a : α} {g' : Globals H}
    (htrap : ∀ c, ktrap c = (trap (c.view Kernel.globalsLens)).within
      Kernel.globalsLens c.data)
    (hp : p.Yields trap k.globals h b a g') :
    (onGlobals p).Yields ktrap k h b a { k with globals := g' } :=
  Yields.zoom Kernel.globalsLens htrap hp

theorem picsOp_yields (op : PicsOp) (hh : h .pics = false) :
    (picsOp op).Yields ktrap k h b () { k with pics := k.pics ++ [op] } :=
  Yields.withLock hh Yields.modify

variable (trap) in
/-- Printing always returns. -/
theorem print_returns (text : List UInt8) (g : Globals H) (hh : WriterFree h) :
    ∃ g', (print text).Yields trap g h b () g' := by
  obtain ⟨w, hw⟩ := g.writer.writeString_total text
  exact ⟨_, print_yields hh hw⟩

variable (trap) in
theorem printWelcome_returns (g : Globals H) (hh : WriterFree h) :
    ∃ g', printWelcome.Yields trap g h b () g' := by
  obtain ⟨g₁, h₁⟩ := print_returns trap (b := b)
    (version ++ bytes "\n") g hh
  obtain ⟨g₂, h₂⟩ := print_returns trap (b := b)
    (bytes "proto-os - sem sistema operacional embaixo" ++ bytes "\n") g₁ hh
  obtain ⟨g₃, h₃⟩ := print_returns trap (b := b)
    (bytes "Este texto foi escrito direto no buffer de video VGA," ++ bytes "\n") g₂ hh
  obtain ⟨g₄, h₄⟩ := print_returns trap (b := b)
    (bytes "por este mesmo binario Rust, sem nenhum SO por baixo." ++ bytes "\n") g₃ hh
  exact ⟨g₄, Yields.bind h₁ (Yields.bind h₂ (Yields.bind h₃ h₄))⟩

end Kernel

/-! ## A machine to run -/

/-- A small PC: 63 usable frames after the root table, and a heap that
hands out addresses in order. -/
def smallPlatform : Platform Nat where
  memoryMap := [⟨⟨1, 64⟩, .usable⟩]
  root := 0
  heapInit start _ _ := start
  heapAlloc size _ next := some (next, next + size)
  heapDealloc _ _ _ next := next
  panicInfo message := bytes "panicked: " ++ message
  exceptionAddress _ := 0x200000
  breakpointAddress := 0x200000

def smallStart (port : List UInt8) : Machine Nat :=
  Machine.start smallPlatform
    (Kernel.start Writer.boot.buffer Writer.boot.crtc 0 (fun _ _ => .unused) port)

end ProtoOs.Ref
