import ProtoOs.Proofs.Closed
import ProtoOs.Proofs.Console

/-!
# The lock discipline of the kernel's code

Every function gives back the locks and the flag as it found them and takes
only locks that are free when it is called (`Prog.Neutral`). Most need
`WRITER` or `SERIAL1`; a command runs with `LINE` held and needs everything
else, and nothing but the two printing locks is needed by a breakpoint
inside it. One lemma per function, and one for all the commands; a caller's
lemma cites those of what it calls and unfolds nothing else.
-/

namespace ProtoOs.Ref

open ProtoOs.Lib ProtoOs.Lib.Prog

/-- What the breakpoint handler takes. -/
def TrapLock (l : LockId) : Prop := l = .writer ∨ l = .writerOnce ∨ l = .serial1

/-- What the IRQ1 handler takes. -/
def IrqLock (l : LockId) : Prop := l = .scancodeQueue ∨ l = .pics

/-- Where the main flow may trap: the breakpoint handler finds its locks
free. -/
def TrapFree (held : LockId → Bool) : Prop := ∀ l, TrapLock l → held l = false

/-- The discipline, with any fatal event allowed. -/
abbrev Tidy {S α : Type} (T : (LockId → Bool) → Prop) (opened : Bool)
    (A : LockId → Prop) (p : Prog LockId S Fatal α) : Prop :=
  Neutral T (fun _ => True) opened A p

variable {H : Type} {T : (LockId → Bool) → Prop} {F : Fatal → Prop} {opened : Bool}
  {A : LockId → Prop}

/-! ## Printing -/

/-- Accesses that do not panic. -/
theorem performAll_neutral {as : List Access} (has : ∀ a ∈ as, a.InRange) :
    Neutral T F opened A (performAll as : Code H Unit) := by
  induction as with
  | nil => exact Neutral.ret ()
  | cons a as ih =>
      refine Neutral.bind (Neutral.attempt_total fun g => ?_) fun _ =>
        ih fun a' ha' => has a' (by simp [ha'])
      obtain ⟨w, hw⟩ := Access.perform_total (has a (by simp)) g.writer
      exact ⟨((), { g with writer := w }), by rw [hw]; rfl⟩

/-- Any accesses at all, where a panic is no matter. -/
theorem onWriter_tidy (accesses : Writer → List Access) :
    Tidy T opened A (onWriter accesses : Code H Unit) := by
  have hall : ∀ as, Tidy T opened A (performAll as : Code H Unit) := by
    intro as
    induction as with
    | nil => exact Neutral.ret ()
    | cons a as ih => exact Neutral.bind (Neutral.attempt trivial) fun _ => ih
  exact Neutral.bind Neutral.get fun _ => hall _

/-- No text makes the writer panic. -/
theorem writeText_neutral (text : List UInt8) :
    Neutral T F opened A (writeText text : Code H Unit) := by
  induction text with
  | nil => exact Neutral.ret ()
  | cons b bs ih =>
      refine Neutral.bind (Neutral.bind Neutral.get fun g => ?_) fun _ => ih
      exact performAll_neutral (Writer.writeByteAccesses_inRange _ _)

/-- The locks of `WRITER` are among them. -/
def WriterLocks (A : LockId → Prop) : Prop := A .writerOnce ∧ A .writer

/-- Under the guard of `WRITER` no other lock is taken. -/
theorem withWriter_neutral {α : Type} {p : Code H α}
    (hp : Neutral T F opened (fun _ => False) p) (hA : WriterLocks A) :
    Neutral T F opened A (withWriter p) :=
  Neutral.bind (Neutral.callOnce hA.1) fun _ => Neutral.withLock hp hA.2 (by simp)

/-- A critical section whose body takes no lock. -/
theorem Tidy.critical {S α : Type} {l : LockId} {p : Prog LockId S Fatal α}
    (hp : Tidy T opened (fun _ => False) p) (hl : A l) :
    Tidy T opened A (withLock l p) :=
  Neutral.withLock hp hl (by simp)

theorem print_tidy (text : List UInt8) (hA : WriterLocks A) :
    Tidy T opened A (print text : Code H Unit) :=
  withWriter_neutral (writeText_neutral text) hA

theorem println_tidy (text : List UInt8) (hA : WriterLocks A) :
    Tidy T opened A (println text : Code H Unit) := print_tidy _ hA

theorem clearScreen_tidy (hA : WriterLocks A) :
    Tidy T opened A (clearScreen : Code H Unit) :=
  withWriter_neutral (onWriter_tidy _) hA

theorem backspace_tidy (hA : WriterLocks A) :
    Tidy T opened A (backspace : Code H Unit) :=
  withWriter_neutral (onWriter_tidy _) hA

theorem sendText_neutral (text : List UInt8) :
    Neutral T F opened A (sendText text : Code H Unit) := by
  induction text with
  | nil => exact Neutral.ret ()
  | cons b bs ih => exact Neutral.bind (Neutral.modify _) fun _ => ih

theorem serialPrintln_neutral (text : List UInt8) (hA : A .serial1) :
    Neutral T F opened A (serialPrintln text : Code H Unit) :=
  Neutral.withoutInterrupts (Neutral.withLock (B := fun _ => False)
    (sendText_neutral _) hA (by simp))

/-! ## Keyboard and memory -/

theorem translate_tidy (scancode : UInt8) (hA : A .shift) :
    Tidy T opened A (translate scancode : Code H (Option UInt8)) := by
  have hleft : ∀ held, Tidy T opened A (setLeftHeld held : Code H Unit) :=
    fun held => Tidy.critical (Neutral.modify _) hA
  have hright : ∀ held, Tidy T opened A (setRightHeld held : Code H Unit) :=
    fun held => Tidy.critical (Neutral.modify _) hA
  unfold translate
  repeat' split
  · exact Neutral.bind (hleft true) fun _ => Neutral.ret none
  · exact Neutral.bind (hleft false) fun _ => Neutral.ret none
  · exact Neutral.bind (hright true) fun _ => Neutral.ret none
  · exact Neutral.bind (hright false) fun _ => Neutral.ret none
  · exact Neutral.ret none
  · exact Neutral.bind (Tidy.critical Neutral.get hA) fun _ => Neutral.ret _

theorem memoryInfo_tidy (hA : A .memoryInfo) :
    Tidy T opened A (memoryInfo : Code H MemoryInfo) :=
  Tidy.critical (Neutral.attempt trivial) hA

variable (pf : Platform H)

theorem alloc_tidy (size align : Nat) (hA : A .heap) :
    Tidy T opened A (alloc pf size align) := by
  refine Neutral.bind (Tidy.critical (Neutral.act fun _ => Neutral.ret _) hA)
    fun got => ?_
  cases got with
  | some addr => exact Neutral.ret addr
  | none => exact Neutral.fault trivial

theorem dealloc_tidy (addr size align : Nat) (hA : A .heap) :
    Tidy T opened A (dealloc pf addr size align) :=
  Tidy.critical (Neutral.modify _) hA

theorem initHeapCode_tidy {B : Type} (src : Paging.FrameSource B) (sourcePanic : List UInt8)
    (a : B) (hheap : A .heap) : Tidy T opened A (initHeapCode pf src sourcePanic a) := by
  refine Neutral.bind (Neutral.attempt trivial) fun h => ?_
  split
  · exact Neutral.ret h
  · exact Neutral.bind (Tidy.critical (Neutral.modify _) hheap) fun _ => Neutral.ret h

theorem memoryInitCode_tidy (hheap : A .heap) (hinfo : A .memoryInfo) :
    Tidy T opened A (memoryInitCode pf) := by
  refine Neutral.bind (initHeapCode_tidy pf _ _ _ hheap) fun h => ?_
  split
  · exact Neutral.fault trivial
  · exact Neutral.bind (Neutral.attempt trivial) fun _ =>
      Tidy.critical (Neutral.modify _) hinfo

/-! ## The shell

A command runs while `LINE` is held, so all it may count on is that every
other lock is free. -/

/-- Free while a command runs. -/
def NotLine (l : LockId) : Prop := l ≠ .line

theorem printWelcome_tidy (hA : WriterLocks A) :
    Tidy T opened A (printWelcome : Code H Unit) :=
  Neutral.bind (println_tidy _ hA) fun _ => Neutral.bind (println_tidy _ hA) fun _ =>
    Neutral.bind (println_tidy _ hA) fun _ => println_tidy _ hA

/-- Every word of a command keeps the discipline. -/
theorem commands_tidy : CommandClosed pf fun p => Tidy TrapFree opened NotLine p := by
  have hw : WriterLocks NotLine := by simp [WriterLocks, NotLine]
  have hh : NotLine .heap := by simp [NotLine]
  refine ⟨fun a => Neutral.ret a, Neutral.bind, fun _ => println_tidy _ hw, clearScreen_tidy hw,
    memoryInfo_tidy (by simp [NotLine]), fun _ _ => alloc_tidy pf _ _ hh,
    fun _ _ _ => dealloc_tidy pf _ _ _ hh, fun _ => Neutral.fault trivial, ?_⟩
  refine Neutral.int3 fun h hfree l hl => hfree l ?_
  rcases hl with rfl | rfl | rfl <;> simp [NotLine]

theorem execute_tidy (line : List UInt8) : Tidy TrapFree opened NotLine (execute pf line) := by
  refine Neutral.bind (Neutral.modify _) fun _ => ?_
  dsimp only
  split
  · exact Neutral.ret ()
  · exact (commands_tidy pf).dispatch _ _

/-- All locks. -/
def AnyLock (_ : LockId) : Prop := True

theorem anyLock_writer : WriterLocks AnyLock := ⟨trivial, trivial⟩

theorem runLine_tidy : Tidy TrapFree opened AnyLock (runLine pf) := by
  refine Neutral.bind (print_tidy _ anyLock_writer) fun _ => ?_
  refine Neutral.withLock (B := NotLine) ?_ trivial fun l hl => ⟨trivial, hl⟩
  exact Neutral.bind (Neutral.attempt trivial) fun line =>
    Neutral.bind (execute_tidy pf line) fun _ => Neutral.modify _

theorem feed_tidy (byte : UInt8) : Tidy TrapFree opened AnyLock (feed pf byte) := by
  refine Neutral.bind (Neutral.modify _) fun _ => ?_
  repeat' split
  · exact Neutral.bind (runLine_tidy pf) fun _ => print_tidy _ anyLock_writer
  · refine Neutral.bind
      (Tidy.critical (Neutral.act fun _ => Neutral.ret _) trivial) fun popped => ?_
    split
    · exact backspace_tidy anyLock_writer
    · exact Neutral.ret ()
  · refine Neutral.bind (Tidy.critical (Neutral.attempt trivial) trivial)
      fun pushed => ?_
    split
    · exact print_tidy _ anyLock_writer
    · exact Neutral.ret ()
  · exact Neutral.ret ()

theorem process_tidy (scancode : UInt8) : Tidy TrapFree opened AnyLock (process pf scancode) := by
  refine Neutral.bind (translate_tidy scancode trivial) fun byte => ?_
  cases byte with
  | some byte => exact feed_tidy pf byte
  | none => exact Neutral.ret ()

/-! ## Handlers and boot -/

theorem breakpointHandler_tidy : Tidy T opened TrapLock (breakpointHandler pf) :=
  Neutral.bind (serialPrintln_neutral _ (Or.inr (Or.inr rfl))) fun _ =>
    println_tidy _ ⟨Or.inr (Or.inl rfl), Or.inl rfl⟩

theorem picsOp_tidy (op : PicsOp) (hA : A .pics) :
    Tidy T opened A (picsOp op : KernelCode H Unit) :=
  Tidy.critical (Neutral.modify _) hA

theorem keyboardInterruptHandler_tidy :
    Tidy T opened IrqLock (keyboardInterruptHandler : KernelCode H Unit) :=
  Neutral.bind (Neutral.act fun _ => Neutral.ret _) fun _ =>
    Neutral.bind (Tidy.critical (Neutral.attempt trivial) (Or.inl rfl)) fun _ =>
      picsOp_tidy _ (Or.inr rfl)

theorem nextScancode_tidy (hA : A .scancodeQueue) :
    Tidy T opened A (nextScancode : KernelCode H (Option UInt8)) :=
  Tidy.critical (Neutral.attempt trivial) hA

theorem boot_tidy : Tidy T opened AnyLock (boot pf) := by
  have hserial : ∀ text, Tidy T opened AnyLock (onGlobals (H := H) (serialPrintln text)) :=
    fun text => (serialPrintln_neutral text trivial).zoom _
  have hinit : Tidy T opened AnyLock (init pf) := by
    refine Neutral.bind (hserial _) fun _ => ?_
    refine Neutral.bind (hserial _) fun _ => ?_
    refine Neutral.bind (Neutral.bind (Neutral.modify _) fun _ =>
      Neutral.bind (picsOp_tidy _ trivial) fun _ => picsOp_tidy _ trivial) fun _ => ?_
    refine Neutral.bind (hserial _) fun _ => ?_
    refine Neutral.bind ((memoryInitCode_tidy pf trivial trivial).zoom _) fun _ => ?_
    exact Neutral.bind ((memoryInfo_tidy trivial).zoom _) fun info => hserial _
  refine Neutral.bind hinit fun _ => ?_
  refine Neutral.bind ((clearScreen_tidy anyLock_writer).zoom _) fun _ => ?_
  refine Neutral.bind ((printWelcome_tidy anyLock_writer).zoom _) fun _ => ?_
  exact Neutral.bind ((print_tidy _ anyLock_writer).zoom _) fun _ => hserial _

end ProtoOs.Ref
