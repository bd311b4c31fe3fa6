import Mathlib.Data.Multiset.AddSub
import ProtoOs.Proofs.Settle

/-!
# What adds up over a whole run

Two accounts the kernel keeps without knowing it. Every block of the heap it
has asked for it has given back, in the words it was asked for, whenever it
is outside a turn of the drain; and what it has sent to the serial port is
the log of its boot and one line for each breakpoint it was told to raise.
Both are invariants of the ideal machine, command by command, and so of
every run, whether or not scancodes were lost.
-/

namespace ProtoOs.Ref

open ProtoOs.Lib ProtoOs.Lib.Prog

variable {H : Type} (pf : Platform H)

/-! ## Blocks -/

/-- An address and the size and alignment it was asked for with. -/
abbrev Block := Nat × Nat × Nat

/-- What the allocator promises its callers: from a heap in order, a block
it hands out becomes live, and giving back a live block, with the layout it
was asked for, ends that. Of a request for no bytes, of an alignment that is
no power of two and of any other return it promises nothing. -/
structure HeapContract (pf : Platform H) where
  inOrder : H → Prop
  live : H → Multiset Block
  init : ∀ heap, inOrder (pf.heapInit heapStart heapSize heap) ∧
    live (pf.heapInit heapStart heapSize heap) = 0
  alloc : ∀ {heap size align addr heap'}, inOrder heap → 0 < size → (∃ n, align = 2 ^ n) →
    pf.heapAlloc size align heap = some (addr, heap') →
    inOrder heap' ∧ live heap' = (addr, size, align) ::ₘ live heap
  dealloc : ∀ {heap addr size align}, inOrder heap → (addr, size, align) ∈ live heap →
    inOrder (pf.heapDealloc addr size align heap) ∧
      live (pf.heapDealloc addr size align heap) = (live heap).erase (addr, size, align)

namespace HeapContract

variable {pf} (C : HeapContract pf) {F : Fatal → Prop}

/-- The heap is in order and these blocks are live. -/
def Holds (blocks : Multiset Block) (i : Ideal H) : Prop :=
  C.inOrder i.heap ∧ C.live i.heap = blocks

theorem ask_holds {size : Nat} (hsize : 0 < size) (blocks : Multiset Block) :
    Obeys (C.Holds blocks) (Ideal.ask pf size 4)
      (fun addr => C.Holds ((addr, size, 4) ::ₘ blocks)) fun _ => True := by
  rintro i ⟨horder, hlive⟩
  refine ⟨fun addr i' h => ?_, fun _ _ => trivial⟩
  unfold Ideal.ask at h
  split at h
  next addr' heap' hgot =>
    obtain ⟨rfl, rfl⟩ := Prod.mk.inj (Except.ok.inj h)
    have hpow : ∃ n, 4 = 2 ^ n := ⟨2, rfl⟩
    obtain ⟨horder', hlive'⟩ := C.alloc horder hsize hpow hgot
    exact ⟨horder', hlive'.trans (by rw [hlive])⟩
  · cases h

theorem giveBack_holds {addr size : Nat} {blocks : Multiset Block} :
    Obeys (C.Holds ((addr, size, 4) ::ₘ blocks)) (Ideal.giveBack pf addr size 4)
      (fun _ => C.Holds blocks) F := by
  refine Obeys.modify fun i h => ?_
  obtain ⟨horder, hlive⟩ := h
  have hmem : (addr, size, 4) ∈ C.live i.heap := by
    rw [hlive]
    exact Multiset.mem_cons_self _ _
  obtain ⟨horder', hlive'⟩ := C.dealloc horder hmem
  refine ⟨horder', hlive'.trans ?_⟩
  rw [hlive, Multiset.erase_cons_head]

theorem say_holds {blocks : Multiset Block} (text : List UInt8) :
    Obeys (C.Holds blocks) (Ideal.say text) (fun _ => C.Holds blocks) F :=
  Obeys.modify fun _ h => h

/-- Three blocks are asked for on the way, and the last one is left. -/
theorem grow_holds (blocks : Multiset Block) :
    Obeys (C.Holds blocks) (Ideal.grow pf) (fun addr => C.Holds ((addr, 64, 4) ::ₘ blocks))
      fun _ => True := by
  refine (C.ask_holds (by decide) blocks).bind fun four => ?_
  refine (C.ask_holds (by decide) _).bind fun eight => ?_
  rw [Multiset.cons_swap]
  refine C.giveBack_holds.bind fun _ => ?_
  refine (C.ask_holds (by decide) _).bind fun sixteen => ?_
  rw [Multiset.cons_swap]
  exact C.giveBack_holds.bind fun _ => Obeys.ret fun _ h => h

theorem mem_holds (blocks : Multiset Block) :
    Obeys (C.Holds blocks) (Ideal.mem pf) (fun _ => C.Holds blocks) fun _ => True := by
  refine Obeys.bind (Q := fun _ => C.Holds blocks) (Obeys.modify fun _ h => h) fun info => ?_
  refine (C.say_holds _).bind fun _ => (C.say_holds _).bind fun _ => ?_
  refine (C.ask_holds (by decide) blocks).bind fun valor => ?_
  refine (C.say_holds _).bind fun _ => (C.grow_holds _).bind fun lista => ?_
  refine (C.say_holds _).bind fun _ => C.giveBack_holds.bind fun _ => ?_
  exact C.giveBack_holds

theorem sayAll_holds {blocks : Multiset Block} (texts : List (List UInt8)) :
    Obeys (C.Holds blocks) (Ideal.sayAll texts) (fun _ => C.Holds blocks) F := by
  induction texts with
  | nil => exact Obeys.ret fun _ h => h
  | cons text texts ih => exact (C.say_holds text).bind fun _ => ih

theorem falha_holds {blocks : Multiset Block} (tipo : List UInt8) :
    Obeys (C.Holds blocks) (Ideal.falha pf tipo) (fun _ => C.Holds blocks) fun _ => True := by
  unfold Ideal.falha
  split
  · exact Obeys.raise trivial
  · split
    · exact Obeys.bind (Q := fun _ => C.Holds blocks) (Obeys.modify fun _ h => h) fun _ =>
        C.say_holds _
    · exact C.say_holds _

/-- No command leaves a block behind. -/
theorem answer_holds (blocks : Multiset Block) (line : List UInt8) :
    Obeys (C.Holds blocks) (Ideal.answer pf line) (fun _ => C.Holds blocks) fun _ => True := by
  refine Ideal.answer_obeys pf (fun _ _ h => h) (fun name rest reply _ hmem => ?_)
    fun _ _ _ _ => C.say_holds _
  simp only [Ideal.answers, List.mem_cons, Prod.mk.injEq, List.not_mem_nil, or_false] at hmem
  rcases hmem with ⟨_, rfl⟩ | ⟨_, rfl⟩ | ⟨_, rfl⟩ | ⟨_, rfl⟩ | ⟨_, rfl⟩ | ⟨_, rfl⟩ | ⟨_, rfl⟩
  · exact C.sayAll_holds _
  · exact Obeys.modify fun _ h => h
  · exact C.say_holds _
  · exact C.sayAll_holds _
  · exact Obeys.raise trivial
  · exact C.mem_holds blocks
  · exact C.falha_holds rest

theorem press_holds (scancode : UInt8) :
    Obeys (C.Holds 0) (Ideal.press pf scancode) (fun _ => C.Holds 0) fun _ => True := by
  refine Ideal.press_obeys pf (fun _ _ h => h) (fun _ _ _ h => h) (fun line => ?_) scancode
  exact Obeys.bind (Q := fun _ => C.Holds 0) (Obeys.modify fun _ h => h) fun _ =>
    C.answer_holds 0 line

end HeapContract

section Runs

variable {buffer : Buffer} {crtc : Crtc} {heap : H} {mem : Paging.Mem} {stream : List UInt8}
  {ls : List (Label Fatal Unit)} {m : Machine H}

/-- Outside boot and the drain, the globals render a state the ideal machine
reaches, also where scancodes were lost. -/
theorem idle_renders (hrun : Run (system pf).step (IdleRun false)
      (Machine.start pf (Kernel.start buffer crtc heap mem stream)) ls m)
    (hf : m.frames = []) (hpc : m.pc = .head ∨ ∃ enabled, m.pc = .leave enabled) :
    ∃ processed i, Ideal.Reaches pf mem heap processed i ∧ m.cfg.data.globals.Renders i := by
  obtain ⟨_, processed, i, _, hreach, hr⟩ :=
    loop_between pf (loop_inv pf (idleRun_loopInv pf) hrun) hf hpc
  exact ⟨processed, i, hreach, hr⟩

/-- Over every allocator that keeps its contract, and in every run without
fatal events, whatever is typed: the kernel keeps its own side of the
contract, so the heap stays in order, and outside boot and the drain no
block is live. -/
theorem no_block_leaks (C : HeapContract pf) (hrun : Run (system pf).step (IdleRun false)
      (Machine.start pf (Kernel.start buffer crtc heap mem stream)) ls m)
    (hf : m.frames = []) (hpc : m.pc = .head ∨ ∃ enabled, m.pc = .leave enabled) :
    C.inOrder m.cfg.data.globals.heap ∧ C.live m.cfg.data.globals.heap = 0 := by
  obtain ⟨processed, i, hreach, hr⟩ := idle_renders pf hrun hf hpc
  have hholds : C.Holds 0 i := hreach.invariant pf (fun _ => C.init heap) C.press_holds
  rw [hr.heap]
  exact hholds

end Runs

/-- The small PC with a heap that remembers what it has handed out. -/
def ledgerPlatform : Platform (Nat × Multiset Block) where
  memoryMap := smallPlatform.memoryMap
  root := smallPlatform.root
  heapInit start _ _ := (start, 0)
  heapAlloc size align heap := some (heap.1, heap.1 + size, (heap.1, size, align) ::ₘ heap.2)
  heapDealloc addr size align heap := (heap.1, heap.2.erase (addr, size, align))
  panicInfo := smallPlatform.panicInfo
  exceptionAddress := smallPlatform.exceptionAddress
  breakpointAddress := smallPlatform.breakpointAddress

def ledgerContract : HeapContract ledgerPlatform where
  inOrder _ := True
  live heap := heap.2
  init _ := ⟨trivial, rfl⟩
  alloc := by
    intro heap size align addr heap' _ _ _ h
    obtain ⟨rfl, rfl⟩ := Prod.mk.inj (Option.some.inj h)
    exact ⟨trivial, rfl⟩
  dealloc := by
    intro heap addr size align _ _
    exact ⟨trivial, rfl⟩

/-- `mem` and Enter, as they are typed. -/
def memKeys : List UInt8 := [0x32, 0x12, 0x32, 0x1C]

theorem memKeys_reaches :
    ∃ i, Ideal.Reaches ledgerPlatform (fun _ _ => .unused) (0, 0) memKeys i := by
  have hinfo : (memoryInit ledgerPlatform.memoryMap ledgerPlatform.root fun _ _ => .unused).map
      (·.info) = some ⟨63 * 4096, heapStart, heapSize⟩ := by decide +kernel
  obtain ⟨mi, hmi, hmi'⟩ := Option.map_eq_some_iff.mp hinfo
  have hok : (match Ideal.presses ledgerPlatform memKeys
      (Ideal.start ⟨63 * 4096, heapStart, heapSize⟩ (heapStart, 0)) with
    | .ok _ => true
    | .error _ => false) = true := by decide +kernel
  split at hok
  next r hr => exact ⟨r.2, mi, hmi, by rw [hmi']; exact hr⟩
  · cases hok

/-- Asleep after `mem`. -/
theorem no_block_leaks_small :
    ∃ ls m, Run (system ledgerPlatform).step (IdleRun false)
        (Machine.start ledgerPlatform (Kernel.start Writer.boot.buffer Writer.boot.crtc (0, 0)
          (fun _ _ => .unused) memKeys)) ls m ∧
      m.halted = true ∧ m.cfg.data.globals.heap.2 = 0 := by
  obtain ⟨i, hi⟩ := memKeys_reaches
  obtain ⟨ls, m, hrun, hrest, _⟩ : ∃ ls m, Run (system ledgerPlatform).step NoOverflow
      (Machine.start ledgerPlatform (Kernel.start Writer.boot.buffer Writer.boot.crtc (0, 0)
        (fun _ _ => .unused) (memKeys ++ []))) ls m ∧ Rested m ∧ _ :=
    rested_realised ledgerPlatform hi []
  have hpc := (loop_asleep ledgerPlatform (loop_inv ledgerPlatform
    (noOverflow_loopInv ledgerPlatform) hrun) hrest.halted).2
  have hidle := hrun.mono noOverflow_idle
  have hlive := (no_block_leaks ledgerPlatform ledgerContract hidle hrest.frames (.inr hpc)).2
  exact ⟨ls, m, hidle, hrest.halted, hlive⟩

/-! ## The serial log -/

/-- A line that raises a breakpoint. -/
def isBreakpoint (line : List UInt8) : Bool :=
  (nameAndRest (trim line)).1 = bytes "falha" ∧
    trim (nameAndRest (trim line)).2 = bytes "breakpoint"

/-- What running these lines leaves in the log. -/
def breakpointLog (lines : List (List UInt8)) : List (List UInt8) :=
  (lines.filter isBreakpoint).map fun _ => Ideal.breakpointLine

theorem breakpointLog_append (lines lines' : List (List UInt8)) :
    breakpointLog (lines ++ lines') = breakpointLog lines ++ breakpointLog lines' := by
  simp [breakpointLog]

namespace Ideal

/-- The log, the summary of memory and the lines run. -/
def Record (serial : List (List UInt8)) (info : MemoryInfo) (ran : List (List UInt8))
    (i : Ideal H) : Prop :=
  i.serial = serial ∧ i.info = info ∧ i.ran = ran

section Record

variable {serial ran : List (List UInt8)} {info : MemoryInfo}

theorem record_kept : Kept (Record serial info ran : Ideal H → Prop) where
  term _ _ h := h
  heap _ _ h := h

theorem falha_record (tipo : List UInt8) :
    Obeys (Record serial info ran) (falha pf tipo)
      (fun _ => Record (serial ++ if trim tipo = bytes "breakpoint" then [breakpointLine] else [])
        info ran) fun _ => True := by
  unfold falha
  split
  · exact Obeys.raise trivial
  · split
    · refine Obeys.bind (Q := fun _ => Record (serial ++ [breakpointLine]) info ran)
        (Obeys.modify fun i h => ?_) fun _ => record_kept.say _
      obtain ⟨rfl, hrest⟩ := h
      exact ⟨rfl, hrest⟩
    · rw [List.append_nil]
      exact record_kept.say _

/-- A command leaves one line in the log if it raises a breakpoint, and none
otherwise. -/
theorem answer_record (line : List UInt8) :
    Obeys (Record serial info ran) (answer pf line)
      (fun _ => Record (serial ++ breakpointLog [line]) info ran) fun _ => True := by
  -- All but `falha` are other names.
  have hother : ∀ name rest, nameAndRest (trim line) = (name, rest) → name ≠ bytes "falha" →
      serial ++ breakpointLog [line] = serial := by
    intro name rest hname hne
    simp [breakpointLog, isBreakpoint, hname, hne]
  refine answer_obeys pf (fun htrim i h => ?_) (fun name rest reply hname hmem => ?_)
    fun name rest hname hnone => ?_
  · rw [hother [] [] (by rw [htrim]; rfl) (by decide)]
    exact h
  · simp only [answers, List.mem_cons, Prod.mk.injEq, List.not_mem_nil, or_false] at hmem
    rcases hmem with ⟨rfl, rfl⟩ | ⟨rfl, rfl⟩ | ⟨rfl, rfl⟩ | ⟨rfl, rfl⟩ | ⟨rfl, rfl⟩ |
      ⟨rfl, rfl⟩ | ⟨rfl, rfl⟩
    · rw [hother _ _ hname (by decide)]; exact record_kept.sayAll _
    · rw [hother _ _ hname (by decide)]; exact Obeys.modify fun _ h => h
    · rw [hother _ _ hname (by decide)]; exact record_kept.say _
    · rw [hother _ _ hname (by decide)]; exact record_kept.sayAll _
    · exact Obeys.raise trivial
    · rw [hother _ _ hname (by decide)]; exact record_kept.mem pf
    · have hline : isBreakpoint line = decide (trim rest = bytes "breakpoint") := by
        simp [isBreakpoint, hname]
      have hlog : breakpointLog [line] =
          if trim rest = bytes "breakpoint" then [breakpointLine] else [] := by
        by_cases h : trim rest = bytes "breakpoint"
        · simp [breakpointLog, hline, h]
        · simp [breakpointLog, hline, h]
      rw [hlog]
      exact falha_record pf rest
  · have hne : name ≠ bytes "falha" := by
      have hmem : (bytes "falha", falha pf) ∈ answers pf := by simp [answers]
      simpa using List.lookup_eq_none_iff.mp hnone _ hmem
    rw [hother _ _ hname hne]
    exact record_kept.say _

end Record

/-- The log is that of the boot and of the lines run. -/
def Logged (i : Ideal H) : Prop := i.serial = bootLog i.info ++ breakpointLog i.ran

theorem press_logged (scancode : UInt8) :
    Obeys Logged (press pf scancode) (fun _ => Logged) fun _ => True := by
  refine press_obeys pf (fun _ _ h => h) (fun _ _ _ h => h) (fun line i h => ?_) scancode
  have hexecute : Obeys (Record i.serial i.info i.ran) (execute pf line)
      (fun _ => Record (i.serial ++ breakpointLog [line]) i.info (i.ran ++ [line]))
      fun _ => True := by
    refine Obeys.bind (Q := fun _ => Record i.serial i.info (i.ran ++ [line]))
      (Obeys.modify fun i' h' => ?_) fun _ => answer_record pf line
    obtain ⟨hserial, hinfo, hran⟩ := h'
    exact ⟨hserial, hinfo, by rw [hran]⟩
  refine ⟨fun _ i' hrun => ?_, fun _ _ => trivial⟩
  obtain ⟨hserial, hinfo, hran⟩ := (hexecute i ⟨rfl, rfl, rfl⟩).1 () i' hrun
  rw [Logged, hserial, hinfo, hran, breakpointLog_append, h, List.append_assoc]

end Ideal

/-- In every run without fatal events, whatever is typed and however the
interrupts fall, what has been sent to the serial port outside boot and the
drain is the log of the boot and one line for each line run that raises a
breakpoint, in whole lines. -/
theorem serial_log {buffer : Buffer} {crtc : Crtc} {heap : H} {mem : Paging.Mem}
    {stream : List UInt8} {ls : List (Label Fatal Unit)} {m : Machine H}
    (hrun : Run (system pf).step (IdleRun false)
      (Machine.start pf (Kernel.start buffer crtc heap mem stream)) ls m)
    (hf : m.frames = []) (hpc : m.pc = .head ∨ ∃ enabled, m.pc = .leave enabled) :
    ∃ info, m.cfg.data.globals.memoryInfo = some info ∧
      m.cfg.data.globals.serial1 =
        (Ideal.bootLog info ++ breakpointLog m.cfg.data.globals.executed).flatMap
          (· ++ bytes "\n") := by
  obtain ⟨processed, i, hreach, hr⟩ := idle_renders pf hrun hf hpc
  have hlogged : i.Logged := hreach.invariant pf
    (fun info => (List.append_nil (Ideal.bootLog info)).symm) (Ideal.press_logged pf)
  refine ⟨i.info, hr.info, ?_⟩
  rw [hr.serial, hr.ran, hlogged]

/-- Asleep after `falha breakpoint`: the log of the boot, and one line. -/
theorem serial_log_small :
    ∃ ls m info, Run (system smallPlatform).step (IdleRun false) (smallStart breakpointKeys) ls m ∧
      m.halted = true ∧ m.cfg.data.globals.executed = [bytes "falha breakpoint"] ∧
      m.cfg.data.globals.serial1 =
        (Ideal.bootLog info ++ [Ideal.breakpointLine]).flatMap (· ++ bytes "\n") := by
  obtain ⟨i, hi, hran⟩ := presses_ok breakpointKeys Ideal.ran
    (x := [bytes "falha breakpoint"]) (by decide +kernel)
  obtain ⟨ls, k, enabled, hrun, hk⟩ := smallStart_serves
    (idleRun_serves (H := Nat) false) (breakpointKeys.map fun code => [code]) [] (by decide) hi
  obtain ⟨info, _, hserial⟩ := serial_log smallPlatform hrun rfl (.inr ⟨enabled, rfl⟩)
  have hexecuted : (asleep k enabled).cfg.data.globals.executed = [bytes "falha breakpoint"] :=
    hk.renders.ran.trans hran
  rw [hexecuted] at hserial
  exact ⟨ls, _, info, hrun, rfl, hexecuted, hserial⟩

end ProtoOs.Ref
