import ProtoOs.Lib.Mirror
import ProtoOs.Proofs.Commands
import ProtoOs.Proofs.Keyboard
import ProtoOs.Proofs.Session

/-!
# The kernel as someone at the keyboard knows it

What the kernel is for, with nothing of how it does it: a terminal with no
end, a line being typed, two Shift keys, a heap and a serial log of lines.
A scancode is a step of this machine (`Ideal.press`); it may raise a fatal
event, and then there is no next state. There is no buffer in it, no array,
no lock, no interrupt and no queue.

`process_mirrors` says that one turn of the drain is that step, in every
state and for every scancode: it returns where the step has a next state,
to globals that render it, and faults with the event the step raises.
-/

namespace ProtoOs.Ref

open ProtoOs.Lib ProtoOs.Lib.Prog

structure Ideal (H : Type) where
  term : Terminal UInt8
  line : List UInt8
  shift : ShiftState
  info : MemoryInfo
  heap : H
  /-- The lines sent to the serial port. -/
  serial : List (List UInt8)
  /-- The lines that have been run. -/
  ran : List (List UInt8)

theorem printBytes_append (t : Terminal UInt8) (s s' : List UInt8) :
    printBytes t (s ++ s') = printBytes (printBytes t s) s' := List.foldl_append

namespace Ideal

variable {H : Type}

abbrev Act (H α : Type) := StateT (Ideal H) (Except Fatal) α

def write (text : List UInt8) : Act H Unit :=
  modifyGet fun i => ((), { i with term := printBytes i.term text })

def say (text : List UInt8) : Act H Unit := write (text ++ bytes "\n")

def sayAll : List (List UInt8) → Act H Unit
  | [] => pure ()
  | text :: texts => do
      say text
      sayAll texts

theorem sayAll_eq (texts : List (List UInt8)) : ∀ i : Ideal H,
    sayAll texts i =
      .ok ((), { i with term := printBytes i.term (texts.flatMap (· ++ bytes "\n")) }) := by
  induction texts with
  | nil => exact fun _ => rfl
  | cons text texts ih =>
      intro i
      rw [List.flatMap_cons, printBytes_append]
      exact ih _

def wipe : Act H Unit := modifyGet fun i => ((), { i with term := Terminal.blank bufferHeight })

def log (text : List UInt8) : Act H Unit :=
  modifyGet fun i => ((), { i with serial := i.serial ++ [text] })

variable (pf : Platform H)

/-- A block from the heap; a heap that has none is the end. -/
def ask (size align : Nat) : Act H Nat := fun i =>
  match pf.heapAlloc size align i.heap with
  | some (addr, heap) => .ok (addr, { i with heap })
  | none => .error (allocError size align)

def giveBack (addr size align : Nat) : Act H Unit :=
  modifyGet fun i => ((), { i with heap := pf.heapDealloc addr size align i.heap })

/-! ## Commands -/

/-- A vector that grows to ten elements, by way of four and eight, and ends
with room for sixteen. -/
def grow : Act H Nat := do
  let four ← ask pf 16 4
  let eight ← ask pf 32 4
  giveBack pf four 16 4
  let sixteen ← ask pf 64 4
  giveBack pf eight 32 4
  pure sixteen

def mem : Act H Unit := do
  let info ← modifyGet fun i => (i.info, i)
  say (bytes "memoria fisica utilizavel: " ++ decimal (info.usableBytes / 1024) ++ bytes " KiB")
  say (bytes "heap: " ++ hex info.heapStart ++ bytes ", " ++
    decimal (info.heapSize / 1024) ++ bytes " KiB")
  let valor ← ask pf 4 4
  say (bytes "Box: valor=42, endereco=" ++ hex valor)
  let lista ← grow pf
  say (bytes "Vec: tamanho=10, capacidade=16, soma=55")
  giveBack pf lista 64 4
  giveBack pf valor 4 4

def breakpointLine : List UInt8 := bytes "[EXCEPTION] breakpoint (int3)"

def breakpoint : Act H Unit := do
  log breakpointLine
  say (bytes "[EXCEPTION] breakpoint (#BP) em " ++ hex pf.breakpointAddress)

/-- The exceptions `falha` raises, by name. -/
def faults : List (List UInt8 × Exception) :=
  [ (bytes "pagina", .pageFault 0 (heapStart + heapSize)),
    (bytes "pilha", .doubleFault),
    (bytes "opcode", .invalidOpcode),
    (bytes "protecao", .generalProtection 0) ]

def falha (tipo : List UInt8) : Act H Unit :=
  match faults.lookup (trim tipo) with
  | some x => throw (.exception x (pf.exceptionAddress x))
  | none =>
      if trim tipo = bytes "breakpoint" then breakpoint pf
      else say (bytes "tipos disponiveis: pagina, pilha, opcode, protecao, breakpoint")

def answers : List (List UInt8 × (List UInt8 → Act H Unit)) :=
  [ (bytes "help", fun _ => sayAll (commands.map fun c => c.1 ++ bytes " - " ++ c.2)),
    (bytes "clear", fun _ => wipe),
    (bytes "echo", say),
    (bytes "sobre", fun _ => sayAll
      [version,
        bytes "proto-os: demonstracao de boot bare metal em Rust, sem SO por baixo.",
        bytes "Boot via BIOS, saida VGA e teclado via IRQ1, tudo no mesmo binario."]),
    (bytes "panic", fun _ => throw (.panic (bytes "comando panic executado no prompt"))),
    (bytes "mem", fun _ => mem pf),
    (bytes "falha", falha pf) ]

/-- What a line does. -/
def answer (line : List UInt8) : Act H Unit :=
  if trim line = [] then pure ()
  else
    let (name, rest) := nameAndRest (trim line)
    match (answers pf).lookup name with
    | some reply => reply rest
    | none => say (unknownCommand name)

/-! ## Keys -/

def execute (line : List UInt8) : Act H Unit := do
  modifyGet fun i => ((), { i with ran := i.ran ++ [line] })
  answer pf line

def runLine : Act H Unit := do
  say []
  let line ← modifyGet fun i => (i.line, i)
  execute pf line
  modifyGet fun i => ((), { i with line := [] })

def enter : Act H Unit := do
  runLine pf
  write prompt

def strike (byte : UInt8) : Act H Unit :=
  if byte = 0x0A then enter pf
  else modifyGet fun i =>
    let e := Editor.key bufferWidth lineCapacity ⟨i.term, i.line, 0⟩ (keyOf byte)
    ((), { i with term := e.term, line := e.line })

def press (scancode : UInt8) : Act H Unit := do
  let byte ← modifyGet fun i =>
    (keyboard.emit i.shift scancode, { i with shift := keyboard.step i.shift scancode })
  match byte with
  | some byte => strike pf byte
  | none => pure ()

def presses : List UInt8 → Act H Unit
  | [] => pure ()
  | scancode :: stream => do
      press pf scancode
      presses stream

theorem presses_append (stream stream' : List UInt8) :
    presses pf (stream ++ stream') =
      (presses pf stream >>= fun _ => presses pf stream') := by
  induction stream with
  | nil => simp [presses]
  | cons x stream ih => simp [presses, ih]

end Ideal

/-! ## Rendering -/

variable {H : Type}

/-- The globals show the state, and no fatal event has struck. -/
structure Globals.Renders (g : Globals H) (i : Ideal H) : Prop where
  tracks : g.writer.Tracks i.term
  holds : g.line.Holds i.line
  shift : g.shift = i.shift
  info : g.memoryInfo = some i.info
  heap : g.heap = i.heap
  serial : g.serial1 = i.serial.flatMap (· ++ bytes "\n")
  ran : g.executed = i.ran
  calm : g.panicking = false

section Words

variable {trap : Cfg LockId (Globals H) → Outcome LockId (Globals H) Fatal Unit}
  {h : LockId → Bool} {b : Bool} (pf : Platform H)

theorem print_mirrors (text : List UInt8) (hh : WriterFree h) :
    Mirrors trap Globals.Renders h b (print text) (Ideal.write text) := by
  refine Mirrors.of_modify fun g i hr => ?_
  obtain ⟨w, hw, ht⟩ := Writer.writeString_tracks hr.tracks text
  exact ⟨_, print_yields hh hw, { hr with tracks := ht }⟩

theorem println_mirrors (text : List UInt8) (hh : WriterFree h) :
    Mirrors trap Globals.Renders h b (println text) (Ideal.say text) := print_mirrors _ hh

theorem clearScreen_mirrors (hh : WriterFree h) :
    Mirrors trap Globals.Renders h b clearScreen Ideal.wipe := by
  refine Mirrors.of_modify fun g i hr => ?_
  obtain ⟨w, hw, ht⟩ := g.writer.clearScreen_tracks
  exact ⟨_, clearScreen_yields hh hw, { hr with tracks := ht }⟩

theorem serialPrintln_mirrors (text : List UInt8) (hh : h .serial1 = false) :
    Mirrors trap Globals.Renders h b (serialPrintln text) (Ideal.log text) := by
  refine Mirrors.of_modify fun g i hr =>
    ⟨_, serialPrintln_yields text hh, { hr with serial := ?_ }⟩
  simp [hr.serial]

theorem memoryInfo_mirrors (hh : h .memoryInfo = false) :
    Mirrors trap Globals.Renders h b memoryInfo (modifyGet fun i => (i.info, i)) :=
  Mirrors.of_yields fun g i hr => ⟨i.info, g, i, rfl, memoryInfo_yields hh hr.info, hr⟩

theorem alloc_mirrors (size align : Nat) (hh : h .heap = false) :
    Mirrors trap Globals.Renders h b (alloc pf size align) (Ideal.ask pf size align) := by
  intro g i hr
  have hheap := hr.heap
  unfold Ideal.ask
  cases hgot : pf.heapAlloc size align i.heap with
  | some r =>
      refine ⟨{ g with heap := r.2 }, ?_, { hr with heap := rfl }⟩
      refine Yields.bind (a := some r.1) (Yields.withLock hh (Yields.act ?_)) Yields.ret
      rw [hheap, hgot]
      exact Yields.ret
  | none =>
      have hnone : (withLock .heap (Prog.act
          (fun g : Globals H => match pf.heapAlloc size align g.heap with
            | some (_, heap) => { g with heap }
            | none => g)
          fun g => ret ((pf.heapAlloc size align g.heap).map Prod.fst)) :
          Code H (Option Nat)).Yields trap g h b none g := by
        refine Yields.withLock hh (Yields.act ?_)
        rw [hheap, hgot]
        exact Yields.ret
      exact Faults.bind hnone Faults.fault

theorem dealloc_mirrors (addr size align : Nat) (hh : h .heap = false) :
    Mirrors trap Globals.Renders h b (dealloc pf addr size align)
      (Ideal.giveBack pf addr size align) := by
  refine Mirrors.of_modify fun g i hr => ⟨_, Yields.withLock hh Yields.modify,
    { hr with heap := ?_ }⟩
  simp only [hr.heap]

/-! ## Commands -/

/-- The locks a command runs with: `LINE` at most. -/
def LineOnly (h : LockId → Bool) : Prop := ∀ l, l ≠ .line → h l = false

theorem LineOnly.writerFree (hh : LineOnly h) : WriterFree h :=
  ⟨hh _ (by decide), hh _ (by decide)⟩

variable (hh : LineOnly h)

include hh

theorem say_mirrors (text : List UInt8) :
    Mirrors trap Globals.Renders h b (println text) (Ideal.say text) :=
  println_mirrors text hh.writerFree

theorem describe_mirrors (table : List (List UInt8 × List UInt8)) :
    Mirrors trap Globals.Renders h b (describe table)
      (Ideal.sayAll (table.map fun c => c.1 ++ bytes " - " ++ c.2)) := by
  induction table with
  | nil => exact Mirrors.ret
  | cons row table ih => exact Mirrors.bind (say_mirrors hh _) fun _ => ih

theorem ask_mirrors (size align : Nat) :
    Mirrors trap Globals.Renders h b (alloc pf size align) (Ideal.ask pf size align) :=
  alloc_mirrors pf size align (hh _ (by decide))

theorem giveBack_mirrors (addr size align : Nat) :
    Mirrors trap Globals.Renders h b (dealloc pf addr size align)
      (Ideal.giveBack pf addr size align) :=
  dealloc_mirrors pf addr size align (hh _ (by decide))

/-! The vector of `mem` is pushed to ten times; what reaches the heap is the
three times it grows. -/

omit hh in
def Ideal.push (v : VecI32) (x : Nat) : Ideal.Act H VecI32 :=
  if v.items.length < v.capacity then pure { v with items := v.items ++ [x] }
  else if v.capacity = 0 then do
    let addr ← Ideal.ask pf 16 4
    pure ⟨addr, 4, v.items ++ [x]⟩
  else do
    let addr ← Ideal.ask pf (v.capacity * 2 * 4) 4
    Ideal.giveBack pf v.addr (v.capacity * 4) 4
    pure ⟨addr, v.capacity * 2, v.items ++ [x]⟩

theorem push_mirrors (v : VecI32) (x : Nat) :
    Mirrors trap Globals.Renders h b (v.push pf x) (Ideal.push pf v x) := by
  unfold VecI32.push Ideal.push
  split
  · exact Mirrors.ret
  · split
    · exact Mirrors.bind (ask_mirrors pf hh _ _) fun _ => Mirrors.ret
    · exact Mirrors.bind (ask_mirrors pf hh _ _) fun _ =>
        Mirrors.bind (giveBack_mirrors pf hh _ _ _) fun _ => Mirrors.ret

theorem extend_mirrors (xs : List Nat) : ∀ v : VecI32,
    Mirrors trap Globals.Renders h b (v.extend pf xs) (xs.foldlM (Ideal.push pf) v) := by
  induction xs with
  | nil => exact fun _ => Mirrors.ret
  | cons x xs ih =>
      intro v
      rw [List.foldlM_cons]
      exact Mirrors.bind (push_mirrors pf hh v x) ih

omit hh in
theorem foldlM_push_ten :
    (List.range' 1 10).foldlM (Ideal.push pf) VecI32.new =
      (Ideal.grow pf >>= fun addr => pure ⟨addr, 16, List.range' 1 10⟩) := by
  have hten : List.range' 1 10 = [1, 2, 3, 4, 5, 6, 7, 8, 9, 10] := rfl
  simp [hten, Ideal.push, VecI32.new, Ideal.grow]

theorem cmdMem_mirrors : Mirrors trap Globals.Renders h b (cmdMem pf) (Ideal.mem pf) := by
  have hbox : bytes "Box: valor=" ++ decimal 42 ++ bytes ", endereco=" =
      bytes "Box: valor=42, endereco=" := by decide +kernel
  have hvec : bytes "Vec: tamanho=" ++ decimal (List.range' 1 10).length ++
      bytes ", capacidade=" ++ decimal 16 ++ bytes ", soma=" ++
      decimal ((List.range' 1 10).foldl (· + ·) 0) =
      bytes "Vec: tamanho=10, capacidade=16, soma=55" := by decide +kernel
  refine Mirrors.bind (memoryInfo_mirrors (hh _ (by decide))) fun info => ?_
  refine Mirrors.bind (say_mirrors hh _) fun _ => ?_
  refine Mirrors.bind (say_mirrors hh _) fun _ => ?_
  refine Mirrors.bind (ask_mirrors pf hh _ _) fun valor => ?_
  rw [← hbox]
  refine Mirrors.bind (say_mirrors hh _) fun _ => ?_
  -- What is left reads the vector, whatever it is.
  have hrest : Mirrors trap Globals.Renders h b _ _ :=
    Mirrors.bind (extend_mirrors pf hh (List.range' 1 10) VecI32.new) fun lista =>
    Mirrors.bind (say_mirrors hh (bytes "Vec: tamanho=" ++ decimal lista.items.length ++
      bytes ", capacidade=" ++ decimal lista.capacity ++
      bytes ", soma=" ++ decimal (lista.items.foldl (· + ·) 0))) fun _ =>
    Mirrors.bind (giveBack_mirrors pf hh lista.addr (lista.capacity * 4) 4) fun _ =>
      giveBack_mirrors pf hh valor 4 4
  rw [foldlM_push_ten, bind_assoc] at hrest
  simp only [pure_bind, hvec] at hrest
  exact hrest

theorem cmdSobre_mirrors : Mirrors trap Globals.Renders h b cmdSobre
    (Ideal.sayAll
      [version,
        bytes "proto-os: demonstracao de boot bare metal em Rust, sem SO por baixo.",
        bytes "Boot via BIOS, saida VGA e teclado via IRQ1, tudo no mesmo binario."]) := by
  simp only [Ideal.sayAll, bind_pure_unit]
  exact Mirrors.bind (say_mirrors hh _) fun _ => Mirrors.bind (say_mirrors hh _) fun _ =>
    say_mirrors hh _

theorem breakpoint_mirrors :
    Mirrors (globalsTrapRun pf) Globals.Renders h b cmdFalhaBreakpoint (Ideal.breakpoint pf) := by
  have hhandler : Mirrors Outcome.halt Globals.Renders h false (breakpointHandler pf)
      (Ideal.breakpoint pf) :=
    Mirrors.bind (serialPrintln_mirrors _ (hh _ (by decide))) fun _ => say_mirrors hh _
  intro g i hr
  obtain ⟨g', hy, hr'⟩ := hhandler g i hr
  exact ⟨g', Yields.int3 hy, hr'⟩

omit hh in
theorem lookup_cons_ite {β : Type} {name key : List UInt8} {x : β}
    {table : List (List UInt8 × β)} :
    ((key, x) :: table).lookup name = if name = key then some x else table.lookup name := by
  rw [List.lookup_cons]
  by_cases h : name = key
  · simp [h]
  · rw [if_neg h, beq_false_of_ne h]

theorem cmdFalha_mirrors (tipo : List UInt8) :
    Mirrors (globalsTrapRun pf) Globals.Renders h b (cmdFalha pf tipo) (Ideal.falha pf tipo) := by
  unfold cmdFalha Ideal.falha Ideal.faults
  simp only [lookup_cons_ite, List.lookup_nil]
  by_cases hpagina : trim tipo = bytes "pagina"
  · simp only [if_pos hpagina]
    exact Mirrors.fault
  by_cases hpilha : trim tipo = bytes "pilha"
  · simp only [if_neg hpagina, if_pos hpilha]
    exact Mirrors.fault
  by_cases hopcode : trim tipo = bytes "opcode"
  · simp only [if_neg hpagina, if_neg hpilha, if_pos hopcode]
    exact Mirrors.fault
  by_cases hprotecao : trim tipo = bytes "protecao"
  · simp only [if_neg hpagina, if_neg hpilha, if_neg hopcode, if_pos hprotecao]
    exact Mirrors.fault
  simp only [if_neg hpagina, if_neg hpilha, if_neg hopcode, if_neg hprotecao]
  split
  · exact breakpoint_mirrors pf hh
  · exact say_mirrors hh _

/-- Every command is the answer of its name. -/
theorem handlers_mirror :
    List.Forall₂ (fun f f' => f.1 = f'.1 ∧ ∀ rest,
      Mirrors (globalsTrapRun pf) Globals.Renders h b (f.2 rest) (f'.2 rest))
      (handlers pf) (Ideal.answers pf) := by
  refine .cons ⟨rfl, fun _ => describe_mirrors hh commands⟩ ?_
  refine .cons ⟨rfl, fun _ => clearScreen_mirrors hh.writerFree⟩ ?_
  refine .cons ⟨rfl, fun _ => say_mirrors hh _⟩ ?_
  refine .cons ⟨rfl, fun _ => cmdSobre_mirrors hh⟩ ?_
  refine .cons ⟨rfl, fun _ => Mirrors.fault⟩ ?_
  refine .cons ⟨rfl, fun _ => cmdMem_mirrors pf hh⟩ ?_
  exact .cons ⟨rfl, cmdFalha_mirrors pf hh⟩ .nil

theorem command_mirrors (line : List UInt8) :
    Mirrors (globalsTrapRun pf) Globals.Renders h b (command pf line) (Ideal.answer pf line) := by
  unfold command Ideal.answer
  split
  · exact Mirrors.ret
  · rw [dispatch_eq]
    dsimp only
    have htables := handlers_mirror pf (b := b) hh
    generalize handlers pf = table at htables
    generalize Ideal.answers pf = table' at htables
    induction htables with
    | nil => exact say_mirrors hh _
    | @cons f f' table table' hhead _ ih =>
        obtain ⟨hname, hbody⟩ := hhead
        obtain ⟨name, body⟩ := f
        obtain ⟨name', body'⟩ := f'
        obtain rfl : name = name' := hname
        rw [lookup_cons_ite, lookup_cons_ite]
        split
        · exact hbody _
        · exact ih

end Words

/-! ## Keys -/

section Keys

variable {b : Bool} (pf : Platform H)

theorem execute_mirrors (line : List UInt8) {h : LockId → Bool} (hh : LineOnly h) :
    Mirrors (globalsTrapRun pf) Globals.Renders h b (execute pf line)
      (Ideal.execute pf line) := by
  rw [execute_eq]
  refine Mirrors.bind (Mirrors.of_modify fun g i hr => ⟨_, Yields.modify, { hr with ran := ?_ }⟩)
    fun _ => command_mirrors pf hh line
  simp only [hr.ran]

theorem runLine_mirrors :
    Mirrors (globalsTrapRun pf) Globals.Renders noLock b (runLine pf) (Ideal.runLine pf) := by
  refine Mirrors.bind (print_mirrors _ noLock_writerFree) fun _ => Mirrors.withLock rfl ?_
  refine Mirrors.bind (Mirrors.of_yields fun g i hr => ⟨i.line, g, i, rfl, ?_, hr⟩) fun line => ?_
  · exact Yields.attempt (by rw [hr.holds.asStr]; rfl)
  · refine Mirrors.bind (execute_mirrors pf line fun l hl => ?_) fun _ => ?_
    · exact Function.update_of_ne hl _ _
    · exact Mirrors.of_modify fun g i hr => ⟨_, Yields.modify,
        { hr with holds := LineBuffer.holds_nil rfl }⟩

/-- What no key but Enter changes. -/
def Globals.aside (g : Globals H) :
    ShiftState × Option MemoryInfo × H × List UInt8 × List (List UInt8) × Bool :=
  (g.shift, g.memoryInfo, g.heap, g.serial1, g.executed, g.panicking)

section Aside

variable {trap : Cfg LockId (Globals H) → Outcome LockId (Globals H) Fatal Unit}
  {x : ShiftState × Option MemoryInfo × H × List UInt8 × List (List UInt8) × Bool}

theorem aside_offScreen : OffScreen fun g : Globals H => g.aside = x where
  writer _ _ h := h
  ready _ h := h

theorem feed_aside {byte : UInt8} (hn : byte ≠ 0x0A) :
    (feed pf byte).Keeps trap fun g => g.aside = x := by
  refine Keeps.bind (Triple.modify fun _ h => h) fun _ => ?_
  rw [if_neg hn]
  split
  · refine Keeps.bind (Triple.withLock (Keeps.act (fun _ h => h) fun _ => Triple.ret fun _ h => h))
      fun popped => ?_
    split
    · exact aside_offScreen.backspace
    · exact Triple.ret fun _ h => h
  · split
    · refine Keeps.bind (Triple.withLock (Triple.attempt fun g a g' h hg => ?_)) fun pushed => ?_
      · obtain ⟨r, _, hr⟩ := Option.map_eq_some_iff.mp hg
        obtain ⟨_, rfl⟩ := Prod.mk.inj hr
        exact h
      · split
        · exact aside_offScreen.print _
        · exact Triple.ret fun _ h => h
    · exact Triple.ret fun _ h => h

end Aside

theorem feed_mirrors (byte : UInt8) :
    Mirrors (globalsTrapRun pf) Globals.Renders noLock b (feed pf byte) (Ideal.strike pf byte) := by
  by_cases hn : byte = 0x0A
  · subst hn
    exact Mirrors.skip (fun g i hr => ⟨_, Yields.modify, { hr with }⟩)
      (Mirrors.bind (runLine_mirrors pf) fun _ => print_mirrors _ noLock_writerFree)
  · rw [Ideal.strike, if_neg hn]
    refine Mirrors.of_modify fun g i hr => ?_
    have he : g.Edits ⟨i.term, i.line, 0⟩ := ⟨hr.tracks, hr.holds⟩
    obtain ⟨g', hy, he'⟩ := feed_edits (globalsTrapRun pf) pf (b := b) he hn
    have haside : g'.aside = g.aside := hy.post (feed_aside pf hn) rfl
    simp only [Globals.aside, Prod.mk.injEq] at haside
    obtain ⟨hshift, hinfo, hheap, hserial, hran, hcalm⟩ := haside
    exact ⟨g', hy, he'.tracks, he'.holds, hshift.trans hr.shift, hinfo.trans hr.info,
      hheap.trans hr.heap, hserial.trans hr.serial, hran.trans hr.ran, hcalm.trans hr.calm⟩

/-- One turn of the drain is one step of the ideal machine. -/
theorem process_mirrors (scancode : UInt8) :
    Mirrors (globalsTrapRun pf) Globals.Renders noLock b (process pf scancode)
      (Ideal.press pf scancode) := by
  refine Mirrors.bind (Mirrors.of_yields fun g i hr => ?_) fun byte => ?_
  · have hy : (translate scancode).Yields (globalsTrapRun pf) g noLock b _ _ :=
      translate_yields scancode rfl
    rw [hr.shift] at hy
    exact ⟨_, _, _, rfl, hy, { hr with shift := rfl }⟩
  · cases byte with
    | some byte => exact feed_mirrors pf byte
    | none => exact Mirrors.ret

end Keys

/-! ## What every session keeps -/

namespace Ideal

variable (pf : Platform H) {K : Ideal H → Prop} {F : Fatal → Prop}

/-- What every command obeys, and the message for the unknown ones, every
line obeys. -/
theorem answer_obeys {P Q : Ideal H → Prop} {line : List UInt8}
    (hempty : trim line = [] → ∀ i, P i → Q i)
    (hreply : ∀ name rest reply, nameAndRest (trim line) = (name, rest) →
      (name, reply) ∈ answers pf → Obeys P (reply rest) (fun _ => Q) F)
    (hunknown : ∀ name rest, nameAndRest (trim line) = (name, rest) →
      (answers pf).lookup name = none → Obeys P (say (unknownCommand name)) (fun _ => Q) F) :
    Obeys P (answer pf line) (fun _ => Q) F := by
  unfold answer
  split
  next htrim => exact Obeys.ret (hempty htrim)
  · cases hname : nameAndRest (trim line) with
    | mk name rest =>
        dsimp only
        split
        next reply hfound =>
          obtain ⟨before, after, htable, _⟩ := List.lookup_eq_some_iff.mp hfound
          refine hreply name rest reply hname ?_
          rw [htable]
          exact List.mem_append_right _ List.mem_cons_self
        next hnone => exact hunknown name rest hname hnone

/-- Only Enter can break what does not depend on the screen, the line being
typed and the Shift keys. -/
theorem press_obeys
    (hshift : ∀ i shift, K i → K { i with shift })
    (hedit : ∀ i term line, K i → K { i with term, line })
    (hexecute : ∀ line, Obeys K (execute pf line) (fun _ => K) F) (scancode : UInt8) :
    Obeys K (press pf scancode) (fun _ => K) F := by
  have hrun : Obeys K (runLine pf) (fun _ => K) F := by
    refine Obeys.bind (Q := fun _ => K) (Obeys.modify fun i h => hedit i _ i.line h) fun _ => ?_
    refine Obeys.bind (Q := fun _ => K) (Obeys.modify fun _ h => h) fun line => ?_
    exact (hexecute line).bind fun _ => Obeys.modify fun i h => hedit i i.term [] h
  have hstrike : ∀ byte, Obeys K (strike pf byte) (fun _ => K) F := by
    intro byte
    unfold strike
    split
    · exact hrun.bind fun _ => Obeys.modify fun i h => hedit i _ i.line h
    · exact Obeys.modify fun i h => hedit i _ _ h
  refine Obeys.bind (Q := fun _ => K) (Obeys.modify fun i h => hshift i _ h) fun byte => ?_
  cases byte with
  | some byte => exact hstrike byte
  | none => exact Obeys.ret fun _ h => h

theorem presses_obeys (hpress : ∀ scancode, Obeys K (press pf scancode) (fun _ => K) F)
    (stream : List UInt8) : Obeys K (presses pf stream) (fun _ => K) F := by
  induction stream with
  | nil => exact Obeys.ret fun _ h => h
  | cons scancode stream ih => exact (hpress scancode).bind fun _ => ih

/-! ## What commands leave alone -/

/-- A fact that does not depend on the screen and the heap, which is all that
most commands change. -/
structure Kept (K : Ideal H → Prop) : Prop where
  term : ∀ i term, K i → K { i with term }
  heap : ∀ i heap, K i → K { i with heap }

namespace Kept

variable (hK : Kept K)

include hK

theorem write (text : List UInt8) : Obeys K (write text) (fun _ => K) F :=
  Obeys.modify fun i h => hK.term i _ h

theorem say (text : List UInt8) : Obeys K (say text) (fun _ => K) F := hK.write _

theorem sayAll (texts : List (List UInt8)) : Obeys K (sayAll texts) (fun _ => K) F := by
  induction texts with
  | nil => exact Obeys.ret fun _ h => h
  | cons text texts ih => exact (hK.say text).bind fun _ => ih

theorem ask (size align : Nat) :
    Obeys K (ask pf size align) (fun _ => K) fun _ => True := by
  intro i h
  refine ⟨fun addr i' hask => ?_, fun _ _ => trivial⟩
  unfold Ideal.ask at hask
  split at hask
  · obtain ⟨_, rfl⟩ := Prod.mk.inj (Except.ok.inj hask)
    exact hK.heap i _ h
  · cases hask

theorem giveBack (addr size align : Nat) :
    Obeys K (giveBack pf addr size align) (fun _ => K) F :=
  Obeys.modify fun i h => hK.heap i _ h

theorem mem : Obeys K (mem pf) (fun _ => K) fun _ => True := by
  have hgrow : Obeys K (grow pf) (fun _ => K) fun _ => True :=
    (hK.ask pf 16 4).bind fun _ => (hK.ask pf 32 4).bind fun _ =>
      (hK.giveBack pf _ 16 4).bind fun _ => (hK.ask pf 64 4).bind fun _ =>
        (hK.giveBack pf _ 32 4).bind fun _ => Obeys.ret fun _ h => h
  refine Obeys.bind (Q := fun _ => K) (Obeys.modify fun _ h => h) fun _ => ?_
  exact (hK.say _).bind fun _ => (hK.say _).bind fun _ => (hK.ask pf 4 4).bind fun _ =>
    (hK.say _).bind fun _ => hgrow.bind fun _ => (hK.say _).bind fun _ =>
      (hK.giveBack pf _ 64 4).bind fun _ => hK.giveBack pf _ 4 4

/-- `falha` also changes the log. -/
theorem answer (hserial : ∀ i serial, K i → K { i with serial }) (line : List UInt8) :
    Obeys K (answer pf line) (fun _ => K) fun _ => True := by
  refine answer_obeys pf (fun _ _ h => h) (fun name rest reply _ hmem => ?_)
    fun _ _ _ _ => hK.say _
  simp only [answers, List.mem_cons, Prod.mk.injEq, List.not_mem_nil, or_false] at hmem
  rcases hmem with ⟨_, rfl⟩ | ⟨_, rfl⟩ | ⟨_, rfl⟩ | ⟨_, rfl⟩ | ⟨_, rfl⟩ | ⟨_, rfl⟩ | ⟨_, rfl⟩
  · exact hK.sayAll _
  · exact Obeys.modify fun i h => hK.term i _ h
  · exact hK.say _
  · exact hK.sayAll _
  · exact Obeys.raise trivial
  · exact hK.mem pf
  · unfold falha
    split
    · exact Obeys.raise trivial
    · split
      · exact Obeys.bind (Q := fun _ => K) (Obeys.modify fun i h => hserial i _ h) fun _ => hK.say _
      · exact hK.say _

end Kept

end Ideal

end ProtoOs.Ref
