import ProtoOs.Ref.Kernel

/-!
# The prompt and its commands

`shell.rs`: bytes come in one at a time, are kept in `LINE` and echoed, and
a line break runs the line. `LINE` stays locked while the line runs, and
only then; the two other arms of `feed` release it before they touch the
screen.
-/

namespace ProtoOs.Ref

open ProtoOs.Lib

variable {H : Type} (pf : Platform H)

def printWelcome : Code H Unit := do
  println version
  println (bytes "proto-os - sem sistema operacional embaixo")
  println (bytes "Este texto foi escrito direto no buffer de video VGA,")
  println (bytes "por este mesmo binario Rust, sem nenhum SO por baixo.")

def printPrompt : Code H Unit := print prompt

/-! ## Commands -/

/-- One line per command of a table. -/
def describe : List (List UInt8 × List UInt8) → Code H Unit
  | [] => pure ()
  | (name, description) :: table => do
      println (name ++ bytes " - " ++ description)
      describe table

def cmdHelp : Code H Unit := describe commands

def cmdEcho (rest : List UInt8) : Code H Unit := println rest

def cmdSobre : Code H Unit := do
  println version
  println (bytes "proto-os: demonstracao de boot bare metal em Rust, sem SO por baixo.")
  println (bytes "Boot via BIOS, saida VGA e teclado via IRQ1, tudo no mesmo binario.")

def cmdPanic : Code H Unit :=
  Prog.fault (.panic (bytes "comando panic executado no prompt"))

/-- A `Vec<i32>`: its buffer, its capacity and its elements. -/
structure VecI32 where
  addr : Nat
  capacity : Nat
  items : List Nat

def VecI32.new : VecI32 := ⟨0, 0, []⟩

/-- `Vec::push`: a full vector doubles, to four elements at least. Growing
an existing buffer is the allocator's default `realloc`, which takes the new
block before it gives back the old one. -/
def VecI32.push (v : VecI32) (x : Nat) : Code H VecI32 :=
  if v.items.length < v.capacity then
    pure { v with items := v.items ++ [x] }
  else if v.capacity = 0 then do
    let addr ← alloc pf 16 4
    pure ⟨addr, 4, v.items ++ [x]⟩
  else do
    let addr ← alloc pf (v.capacity * 2 * 4) 4
    dealloc pf v.addr (v.capacity * 4) 4
    pure ⟨addr, v.capacity * 2, v.items ++ [x]⟩

def VecI32.extend (v : VecI32) : List Nat → Code H VecI32
  | [] => pure v
  | x :: xs => do
      let v ← v.push pf x
      v.extend xs

def cmdMem : Code H Unit := do
  let info ← memoryInfo
  println (bytes "memoria fisica utilizavel: " ++ decimal (info.usableBytes / 1024) ++
    bytes " KiB")
  println (bytes "heap: " ++ hex info.heapStart ++ bytes ", " ++
    decimal (info.heapSize / 1024) ++ bytes " KiB")
  let valor ← alloc pf 4 4
  println (bytes "Box: valor=" ++ decimal 42 ++ bytes ", endereco=" ++ hex valor)
  let lista ← VecI32.new.extend pf (List.range' 1 10)
  println (bytes "Vec: tamanho=" ++ decimal lista.items.length ++
    bytes ", capacidade=" ++ decimal lista.capacity ++
    bytes ", soma=" ++ decimal (lista.items.foldl (· + ·) 0))
  -- Locals are dropped in the reverse of the order they were made in.
  dealloc pf lista.addr (lista.capacity * 4) 4
  dealloc pf valor 4 4

/-- The instruction that raises the exception a command demonstrates. -/
def raise (x : Exception) : Code H Unit :=
  Prog.fault (.exception x (pf.exceptionAddress x))

/-- A read of the byte past the heap, which nothing maps. -/
def cmdFalhaPagina : Code H Unit := raise pf (.pageFault 0 (heapStart + heapSize))

/-- A recursion without end, which the processor turns into a double fault
where the stack ends. -/
def cmdFalhaPilha : Code H Unit := raise pf .doubleFault

def cmdFalhaOpcode : Code H Unit := raise pf .invalidOpcode

def cmdFalhaProtecao : Code H Unit := raise pf (.generalProtection 0)

def cmdFalhaBreakpoint : Code H Unit := Prog.int3 (pure ())

def cmdFalha (tipo : List UInt8) : Code H Unit :=
  let tipo := trim tipo
  if tipo = bytes "pagina" then cmdFalhaPagina pf
  else if tipo = bytes "pilha" then cmdFalhaPilha pf
  else if tipo = bytes "opcode" then cmdFalhaOpcode pf
  else if tipo = bytes "protecao" then cmdFalhaProtecao pf
  else if tipo = bytes "breakpoint" then cmdFalhaBreakpoint
  else println (bytes "tipos disponiveis: pagina, pilha, opcode, protecao, breakpoint")

/-- The dispatch of `execute` on the first word of a line. -/
def dispatch (name rest : List UInt8) : Code H Unit :=
  if name = bytes "help" then cmdHelp
  else if name = bytes "clear" then clearScreen
  else if name = bytes "echo" then cmdEcho rest
  else if name = bytes "sobre" then cmdSobre
  else if name = bytes "panic" then cmdPanic
  else if name = bytes "mem" then cmdMem pf
  else if name = bytes "falha" then cmdFalha pf rest
  else println (bytes "comando desconhecido: " ++ name ++ bytes " (digite help)")

def execute (line : List UInt8) : Code H Unit := do
  Prog.modify fun g => { g with executed := g.executed ++ [line] }
  let line := trim line
  if line = [] then pure ()
  else dispatch pf (nameAndRest line).1 (nameAndRest line).2

/-! ## Bytes from the keyboard -/

/-- The part of the line-break arm of `feed` that comes before the next
prompt: the line runs under the guard of `LINE` and is forgotten. -/
def runLine : Code H Unit := do
  print (bytes "\n")
  Prog.withLock .line do
    let line ← Prog.attempt (fun g => g.line.asStr.map fun s => (s, g)) indexOutOfBounds
    execute pf line
    Prog.modify fun g => { g with line := g.line.clear }

/-- `LINE.lock().pop()`. -/
def popLine : Code H Bool :=
  Prog.withLock .line (Prog.act (fun g => { g with line := g.line.pop.2 })
    fun g => pure g.line.pop.1)

/-- `LINE.lock().push(byte)`. -/
def pushLine (byte : UInt8) : Code H Bool :=
  Prog.withLock .line (Prog.attempt
    (fun g => (g.line.push byte).map fun (ok, line) => (ok, { g with line }))
    indexOutOfBounds)

def feed (byte : UInt8) : Code H Unit := do
  Prog.modify fun g => { g with fed := g.fed ++ [byte] }
  if byte = 0x0A then do
    runLine pf
    printPrompt
  else if byte = 0x08 then do
    let popped ← popLine
    if popped then backspace else pure ()
  else if 0x20 ≤ byte ∧ byte ≤ 0x7e then do
    let pushed ← pushLine byte
    if pushed then print [byte] else pure ()
  else pure ()

end ProtoOs.Ref
