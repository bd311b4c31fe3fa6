import ProtoOs.Ref.Kernel

/-!
# Handlers

The breakpoint handler and the two fatal paths of `interrupts.rs` and
`panic.rs`. A fatal path first swaps `PANICKING`: the event that finds it
already set is reentrant. A reentrant panic stops at once; a reentrant
exception still writes one line to the serial port.

An exception comes through an interrupt gate and runs with the flag closed,
a panic is an ordinary call and keeps it.
-/

namespace ProtoOs.Ref

open ProtoOs.Lib

variable {H : Type} (pf : Platform H)

def breakpointHandler : Code H Unit := do
  serialPrintln (bytes "[EXCEPTION] breakpoint (int3)")
  println (bytes "[EXCEPTION] breakpoint (#BP) em " ++ hex pf.breakpointAddress)

/-! ## Fatal events -/

/-- Mark the start of a fatal event; the answer is whether one had already
started. -/
def enterFatalHandler : Code H Bool :=
  Prog.act (fun g => { g with panicking := true }) fun g => pure g.panicking

/-- `panic::handle`. -/
def handle (message : List UInt8) : Code H Unit := do
  let reentrant ← enterFatalHandler
  if reentrant then Prog.haltLoop
  else do
    serialPrintln (bytes "[PANIC] " ++ pf.panicInfo message)
    withWriter do
      writeText (bytes "\n[PANIC] " ++ version ++ bytes " parou: ")
      writeText (pf.panicInfo message)
    Prog.haltLoop

namespace Exception

def name : Exception → List UInt8
  | invalidOpcode => bytes "Invalid Opcode"
  | generalProtection _ => bytes "General Protection Fault"
  | pageFault _ _ => bytes "Page Fault"
  | doubleFault => bytes "Double Fault"

def mnemonic : Exception → List UInt8
  | invalidOpcode => bytes "#UD"
  | generalProtection _ => bytes "#GP"
  | pageFault _ _ => bytes "#PF"
  | doubleFault => bytes "#DF"

/-- The error code the screen shows; the one of a double fault is always
zero and is not shown. -/
def errorCode : Exception → Option Nat
  | invalidOpcode => none
  | generalProtection code => some code
  | pageFault code _ => some code
  | doubleFault => none

/-- The address, the kind of access and the cause of a page fault, in
words. -/
def pageFaultWords : Exception → Option (Nat × List UInt8 × List UInt8)
  | pageFault code address =>
      some (address,
        if code &&& 2 ≠ 0 then bytes "escrita" else bytes "leitura",
        if code &&& 1 ≠ 0 then bytes "violacao de protecao"
        else bytes "pagina ausente")
  | _ => none

/-- What is shown of an exception after its name, one text per line. -/
def details (x : Exception) (address : Nat) : List (List UInt8) :=
  [bytes "endereco da instrucao: " ++ hex address] ++
  (match x.errorCode with
    | some code => [bytes "codigo de erro: " ++ hex code]
    | none => []) ++
  (match x.pageFaultWords with
    | some (faultAddress, acesso, causa) =>
        [bytes "endereco de falha: " ++ hex faultAddress,
          bytes "acesso: " ++ acesso, bytes "causa: " ++ causa]
    | none => [])

end Exception

/-- A `serial_println!` per line. -/
def serialPrintLines : List (List UInt8) → Code H Unit
  | [] => pure ()
  | text :: texts => do
      serialPrintln text
      serialPrintLines texts

/-- A `write!` per line, under a guard already held. -/
def writeLines : List (List UInt8) → Code H Unit
  | [] => pure ()
  | text :: texts => do
      writeText (text ++ bytes "\n")
      writeLines texts

def fatalException (x : Exception) (address : Nat) : Code H Unit := do
  let reentrant ← enterFatalHandler
  if reentrant then do
    serialPrintln (bytes "[EXCEPTION] " ++ x.name ++ bytes " (" ++ x.mnemonic ++
      bytes ") reentrante — " ++ version ++ bytes " parou")
    Prog.haltLoop
  else do
    serialPrintln (bytes "[EXCEPTION] " ++ x.name ++ bytes " (" ++ x.mnemonic ++ bytes ")")
    serialPrintLines (x.details address)
    serialPrintln version
    withWriter do
      writeText (bytes "\n[EXCEPTION] " ++ x.name ++ bytes " (" ++ x.mnemonic ++
        bytes ") - " ++ version ++ bytes " parou\n")
      writeLines (x.details address)
    Prog.haltLoop

def fatalHandler : Fatal → Code H Unit
  | .panic message => handle pf message
  | .exception x address => fatalException x address

/-- Whether an event comes through an interrupt gate. -/
def Fatal.gated : Fatal → Bool
  | .panic _ => false
  | .exception _ _ => true

end ProtoOs.Ref
