import Mathlib.Data.List.Basic
import ProtoOs.Ref.Vga

/-!
# The line being typed

`LineBuffer` of `shell.rs`, and the parsing of a finished line. The buffer
never erases: `pop` and `clear` only move `len`, and whatever lies past it
is stale. A line is a `&str`, so it is read through `from_utf8`, with the
empty string where that fails.
-/

namespace ProtoOs.Ref

def prompt : List UInt8 := bytes "proto-os> "

abbrev lineCapacity : Nat := 128

structure LineBuffer where
  bytes : Vector UInt8 lineCapacity
  len : Nat
  deriving DecidableEq, Repr

namespace LineBuffer

def new : LineBuffer := ⟨Vector.replicate lineCapacity 0, 0⟩

/-- The outer option is the panic of an index past the array. -/
def push (l : LineBuffer) (byte : UInt8) : Option (Bool × LineBuffer) :=
  if l.len = lineCapacity then some (false, l)
  else if h : l.len < lineCapacity then
    some (true, ⟨l.bytes.set l.len byte h, l.len + 1⟩)
  else none

def pop (l : LineBuffer) : Bool × LineBuffer :=
  if l.len = 0 then (false, l) else (true, { l with len := l.len - 1 })

def clear (l : LineBuffer) : LineBuffer := { l with len := 0 }

/-- The slice `bytes[..len]` panics past the array; bytes that are not
UTF-8 read as the empty string. -/
def asStr (l : LineBuffer) : Option (List UInt8) :=
  if l.len ≤ lineCapacity then
    let slice := l.bytes.toList.take l.len
    some (if ByteArray.validateUTF8 ⟨slice.toArray⟩ then slice else [])
  else none

end LineBuffer

/-! ## Parsing a finished line -/

/-- The whitespace a line of ASCII can hold. -/
def isWhitespace (byte : UInt8) : Bool :=
  byte = 0x20 || (0x09 ≤ byte && byte ≤ 0x0D)

def trim (s : List UInt8) : List UInt8 :=
  ((s.dropWhile isWhitespace).reverse.dropWhile isWhitespace).reverse

/-- `split_once(' ')`. -/
def splitOnce : List UInt8 → Option (List UInt8 × List UInt8)
  | [] => none
  | b :: bs =>
      if b = 0x20 then some ([], bs)
      else (splitOnce bs).map fun (name, rest) => (b :: name, rest)

/-- The first word of a line and what follows its first space. -/
def nameAndRest (line : List UInt8) : List UInt8 × List UInt8 :=
  match splitOnce line with
  | some (name, rest) => (name, rest)
  | none => (line, [])

/-- The table `help` shows. -/
def commands : List (List UInt8 × List UInt8) :=
  [ (bytes "help", bytes "lista os comandos disponiveis"),
    (bytes "clear", bytes "limpa a tela"),
    (bytes "echo", bytes "repete o texto digitado"),
    (bytes "sobre", bytes "descreve o proto-os"),
    (bytes "panic", bytes "dispara um panic proposital"),
    (bytes "mem", bytes "mostra memoria fisica, heap, Box e Vec"),
    (bytes "falha",
      bytes "provoca uma excecao de CPU para demonstracao (pagina, pilha, opcode, protecao, breakpoint)") ]

end ProtoOs.Ref
