import Mathlib.Data.List.Basic

/-!
# The scancode queue

`ScancodeQueue` of `interrupts.rs`: the fixed ring between the IRQ1 handler,
which pushes, and the idle loop, which pops. The three counters are kept as
the source keeps them, redundancy and all.

Every access that can panic answers `none`: an index past the array, and a
decrement of a counter already at zero. That neither ever happens is
something to prove, not something the types here promise.
-/

namespace ProtoOs.Ref

abbrev scancodeQueueCapacity : Nat := 16

structure ScancodeQueue where
  buffer : Vector UInt8 scancodeQueueCapacity
  head : Nat
  tail : Nat
  len : Nat
  deriving DecidableEq, Repr

/-- `a - b` on `usize`: the subtraction that would wrap is a panic. -/
def checkedSub (a b : Nat) : Option Nat :=
  if b ≤ a then some (a - b) else none

namespace ScancodeQueue

def new : ScancodeQueue where
  buffer := Vector.replicate scancodeQueueCapacity 0
  head := 0
  tail := 0
  len := 0

def push (q : ScancodeQueue) (scancode : UInt8) : Option ScancodeQueue := do
  -- A full queue gives up its oldest scancode before the new one is stored.
  let q ← if q.len = scancodeQueueCapacity then do
      let len ← checkedSub q.len 1
      pure { q with head := (q.head + 1) % scancodeQueueCapacity, len }
    else pure q
  if h : q.tail < scancodeQueueCapacity then
    some { q with
      buffer := q.buffer.set q.tail scancode h
      tail := (q.tail + 1) % scancodeQueueCapacity
      len := q.len + 1 }
  else none

/-- The outer option is the panic, the inner one the answer. -/
def pop (q : ScancodeQueue) : Option (Option UInt8 × ScancodeQueue) :=
  if q.len = 0 then some (none, q)
  else do
    let scancode ← q.buffer[q.head]?
    let len ← checkedSub q.len 1
    pure (some scancode,
      { q with head := (q.head + 1) % scancodeQueueCapacity, len })

end ScancodeQueue

end ProtoOs.Ref
