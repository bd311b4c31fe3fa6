import ProtoOs.Lib.Frame
import ProtoOs.Ref.Interrupts
import ProtoOs.Ref.Shell

/-!
# One walk over the commands

Commands print, clear the screen, ask for memory and give it back, and some
of them fault or trap. What holds of these and is kept by running one piece
of code after another holds of every command (`CommandClosed.dispatch`). The
lock discipline, what is left on the screen and what is left alone of the
input are all read off this one walk.

So is the plainest of it: a command changes the screen, the serial port and
the heap, and nothing else (`CommandFree.commands`).
-/

namespace ProtoOs.Ref

open ProtoOs.Lib ProtoOs.Lib.Prog

variable {H : Type}

/-- A property that every word of a command has and that sequencing keeps. -/
structure CommandClosed (pf : Platform H) (P : {α : Type} → Code H α → Prop) : Prop where
  ret : ∀ {α : Type} (a : α), P (ret a : Code H α)
  bind : ∀ {α β : Type} {p : Code H α} {g : α → Code H β},
    P p → (∀ a, P (g a)) → P (p.bind g)
  println : ∀ text, P (println text)
  clearScreen : P clearScreen
  memoryInfo : P memoryInfo
  alloc : ∀ size align, P (alloc pf size align)
  dealloc : ∀ addr size align, P (dealloc pf addr size align)
  fault : ∀ e, P (fault e : Code H Unit)
  int3 : P (Prog.int3 (Prog.ret ()) : Code H Unit)

namespace CommandClosed

variable {pf : Platform H} {P : {α : Type} → Code H α → Prop} (h : CommandClosed pf P)

include h

theorem describe (table : List (List UInt8 × List UInt8)) : P (describe table) := by
  induction table with
  | nil => exact h.ret ()
  | cons row table ih => exact h.bind (h.println _) fun _ => ih

theorem cmdSobre : P cmdSobre :=
  h.bind (h.println _) fun _ => h.bind (h.println _) fun _ => h.println _

theorem push (v : VecI32) (x : Nat) : P (v.push pf x) := by
  unfold VecI32.push
  split
  · exact h.ret _
  · split
    · exact h.bind (h.alloc _ _) fun _ => h.ret _
    · exact h.bind (h.alloc _ _) fun _ => h.bind (h.dealloc _ _ _) fun _ => h.ret _

theorem extend (xs : List Nat) : ∀ v : VecI32, P (v.extend pf xs) := by
  induction xs with
  | nil => exact fun v => h.ret v
  | cons x xs ih => exact fun v => h.bind (h.push v x) ih

theorem cmdMem : P (cmdMem pf) := by
  refine h.bind h.memoryInfo fun _ => ?_
  refine h.bind (h.println _) fun _ => ?_
  refine h.bind (h.println _) fun _ => ?_
  refine h.bind (h.alloc _ _) fun _ => ?_
  refine h.bind (h.println _) fun _ => ?_
  refine h.bind (h.extend _ _) fun _ => ?_
  refine h.bind (h.println _) fun _ => ?_
  exact h.bind (h.dealloc _ _ _) fun _ => h.dealloc _ _ _

theorem cmdFalha (tipo : List UInt8) : P (cmdFalha pf tipo) := by
  unfold Ref.cmdFalha
  dsimp only
  repeat' split
  · exact h.fault _
  · exact h.fault _
  · exact h.fault _
  · exact h.fault _
  · exact h.int3
  · exact h.println _

theorem dispatch (name rest : List UInt8) : P (dispatch pf name rest) := by
  unfold Ref.dispatch
  repeat' split
  · exact h.describe _
  · exact h.clearScreen
  · exact h.println _
  · exact h.cmdSobre
  · exact h.fault _
  · exact h.cmdMem
  · exact h.cmdFalha _
  · exact h.println _

end CommandClosed

/-! ## What commands leave alone -/

variable {V : Type} {v : Globals H → V}

/-- `v` reads nothing of the screen, the serial port and the heap, which is
all that a command changes. -/
structure CommandFree (v : Globals H → V) : Prop where
  writer : ∀ g writer, v { g with writer } = v g
  writerReady : ∀ g writerReady, v { g with writerReady } = v g
  serial1 : ∀ g serial1, v { g with serial1 } = v g
  heap : ∀ g heap, v { g with heap } = v g

namespace CommandFree

variable (hv : CommandFree v)

include hv

theorem performAll (as : List Access) : (performAll as : Code H Unit).Fixes v := by
  induction as with
  | nil => trivial
  | cons a as ih =>
      refine Fixes.bind (Fixes.attempt fun g u g' hg => ?_) fun _ => ih
      obtain ⟨w, _, hw⟩ := Option.map_eq_some_iff.mp hg
      obtain ⟨_, rfl⟩ := Prod.mk.inj hw
      exact hv.writer g w

theorem onWriter (accesses : Writer → List Access) : (onWriter accesses : Code H Unit).Fixes v :=
  Fixes.bind Fixes.get fun _ => hv.performAll _

theorem writeText (text : List UInt8) : (writeText text : Code H Unit).Fixes v := by
  induction text with
  | nil => trivial
  | cons b bs ih => exact Fixes.bind (hv.onWriter _) fun _ => ih

theorem withWriter {α : Type} {p : Code H α} (hp : p.Fixes v) : (withWriter p).Fixes v :=
  Fixes.bind (Fixes.callOnce fun g => hv.writerReady g true) fun _ => Fixes.withLock hp

theorem print (text : List UInt8) : (print text : Code H Unit).Fixes v :=
  hv.withWriter (hv.writeText text)

theorem clearScreen : (clearScreen : Code H Unit).Fixes v := hv.withWriter (hv.onWriter _)

theorem backspace : (backspace : Code H Unit).Fixes v := hv.withWriter (hv.onWriter _)

theorem serialPrint (text : List UInt8) : (serialPrint text : Code H Unit).Fixes v := by
  refine Fixes.withoutInterrupts (Fixes.withLock ?_)
  induction text with
  | nil => trivial
  | cons b bs ih => exact Fixes.bind (Fixes.modify fun g => hv.serial1 g _) fun _ => ih

omit hv in
theorem memoryInfo : (memoryInfo : Code H MemoryInfo).Fixes v := by
  refine Fixes.withLock (Fixes.attempt fun g info g' hg => ?_)
  obtain ⟨_, _, hg⟩ := Option.map_eq_some_iff.mp hg
  obtain ⟨_, rfl⟩ := Prod.mk.inj hg
  rfl

theorem alloc (pf : Platform H) (size align : Nat) : (alloc pf size align).Fixes v := by
  refine Fixes.bind (Fixes.withLock ⟨fun g => ?_, fun _ => trivial⟩) fun got => ?_
  · dsimp only
    split
    · exact hv.heap g _
    · rfl
  · cases got with
    | some addr => trivial
    | none => trivial

theorem commands (pf : Platform H) : CommandClosed pf fun p => p.Fixes v where
  ret _ := trivial
  bind := Fixes.bind
  println _ := hv.print _
  clearScreen := hv.clearScreen
  memoryInfo := memoryInfo
  alloc := hv.alloc pf
  dealloc _ _ _ := Fixes.withLock (Fixes.modify fun g => hv.heap g _)
  fault _ := trivial
  int3 := trivial

theorem breakpointHandler (pf : Platform H) : (breakpointHandler pf).Fixes v :=
  Fixes.bind (hv.serialPrint _) fun _ => hv.print _

end CommandFree

end ProtoOs.Ref
