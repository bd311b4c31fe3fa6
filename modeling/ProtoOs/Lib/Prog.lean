import Mathlib.Data.List.Basic
import Mathlib.Logic.Function.Basic

/-!
# Kernel code as trees of instructions

The code of a single-CPU kernel, as far as interrupts and spin locks can
tell: a tree whose nodes are the instructions that matter. `act` is one
atomic access to the data everything shares, `lock` and `unlock` are the
two ends of a spin lock's guard, `cli`, `sti` and `readIf` are the interrupt
flag, and `int3` enters the breakpoint handler. `fault` is the point where
the code itself raises a fatal event, `haltLoop` the loop of `hlt` a fatal
handler ends in.

Code is written in `do` notation; functions over a part of the shared data
are lifted to the whole of it through a `Lens`. The big-step reading,
`Prog.run`, is what the code does when nothing interrupts it.
-/

namespace ProtoOs.Lib

/-- Code over locks `L`, shared data `S` and fatal events `E`. -/
inductive Prog (L S E α : Type) where
  | ret (a : α)
  | act (f : S → S) (k : S → Prog L S E α)
  | lock (l : L) (k : Prog L S E α)
  | unlock (l : L) (k : Prog L S E α)
  | readIf (k : Bool → Prog L S E α)
  | cli (k : Prog L S E α)
  | sti (k : Prog L S E α)
  | hlt (k : Prog L S E α)
  | int3 (k : Prog L S E α)
  | fault (e : E)
  | haltLoop

variable {L S W E α β : Type}

namespace Prog

def bind : Prog L S E α → (α → Prog L S E β) → Prog L S E β
  | ret a, g => g a
  | act f k, g => act f fun s => (k s).bind g
  | lock l k, g => lock l (k.bind g)
  | unlock l k, g => unlock l (k.bind g)
  | readIf k, g => readIf fun b => (k b).bind g
  | cli k, g => cli (k.bind g)
  | sti k, g => sti (k.bind g)
  | hlt k, g => hlt (k.bind g)
  | int3 k, g => int3 (k.bind g)
  | fault e, _ => fault e
  | haltLoop, _ => haltLoop

instance : Monad (Prog L S E) where
  pure := ret
  bind := bind

@[simp] theorem bind_def (p : Prog L S E α) (g : α → Prog L S E β) :
    p >>= g = p.bind g := rfl

theorem bind_bind {γ : Type} (p : Prog L S E α) (f : α → Prog L S E β) (g : β → Prog L S E γ) :
    (p.bind f).bind g = p.bind fun a => (f a).bind g := by
  induction p with
  | ret a => rfl
  | act f' k ih => exact congrArg (act f') (funext ih)
  | lock l k ih => exact congrArg (lock l) ih
  | unlock l k ih => exact congrArg (unlock l) ih
  | readIf k ih => exact congrArg readIf (funext ih)
  | cli k ih => exact congrArg cli ih
  | sti k ih => exact congrArg sti ih
  | hlt k ih => exact congrArg hlt ih
  | int3 k ih => exact congrArg int3 ih
  | fault e => rfl
  | haltLoop => rfl

@[simp] theorem pure_def (a : α) : (pure a : Prog L S E α) = ret a := rfl

/-! ## Words of the code -/

/-- Read the shared data. -/
def get : Prog L S E S := act id ret

/-- Change the shared data in one access. -/
def modify (f : S → S) : Prog L S E Unit := act f fun _ => ret ()

/-- An access that can panic, in one piece: `none` raises `e` and changes
nothing. -/
def attempt (f : S → Option (α × S)) (e : E) : Prog L S E α :=
  act (fun s => ((f s).map Prod.snd).getD s) fun s =>
    match f s with
    | some (a, _) => ret a
    | none => fault e

/-- A critical section: the guard lives exactly as long as `p`. -/
def withLock (l : L) (p : Prog L S E α) : Prog L S E α :=
  lock l (p.bind fun a => unlock l (ret a))

/-- `Once::call_once`: an initialisation that is made by whoever asks for it
first. While it is being made it is a lock, and whoever asks for it then
spins. -/
def callOnce (l : L) (ready : S → Bool) (f : S → S) : Prog L S E Unit :=
  act id fun s =>
    if ready s then ret ()
    else withLock l (modify fun s => if ready s then s else f s)

/-- Run `p` with interrupts off, and back on after it only if they were on
before it. -/
def withoutInterrupts (p : Prog L S E α) : Prog L S E α :=
  readIf fun
    | true => cli (p.bind fun a => sti (ret a))
    | false => p

end Prog

/-! ## Parts of the shared data -/

/-- A part `W` of the shared data `S`. -/
structure Lens (S W : Type) where
  get : S → W
  set : W → S → S
  get_set : ∀ w s, get (set w s) = w
  set_get : ∀ s, set (get s) s = s
  set_set : ∀ w w' s, set w (set w' s) = set w s

/-- Code over a part, as code over the whole. -/
def Prog.zoom (ln : Lens S W) : Prog L W E α → Prog L S E α
  | ret a => ret a
  | act f k => act (fun s => ln.set (f (ln.get s)) s) fun s => (k (ln.get s)).zoom ln
  | lock l k => lock l (k.zoom ln)
  | unlock l k => unlock l (k.zoom ln)
  | readIf k => readIf fun b => (k b).zoom ln
  | cli k => cli (k.zoom ln)
  | sti k => sti (k.zoom ln)
  | hlt k => hlt (k.zoom ln)
  | int3 k => int3 (k.zoom ln)
  | fault e => fault e
  | haltLoop => haltLoop

/-! ## Configurations and the big-step reading -/

/-- What the instructions read and write: the shared data, the locks, the
interrupt flag, and the shadow of an `sti` that has just opened it, which
keeps interrupts out for one more instruction boundary. -/
structure Cfg (L S : Type) where
  data : S
  held : L → Bool
  ifl : Bool
  shadow : Bool

namespace Cfg

variable [DecidableEq L]

/-- An instruction that only moves on ends the shadow of an `sti`. -/
def next (c : Cfg L S) : Cfg L S := { c with shadow := false }

def update (c : Cfg L S) (f : S → S) : Cfg L S :=
  { c with data := f c.data, shadow := false }

def acquire (c : Cfg L S) (l : L) : Cfg L S :=
  { c with held := Function.update c.held l true, shadow := false }

def release (c : Cfg L S) (l : L) : Cfg L S :=
  { c with held := Function.update c.held l false, shadow := false }

def closeIf (c : Cfg L S) : Cfg L S := { c with ifl := false, shadow := false }

/-- `sti`: only an `sti` that turned the flag on casts a shadow. -/
def openIf (c : Cfg L S) : Cfg L S := { c with ifl := true, shadow := !c.ifl }

/-- `iretq`: the flag goes back to what the gate saved. -/
def iret (c : Cfg L S) (saved : Bool) : Cfg L S :=
  { c with ifl := saved, shadow := false }

end Cfg

/-- How a stretch of code ends when nothing interrupts it. -/
inductive Outcome (L S E α : Type) where
  | done (a : α) (c : Cfg L S)
  | fault (e : E) (c : Cfg L S)
  | spin (l : L) (c : Cfg L S)
  | halt (c : Cfg L S)

def Outcome.bind : Outcome L S E α → (α → Cfg L S → Outcome L S E β) →
    Outcome L S E β
  | done a c, g => g a c
  | fault e c, _ => fault e c
  | spin l c, _ => spin l c
  | halt c, _ => halt c

theorem Outcome.bind_eq_done {o : Outcome L S E α} {f : α → Cfg L S → Outcome L S E β}
    {b : β} {c' : Cfg L S} (h : o.bind f = done b c') :
    ∃ a c, o = done a c ∧ f a c = done b c' := by
  cases o with
  | done a c => exact ⟨a, c, rfl, h⟩
  | fault e c => cases h
  | spin l c => cases h
  | halt c => cases h

namespace Prog

variable [DecidableEq L]

/-- Uninterrupted execution; `trap` is what `int3` does. -/
def run (trap : Cfg L S → Outcome L S E Unit) :
    Prog L S E α → Cfg L S → Outcome L S E α
  | ret a, c => .done a c
  | act f k, c => (k c.data).run trap (c.update f)
  | lock l k, c => if c.held l then .spin l c else k.run trap (c.acquire l)
  | unlock l k, c => k.run trap (c.release l)
  | readIf k, c => (k c.ifl).run trap c.next
  | cli k, c => k.run trap c.closeIf
  | sti k, c => k.run trap c.openIf
  | hlt _, c => .halt c
  | int3 k, c => (trap c.next).bind fun _ c' => k.run trap c'
  | fault e, c => .fault e c
  | haltLoop, c => .halt c

attribute [local simp] run

variable {trap : Cfg L S → Outcome L S E Unit}

theorem run_bind (p : Prog L S E α) (g : α → Prog L S E β) (c : Cfg L S) :
    (p.bind g).run trap c = (p.run trap c).bind fun a c' => (g a).run trap c' := by
  induction p generalizing c with
  | ret a => rfl
  | act f k ih => exact ih _ _
  | lock l k ih =>
      by_cases hl : c.held l = true
      · simp [bind, Outcome.bind, hl]
      · simp [bind, hl, ih]
  | unlock l k ih => exact ih _
  | readIf k ih => exact ih _ _
  | cli k ih => exact ih _
  | sti k ih => exact ih _
  | hlt k _ => rfl
  | int3 k ih =>
      simp only [bind, run]
      cases trap c.next with
      | done a c' => exact ih _
      | fault e c' => rfl
      | spin l c' => rfl
      | halt c' => rfl
  | fault e => rfl
  | haltLoop => rfl

/-- A handler entered through an interrupt gate: interrupts off while it
runs, the flag restored by its return. -/
def runGated (trap : Cfg L S → Outcome L S E Unit) (p : Prog L S E Unit)
    (c : Cfg L S) : Outcome L S E Unit :=
  (p.run trap c.closeIf).bind fun _ c' => .done () (c'.iret c.ifl)

end Prog

/-! ## Code over a part, run over the whole -/

def Cfg.view (ln : Lens S W) (c : Cfg L S) : Cfg L W :=
  { c with data := ln.get c.data }

/-- Put the part a configuration holds back into the whole. -/
def Cfg.within (ln : Lens S W) (s : S) (c : Cfg L W) : Cfg L S :=
  { c with data := ln.set c.data s }

def Outcome.within (ln : Lens S W) (s : S) :
    Outcome L W E α → Outcome L S E α
  | done a c => done a (c.within ln s)
  | fault e c => fault e (c.within ln s)
  | spin l c => spin l (c.within ln s)
  | halt c => halt (c.within ln s)

theorem Cfg.view_within (ln : Lens S W) (c : Cfg L S) :
    (c.view ln).within ln c.data = c := by
  simp only [Cfg.view, Cfg.within, ln.set_get]

theorem Cfg.within_view (ln : Lens S W) (s : S) (c : Cfg L W) :
    (c.within ln s).view ln = c := by
  simp only [Cfg.view, Cfg.within, ln.get_set]

theorem Outcome.within_eq_done {ln : Lens S W} {s : S} {o : Outcome L W E α} {a : α}
    {c' : Cfg L S} (h : o.within ln s = done a c') :
    ∃ d, o = done a d ∧ c' = d.within ln s := by
  cases o with
  | done a' d =>
      obtain ⟨rfl, rfl⟩ := Outcome.done.inj h
      exact ⟨d, rfl, rfl⟩
  | fault e d => cases h
  | spin l d => cases h
  | halt d => cases h

theorem Outcome.within_set (ln : Lens S W) (s : S) (w : W)
    (o : Outcome L W E α) : o.within ln (ln.set w s) = o.within ln s := by
  cases o <;> simp only [Outcome.within, Cfg.within, ln.set_set]

/-- Where no trap is expected, both readings stop at it. -/
theorem Outcome.halt_within (ln : Lens S W) (c : Cfg L S) :
    (halt c : Outcome L S E α) =
      (halt (c.view ln) : Outcome L W E α).within ln c.data := by
  simp only [Outcome.within, Cfg.view_within]

/-- Lifted code runs as the code of the part does, and nothing outside the
part is read or changed. -/
theorem Prog.run_zoom [DecidableEq L] (ln : Lens S W)
    {trap : Cfg L S → Outcome L S E Unit} {trap' : Cfg L W → Outcome L W E Unit}
    (htrap : ∀ c, trap c = (trap' (c.view ln)).within ln c.data)
    (p : Prog L W E α) (c : Cfg L S) :
    (p.zoom ln).run trap c = (p.run trap' (c.view ln)).within ln c.data := by
  induction p generalizing c with
  | ret a => simp only [Prog.zoom, Prog.run, Outcome.within, Cfg.view_within]
  | act f k ih =>
      have hview : (c.update fun s => ln.set (f (ln.get s)) s).view ln =
          (c.view ln).update f := by
        simp only [Cfg.view, Cfg.update, ln.get_set]
      simp only [Prog.zoom, Prog.run]
      rw [ih, hview]
      exact Outcome.within_set ln c.data _ _
  | lock l k ih =>
      simp only [Prog.zoom, Prog.run]
      have hheld : (c.view ln).held l = c.held l := rfl
      rw [hheld]
      by_cases hl : c.held l = true
      · rw [if_pos hl, if_pos hl, Outcome.within, Cfg.view_within]
      · rw [if_neg hl, if_neg hl]
        exact ih _
  | unlock l k ih => exact ih _
  | readIf k ih => exact ih _ _
  | cli k ih => exact ih _
  | sti k ih => exact ih _
  | hlt k _ => simp only [Prog.zoom, Prog.run, Outcome.within, Cfg.view_within]
  | int3 k ih =>
      simp only [Prog.zoom, Prog.run]
      have hnext : c.next.view ln = (c.view ln).next := rfl
      rw [htrap, hnext]
      cases hout : trap' (c.view ln).next with
      | done a c' =>
          simp only [Outcome.within, Outcome.bind]
          rw [ih, Cfg.within_view]
          exact Outcome.within_set ln c.data _ _
      | fault e c' => rfl
      | spin l c' => rfl
      | halt c' => rfl
  | fault e => simp only [Prog.zoom, Prog.run, Outcome.within, Cfg.view_within]
  | haltLoop => simp only [Prog.zoom, Prog.run, Outcome.within, Cfg.view_within]

end ProtoOs.Lib
