import ProtoOs.Lib.Trans
import ProtoOs.Lib.Wp

/-!
# One CPU under interrupts and fatal events

A `System` is a control-flow graph of code blocks for the main flow and the
handlers the processor enters from it: one for interrupts, one for
breakpoints, one for each fatal event. A `Cpu` runs it one instruction at a
time over a stack of frames. Interrupts are delivered at any boundary where
the flag is open and not in the shadow of an `sti`; a fatal event may
strike at any boundary at all, once it finds a handler, and the frame it
interrupts never resumes.

`Proof` is what has to be shown of a system for its runs without fatal
events: one precondition per block, and that the handlers do what the
logic of each block counts on. `Proof.sound` turns it into an invariant of
every such run. The last section goes the other way, from a precondition to
the steps that carry it out.
-/

namespace ProtoOs.Lib

variable {L S E I P α : Type} [DecidableEq L]

inductive FrameKind where
  | irq | trap | fatal
  deriving DecidableEq, Repr

/-- A handler's activation: the flag its gate saved, and what is left of
its code. -/
structure Frame (L S E : Type) where
  kind : FrameKind
  saved : Bool
  code : Prog L S E Unit

/-- The main flow at `pc`, with `code` left of its block, under the handlers
that interrupted it, innermost first. -/
structure Cpu (L S E P : Type) where
  cfg : Cfg L S
  halted : Bool
  pc : P
  code : Prog L S E P
  frames : List (Frame L S E)

structure System (L S E I P : Type) where
  block : P → Prog L S E P
  irq : I → Prog L S E Unit
  trap : Prog L S E Unit
  fatal : E → Prog L S E Unit
  /-- Whether the event comes through an interrupt gate, which closes the
  flag. -/
  gate : E → Bool
  /-- Whether the event finds its handler. One that finds none resets the
  machine, and there is no step for it. -/
  delivers : S → E → Bool

inductive Label (E I : Type) where
  | tick
  | irq (i : I)
  | fatal (e : E)

/-! ## Steps -/

/-- What an instruction does to the CPU besides its configuration. -/
inductive Signal where
  | next | sleep | trap

namespace Prog

/-- The lock the next instruction is about to take. -/
def wants : Prog L S E α → Option L
  | lock l _ => some l
  | _ => none

/-- One instruction. A held lock, a fault and the end of the code have no
next one. -/
def step : Prog L S E α → Cfg L S →
    Option (Prog L S E α × Cfg L S × Signal)
  | ret _, _ => none
  | act f k, c => some (k c.data, c.update f, .next)
  | lock l k, c => if c.held l then none else some (k, c.acquire l, .next)
  | unlock l k, c => some (k, c.release l, .next)
  | readIf k, c => some (k c.ifl, c.next, .next)
  | cli k, c => some (k, c.closeIf, .next)
  | sti k, c => some (k, c.openIf, .next)
  | hlt k, c => some (k, c.next, .sleep)
  | int3 k, c => some (k, c.next, .trap)
  | fault _, _ => none
  | haltLoop, _ => none

end Prog

namespace Cpu

/-- Enter a handler. -/
def enter (m : Cpu L S E P) (kind : FrameKind) (closes : Bool)
    (code : Prog L S E Unit) : Cpu L S E P :=
  { m with
    halted := false
    cfg := if closes then m.cfg.closeIf else m.cfg.next
    frames := ⟨kind, m.cfg.ifl, code⟩ :: m.frames }

/-- The lock the next instruction of whatever is running wants. -/
def wants (m : Cpu L S E P) : Option L :=
  match m.frames with
  | [] => m.code.wants
  | f :: _ => f.code.wants

/-- An acquisition that finds its lock held: on one CPU, a deadlock. -/
def Blocked (m : Cpu L S E P) : Prop :=
  m.halted = false ∧ ∃ l, m.wants = some l ∧ m.cfg.held l = true

end Cpu

namespace System

variable (sys : System L S E I P)

def signal (m : Cpu L S E P) : Signal → Cpu L S E P
  | .next => m
  | .sleep => { m with halted := true }
  | .trap => m.enter .trap true sys.trap

/-- One instruction of whatever is running. The end of a block jumps to
the next one, the end of a handler returns to what it interrupted; a fatal
handler has no return. -/
def tick (m : Cpu L S E P) : Option (Cpu L S E P) :=
  if m.halted then none
  else match m.frames with
    | [] =>
        match m.code.result? with
        | some p => some { m with pc := p, code := sys.block p }
        | none => (m.code.step m.cfg).map fun r =>
            sys.signal { m with code := r.1, cfg := r.2.1 } r.2.2
    | f :: fs =>
        match f.code.result? with
        | some _ =>
            if f.kind = .fatal then none
            else some { m with frames := fs, cfg := m.cfg.iret f.saved }
        | none => (f.code.step m.cfg).map fun r =>
            sys.signal { m with frames := { f with code := r.1 } :: fs,
                                cfg := r.2.1 } r.2.2

def step (m : Cpu L S E P) : Label E I → Option (Cpu L S E P)
  | .tick => sys.tick m
  | .irq i =>
      if m.cfg.ifl = true ∧ m.cfg.shadow = false then
        some (m.enter .irq true (sys.irq i))
      else none
  | .fatal e =>
      if m.halted = false ∧ sys.delivers m.cfg.data e = true then
        some (m.enter .fatal (sys.gate e) (sys.fatal e))
      else none

variable {sys}

/-- What a step can be. -/
theorem step_cases {m m' : Cpu L S E P} {l : Label E I} (hn : sys.step m l = some m') :
    l = .tick ∧ sys.tick m = some m' ∨
      (∃ i, l = .irq i ∧ m.cfg.ifl = true ∧ m.cfg.shadow = false ∧
        m' = m.enter .irq true (sys.irq i)) ∨
      ∃ e, l = .fatal e ∧ (m.halted = false ∧ sys.delivers m.cfg.data e = true) ∧
        m' = m.enter .fatal (sys.gate e) (sys.fatal e) := by
  cases l with
  | tick => exact .inl ⟨rfl, hn⟩
  | irq i =>
      simp only [step] at hn
      split at hn <;> rename_i hc
      · exact .inr (.inl ⟨i, rfl, hc.1, hc.2, (Option.some.inj hn).symm⟩)
      · cases hn
  | fatal e =>
      simp only [step] at hn
      split at hn <;> rename_i hc
      · exact .inr (.inr ⟨e, rfl, hc, (Option.some.inj hn).symm⟩)
      · cases hn

end System

/-! ## Reading a precondition off one instruction -/

namespace Prog

variable {Γ : Logic L S E} {Q : α → Cfg L S → Prop}

omit [DecidableEq L] in
theorem result?_eq_some {p : Prog L S E α} {a : α} (h : p.result? = some a) :
    p = ret a := by
  cases p <;> simp only [result?] at h <;> cases h
  rfl

theorem wp_ret {p : Prog L S E α} {a : α} {c : Cfg L S} (h : p.wp Γ Q c)
    (hr : p.result? = some a) : Q a c := by
  rw [result?_eq_some hr] at h
  exact h.2

/-- What an instruction leaves to be shown, by what it signals. -/
def After (Γ : Logic L S E) (k : Prog L S E α) (Q : α → Cfg L S → Prop)
    (c : Cfg L S) : Signal → Prop
  | .next => k.wp Γ Q c
  | .sleep => Γ.rest c ∧ ∀ c', Γ.wake c c' → k.wp Γ Q c'
  | .trap => Γ.trap (k.wp Γ Q) c

theorem wp_step {p k : Prog L S E α} {c c' : Cfg L S} {sig : Signal}
    (h : p.wp Γ Q c) (hs : p.step c = some (k, c', sig)) :
    After Γ k Q c' sig := by
  cases p <;> simp only [step, reduceCtorEq, Option.some.injEq, Prod.mk.injEq] at hs
  case lock l k' =>
    split at hs <;> rename_i hheld
    · cases hs
    · simp only [Option.some.injEq, Prod.mk.injEq] at hs
      obtain ⟨rfl, rfl, rfl⟩ := hs
      have hhere := h.here
      rw [if_neg hheld] at hhere
      exact hhere
  all_goals
    obtain ⟨rfl, rfl, rfl⟩ := hs
    exact h.here

/-- Where the logic allows no held lock, the code never wants one. -/
theorem wp_wants {p : Prog L S E α} {c : Cfg L S} (hbusy : ∀ l c, ¬Γ.busy l c)
    (h : p.wp Γ Q c) {l : L} (hw : p.wants = some l) : c.held l = false := by
  cases p <;> simp only [wants, reduceCtorEq, Option.some.injEq] at hw
  case lock l' k =>
    subst hw
    have hhere := h.here
    cases hl : c.held l' with
    | false => rfl
    | true =>
        rw [if_pos hl] at hhere
        exact absurd hhere (hbusy _ _)

end Prog

/-! ## Runs without fatal events -/

/-- What has to be shown of a system: `flow` is the logic of each block,
`handler` the one its handlers run in, with the flag closed throughout;
`entry` is the precondition of each block. An interrupt is accounted for
where it lands: between two instructions of a block by its `rely`, between
two blocks by the precondition of the next one, on a sleeping CPU by
`wake`. The guard `G` says which labels the runs in question take. -/
structure Proof (sys : System L S E I P)
    (G : Cpu L S E P → Label E I → Prop) where
  flow : P → Logic L S E
  handler : Logic L S E
  entry : P → Cfg L S → Prop
  block_ok : ∀ {p c}, entry p c → (sys.block p).wp (flow p) entry c
  handler_closed : ∀ {c}, handler.point c → c.ifl = false
  handler_trap : ∀ {Q c}, ¬handler.trap Q c
  handler_rest : ∀ {c}, ¬handler.rest c
  trap_ok : ∀ {p Q c}, (flow p).trap Q c →
    sys.trap.wp handler (fun _ c' => Q (c'.iret c.ifl)) c.closeIf
  irq_ok : ∀ {m i}, G m (.irq i) → m.frames = [] → m.halted = false →
    m.code.result? = none → m.cfg.ifl = true → m.cfg.shadow = false →
    (flow m.pc).point m.cfg →
    (sys.irq i).wp handler
      (fun _ c' => (flow m.pc).rely m.cfg (c'.iret true)) m.cfg.closeIf
  jump_ok : ∀ {m i p}, G m (.irq i) → m.frames = [] → m.halted = false →
    m.code.result? = some p → m.cfg.ifl = true → m.cfg.shadow = false →
    (flow m.pc).point m.cfg → entry p m.cfg →
    (sys.irq i).wp handler
      (fun _ c' => (flow m.pc).point (c'.iret true) ∧ entry p (c'.iret true))
      m.cfg.closeIf
  wake_ok : ∀ {m i}, G m (.irq i) → m.frames = [] → m.halted = true →
    m.cfg.ifl = true → m.cfg.shadow = false → (flow m.pc).rest m.cfg →
    (sys.irq i).wp handler
      (fun _ c' => (flow m.pc).wake m.cfg (c'.iret true)) m.cfg.closeIf
  no_fatal : ∀ {m e}, ¬G m (.fatal e)

namespace Proof

variable {sys : System L S E I P} {G : Cpu L S E P → Label E I → Prop}
  (pf : Proof sys G)

/-- What holds of every state reached: the main flow's code meets its
precondition, and a handler over it meets one that ends there. -/
def Inv (m : Cpu L S E P) : Prop :=
  match m.frames with
  | [] =>
      if m.halted then
        (pf.flow m.pc).rest m.cfg ∧
          ∀ c', (pf.flow m.pc).wake m.cfg c' →
            m.code.wp (pf.flow m.pc) pf.entry c'
      else m.code.wp (pf.flow m.pc) pf.entry m.cfg
  | [f] =>
      m.halted = false ∧ f.kind ≠ .fatal ∧
        f.code.wp pf.handler
          (fun _ c' => m.code.wp (pf.flow m.pc) pf.entry (c'.iret f.saved)) m.cfg
  | _ :: _ :: _ => False

variable {pf}

theorem inv_main {m : Cpu L S E P} (hf : m.frames = []) (hh : m.halted = false) :
    pf.Inv m ↔ m.code.wp (pf.flow m.pc) pf.entry m.cfg := by
  simp [Inv, hf, hh]

theorem inv_halted {m : Cpu L S E P} (hf : m.frames = []) (hh : m.halted = true) :
    pf.Inv m ↔ (pf.flow m.pc).rest m.cfg ∧
      ∀ c', (pf.flow m.pc).wake m.cfg c' →
        m.code.wp (pf.flow m.pc) pf.entry c' := by
  simp [Inv, hf, hh]

theorem inv_frame {m : Cpu L S E P} {f : Frame L S E} (hf : m.frames = [f]) :
    pf.Inv m ↔ m.halted = false ∧ f.kind ≠ .fatal ∧
      f.code.wp pf.handler
        (fun _ c' => m.code.wp (pf.flow m.pc) pf.entry (c'.iret f.saved)) m.cfg := by
  simp [Inv, hf]

theorem Inv.tick {m m' : Cpu L S E P} (h : pf.Inv m)
    (hn : sys.tick m = some m') : pf.Inv m' := by
  unfold System.tick at hn
  split at hn <;> rename_i hh
  · cases hn
  · have hh : m.halted = false := by simpa using hh
    split at hn <;> rename_i hf
    · -- The main flow is running.
      rw [inv_main hf hh] at h
      split at hn <;> rename_i hr
      · obtain rfl := Option.some.inj hn
        exact (inv_main (by exact hf) (by exact hh)).mpr
          (pf.block_ok (Prog.wp_ret h hr))
      · obtain ⟨⟨k, c, sig⟩, hs, rfl⟩ := Option.map_eq_some_iff.mp hn
        have hstep := Prog.wp_step h hs
        cases sig with
        | next => exact (inv_main (by exact hf) (by exact hh)).mpr hstep
        | sleep => exact (inv_halted (by exact hf) rfl).mpr hstep
        | trap =>
            rw [inv_frame (f := ⟨.trap, c.ifl, sys.trap⟩)
              (by simp only [System.signal, Cpu.enter, hf])]
            exact ⟨rfl, by simp, pf.trap_ok hstep⟩
    · -- A handler is running, over the main flow and nothing else.
      rename_i f fs
      cases fs with
      | cons g gs => simp [Inv, hf] at h
      | nil =>
          obtain ⟨_, hkind, hwp⟩ := (inv_frame hf).mp h
          split at hn <;> rename_i hr
          · rw [if_neg hkind] at hn
            obtain rfl := Option.some.inj hn
            have hret := Prog.wp_ret hwp hr
            exact (inv_main rfl (by exact hh)).mpr hret
          · obtain ⟨⟨k, c, sig⟩, hs, rfl⟩ := Option.map_eq_some_iff.mp hn
            have hstep := Prog.wp_step hwp hs
            cases sig with
            | next =>
                exact (inv_frame (f := { f with code := k }) rfl).mpr
                  ⟨hh, hkind, hstep⟩
            | sleep => exact absurd hstep.1 pf.handler_rest
            | trap => exact absurd hstep pf.handler_trap

theorem Inv.irq {m : Cpu L S E P} {i : I} (h : pf.Inv m) (hG : G m (.irq i))
    (hifl : m.cfg.ifl = true) (hsh : m.cfg.shadow = false) :
    pf.Inv (m.enter .irq true (sys.irq i)) := by
  cases hf : m.frames with
  | nil =>
      rw [inv_frame (f := ⟨.irq, m.cfg.ifl, sys.irq i⟩)
        (by simp only [Cpu.enter, hf])]
      refine ⟨rfl, by simp, ?_⟩
      simp only [Cpu.enter, hifl]
      cases hh : m.halted with
      | false =>
          rw [inv_main hf hh] at h
          cases hr : m.code.result? with
          | none =>
              exact Prog.wp_mono (fun _ c' hc' => Prog.wp_stable hr h hc')
                (pf.irq_ok hG hf hh hr hifl hsh (Prog.wp_point h))
          | some p =>
              refine Prog.wp_mono (fun _ c' hc' => ?_)
                (pf.jump_ok hG hf hh hr hifl hsh (Prog.wp_point h)
                  (Prog.wp_ret h hr))
              show m.code.wp _ _ _
              rw [Prog.result?_eq_some hr]
              exact hc'
      | true =>
          obtain ⟨hrest, hwake⟩ := (inv_halted hf hh).mp h
          exact Prog.wp_mono (fun _ c' hc' => hwake _ hc')
            (pf.wake_ok hG hf hh hifl hsh hrest)
  | cons f fs =>
      -- Handlers run with the flag closed.
      cases fs with
      | cons g gs => simp [Inv, hf] at h
      | nil =>
          have hclosed := pf.handler_closed (Prog.wp_point ((inv_frame hf).mp h).2.2)
          rw [hifl] at hclosed
          cases hclosed

theorem Inv.step {m m' : Cpu L S E P} {l : Label E I} (h : pf.Inv m)
    (hG : G m l) (hn : sys.step m l = some m') : pf.Inv m' := by
  rcases System.step_cases hn with ⟨rfl, ht⟩ | ⟨i, rfl, hifl, hsh, rfl⟩ | ⟨e, rfl, _⟩
  · exact h.tick ht
  · exact h.irq hG hifl hsh
  · exact absurd hG pf.no_fatal

/-- The invariant of every run the guard allows. -/
theorem sound (pf : Proof sys G) {m₀ m : Cpu L S E P} {ls : List (Label E I)}
    (h₀ : pf.Inv m₀) (hrun : Run sys.step G m₀ ls m) : pf.Inv m :=
  hrun.invariant h₀ fun h hG hn => h.step hG hn

/-- Where neither logic allows a held lock, nothing ever blocks. -/
theorem Inv.not_blocked {m : Cpu L S E P} (h : pf.Inv m)
    (hflow : ∀ p l c, ¬(pf.flow p).busy l c)
    (hhandler : ∀ l c, ¬pf.handler.busy l c) : ¬m.Blocked := by
  rintro ⟨hh, l, hw, hheld⟩
  unfold Cpu.wants at hw
  split at hw <;> rename_i hf
  · have := Prog.wp_wants (hflow m.pc) ((inv_main hf hh).mp h) hw
    rw [this] at hheld
    cases hheld
  · rename_i f fs
    cases fs with
    | cons g gs => simp [Inv, hf] at h
    | nil =>
        have := Prog.wp_wants hhandler ((inv_frame hf).mp h).2.2 hw
        rw [this] at hheld
        cases hheld

end Proof

/-! ## From a precondition to the steps that carry it out -/

/-- A logic in which code can only end, by returning or by stopping for
good. -/
structure Logic.Total (Γ : Logic L S E) : Prop where
  busy : ∀ {l c}, ¬Γ.busy l c
  fault : ∀ {e c}, ¬Γ.fault e c
  trap : ∀ {Q c}, ¬Γ.trap Q c
  rest : ∀ {c}, ¬Γ.rest c

namespace Prog

/-- Plain instructions, one after the other. -/
inductive Steps : Prog L S E α → Cfg L S → Prog L S E α → Cfg L S → Prop
  | refl {p : Prog L S E α} {c : Cfg L S} : Steps p c p c
  | head {p k q : Prog L S E α} {c c' d : Cfg L S}
      (hs : p.step c = some (k, c', .next)) (rest : Steps k c' q d) :
      Steps p c q d

/-- The two ways a total precondition lets code end. -/
def Ended (Γ : Logic L S E) (Q : α → Cfg L S → Prop) (q : Prog L S E α)
    (c : Cfg L S) : Prop :=
  (∃ a, q = ret a ∧ Q a c) ∨ (q = haltLoop ∧ Γ.stop c)

theorem wp_steps {Γ : Logic L S E} (hΓ : Γ.Total) {Q : α → Cfg L S → Prop}
    (p : Prog L S E α) :
    ∀ {c}, p.wp Γ Q c → ∃ q c', Steps p c q c' ∧ Ended Γ Q q c' := by
  -- One plain instruction in front of the steps of what is left.
  have cons : ∀ {p k : Prog L S E α} {c c' : Cfg L S},
      p.step c = some (k, c', .next) →
      (∃ q d, Steps k c' q d ∧ Ended Γ Q q d) →
      ∃ q d, Steps p c q d ∧ Ended Γ Q q d := by
    rintro p k c c' hs ⟨q, d, hsteps, hend⟩
    exact ⟨q, d, hsteps.head hs, hend⟩
  induction p with
  | ret a => intro c h; exact ⟨_, c, .refl, .inl ⟨a, rfl, h.2⟩⟩
  | act f k ih => intro c h; exact cons rfl (ih _ h.here)
  | lock l k ih =>
      intro c h
      have hhere := h.here
      split at hhere <;> rename_i hheld
      · exact absurd hhere hΓ.busy
      · exact cons (if_neg hheld) (ih hhere)
  | unlock l k ih => intro c h; exact cons rfl (ih h.here)
  | readIf k ih => intro c h; exact cons rfl (ih _ h.here)
  | cli k ih => intro c h; exact cons rfl (ih h.here)
  | sti k ih => intro c h; exact cons rfl (ih h.here)
  | hlt k ih => intro c h; exact absurd h.here.1 hΓ.rest
  | int3 k ih => intro c h; exact absurd h.here hΓ.trap
  | fault e => intro c h; exact absurd h.here hΓ.fault
  | haltLoop => intro c h; exact ⟨_, c, .refl, .inr ⟨rfl, h.here⟩⟩

/-- Code that returns without a trap got there by plain instructions. -/
theorem steps_of_run {a : α} {d : Cfg L S} (p : Prog L S E α) :
    ∀ {c}, p.run Outcome.halt c = .done a d → Steps p c (ret a) d := by
  induction p with
  | ret a' =>
      intro c h
      obtain ⟨rfl, rfl⟩ := Outcome.done.inj h
      exact .refl
  | act f k ih => intro c h; exact .head rfl (ih _ h)
  | lock l k ih =>
      intro c h
      simp only [run] at h
      split at h <;> rename_i hheld
      · cases h
      · exact .head (if_neg hheld) (ih h)
  | unlock l k ih => intro c h; exact .head rfl (ih h)
  | readIf k ih => intro c h; exact .head rfl (ih _ h)
  | cli k ih => intro c h; exact .head rfl (ih h)
  | sti k ih => intro c h; exact .head rfl (ih h)
  | hlt k ih => intro c h; cases h
  | int3 k ih => intro c h; cases h
  | fault e => intro c h; cases h
  | haltLoop => intro c h; cases h

/-- Code that comes to a held lock without a trap got there by plain
instructions. -/
theorem steps_of_spin {l : L} {d : Cfg L S} (p : Prog L S E α) :
    ∀ {c}, p.run Outcome.halt c = .spin l d →
      ∃ q, Steps p c q d ∧ q.wants = some l ∧ d.held l = true := by
  -- One plain instruction in front of the rest.
  have cons : ∀ {p k : Prog L S E α} {c c' : Cfg L S}, p.step c = some (k, c', .next) →
      (∃ q, Steps k c' q d ∧ q.wants = some l ∧ d.held l = true) →
      ∃ q, Steps p c q d ∧ q.wants = some l ∧ d.held l = true := by
    rintro p k c c' hs ⟨q, hsteps, hq⟩
    exact ⟨q, .head hs hsteps, hq⟩
  induction p with
  | ret a => intro c h; cases h
  | act f k ih => intro c h; exact cons rfl (ih _ h)
  | lock l' k ih =>
      intro c h
      simp only [run] at h
      split at h <;> rename_i hheld
      · obtain ⟨rfl, rfl⟩ := Outcome.spin.inj h
        exact ⟨_, .refl, rfl, hheld⟩
      · exact cons (if_neg hheld) (ih h)
  | unlock l' k ih => intro c h; exact cons rfl (ih h)
  | readIf k ih => intro c h; exact cons rfl (ih _ h)
  | cli k ih => intro c h; exact cons rfl (ih h)
  | sti k ih => intro c h; exact cons rfl (ih h)
  | hlt k ih => intro c h; cases h
  | int3 k ih => intro c h; cases h
  | fault e => intro c h; cases h
  | haltLoop => intro c h; cases h

theorem step_bind {β : Type} {p k : Prog L S E α} {c c' : Cfg L S} {sig : Signal}
    (h : p.step c = some (k, c', sig)) (g : α → Prog L S E β) :
    (p.bind g).step c = some (k.bind g, c', sig) := by
  cases p <;> simp only [step, reduceCtorEq, Option.some.injEq, Prod.mk.injEq] at h
  case lock l k' =>
    split at h
    · cases h
    next hheld =>
      obtain ⟨rfl, rfl, rfl⟩ : k' = k ∧ c.acquire l = c' ∧ Signal.next = sig := by simpa using h
      exact if_neg hheld
  all_goals
    obtain ⟨rfl, rfl, rfl⟩ := h
    rfl

theorem Steps.trans {p q r : Prog L S E α} {c d e : Cfg L S} (h : Steps p c q d)
    (h' : Steps q d r e) : Steps p c r e := by
  induction h with
  | refl => exact h'
  | head hs _ ih => exact .head hs (ih h')

/-- What comes after the code does not change its steps. -/
theorem Steps.bind {β : Type} {p q : Prog L S E α} {c d : Cfg L S} (h : Steps p c q d)
    (g : α → Prog L S E β) : Steps (p.bind g) c (q.bind g) d := by
  induction h with
  | refl => exact .refl
  | head hs _ ih => exact .head (step_bind hs g) ih

/-- Lifted code takes the steps of the code of the part. -/
theorem step_zoom {W : Type} (ln : Lens S W) {p k : Prog L W E α} {c c' : Cfg L W} {sig : Signal}
    (h : p.step c = some (k, c', sig)) (s : S) :
    (p.zoom ln).step (c.within ln s) = some (k.zoom ln, c'.within ln s, sig) := by
  cases p <;> simp only [step, reduceCtorEq, Option.some.injEq, Prod.mk.injEq] at h
  case act f k' =>
    obtain ⟨rfl, rfl, rfl⟩ := h
    simp only [Prog.zoom, step, Cfg.within, Cfg.update, ln.get_set, ln.set_set]
  case lock l k' =>
    split at h
    · cases h
    next hheld =>
      obtain ⟨rfl, rfl, rfl⟩ : k' = k ∧ c.acquire l = c' ∧ Signal.next = sig := by simpa using h
      exact if_neg hheld
  all_goals
    obtain ⟨rfl, rfl, rfl⟩ := h
    rfl

theorem Steps.zoom {W : Type} (ln : Lens S W) {p q : Prog L W E α} {c d : Cfg L W}
    (h : Steps p c q d) (s : S) :
    Steps (p.zoom ln) (c.within ln s) (q.zoom ln) (d.within ln s) := by
  induction h with
  | refl => exact .refl
  | head hs _ ih => exact .head (step_zoom ln hs s) ih

theorem result?_of_step {p k : Prog L S E α} {c c' : Cfg L S} {sig : Signal}
    (h : p.step c = some (k, c', sig)) : p.result? = none := by
  cases p <;> first | rfl | cases h

end Prog

/-- The steps of a CPU nothing is delivered to. -/
def Ticks (_ : Cpu L S E P) (l : Label E I) : Prop := l = .tick

namespace System

variable (sys : System L S E I P) {G : Cpu L S E P → Label E I → Prop}

/-- The main flow's instructions are ticks of the CPU. -/
theorem run_main (hG : ∀ m, G m .tick) {p q : Prog L S E P} {c d : Cfg L S}
    (h : p.Steps c q d) :
    ∀ {m : Cpu L S E P}, m.frames = [] → m.halted = false → m.code = p →
      m.cfg = c →
      ∃ ls, Run sys.step G m ls { m with code := q, cfg := d } := by
  induction h with
  | refl =>
      rintro m hf hh rfl rfl
      exact ⟨[], .nil⟩
  | @head p k q c c' d hs _ ih =>
      rintro m hf hh rfl rfl
      have htick : sys.step m (.tick : Label E I) =
          some { m with code := k, cfg := c' } := by
        simp only [step, tick, hh, hf, Bool.false_eq_true, if_false,
          Prog.result?_of_step hs, hs, Option.map_some, signal]
      obtain ⟨ls, hrun⟩ := ih (m := { m with code := k, cfg := c' }) hf hh rfl rfl
      exact ⟨_, (Run.one (hG m) htick).trans hrun⟩

/-- A handler's instructions are ticks of the CPU. -/
theorem run_frame (hG : ∀ m, G m .tick) {p q : Prog L S E Unit}
    {c d : Cfg L S} (h : p.Steps c q d) :
    ∀ {m : Cpu L S E P} {f : Frame L S E} {fs : List (Frame L S E)},
      m.frames = f :: fs → m.halted = false → f.code = p → m.cfg = c →
      ∃ ls, Run sys.step G m ls
        { m with frames := { f with code := q } :: fs, cfg := d } := by
  induction h with
  | refl =>
      rintro m f fs hf hh rfl rfl
      refine ⟨[], ?_⟩
      rw [← hf]
      exact .nil
  | @head p k q c c' d hs _ ih =>
      rintro m f fs hf hh rfl rfl
      have htick : sys.step m (.tick : Label E I) =
          some { m with frames := { f with code := k } :: fs, cfg := c' } := by
        simp only [step, tick, hh, hf, Bool.false_eq_true, if_false,
          Prog.result?_of_step hs, hs, Option.map_some, signal]
      obtain ⟨ls, hrun⟩ := ih
        (m := { m with frames := { f with code := k } :: fs, cfg := c' })
        (f := { f with code := k }) rfl hh rfl rfl
      exact ⟨_, (Run.one (hG m) htick).trans hrun⟩

/-- A handler that wants a free lock takes it. -/
theorem tick_lock {m : Cpu L S E P} {f : Frame L S E} {fs : List (Frame L S E)} {l : L}
    (hf : m.frames = f :: fs) (hh : m.halted = false) (hw : f.code.wants = some l)
    (hfree : m.cfg.held l = false) : ∃ m', sys.step m .tick = some m' := by
  obtain ⟨kind, saved, code⟩ := f
  cases code <;> simp only [Prog.wants, reduceCtorEq, Option.some.injEq] at hw
  case lock l' k =>
    subst hw
    simp [step, tick, hh, hf, Prog.result?, Prog.step, hfree]

end System

end ProtoOs.Lib
