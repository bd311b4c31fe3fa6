import ProtoOs.Lib.Ahead
import ProtoOs.Proofs.Locks
import ProtoOs.Proofs.Queue

/-!
# The main flow under interrupts

Boot and the drain run with the flag closed, so nothing lands in them. What
is open is the head of the loop and the way out of it, and there no lock is
held, which is all the IRQ1 handler needs. `loopProof` says this once, one
precondition per block, and carries along any property `J` of the data that
boot establishes, that a turn of the drain keeps and that a delivered
interrupt keeps (`LoopInv`). What the loop is for is then said by choosing
`J`.

The last section runs the machine instead: a block that yields is a run of
it, and so is a delivered interrupt.
-/

namespace ProtoOs.Ref

open ProtoOs.Lib ProtoOs.Lib.Prog

variable {H : Type} (pf : Platform H)

/-! ## Logics -/

/-- No lock is held. -/
def Free (c : Cfg LockId (Kernel H)) : Prop := c.held = noLock

/-- What `int3` does to code nothing else interrupts. -/
def trapRun (c : Cfg LockId (Kernel H)) : Outcome LockId (Kernel H) Fatal Unit :=
  runGated Outcome.halt (onGlobals (breakpointHandler pf)) c

theorem trapRun_within (c : Cfg LockId (Kernel H)) :
    trapRun pf c = (globalsTrapRun pf (c.view Kernel.globalsLens)).within
      Kernel.globalsLens c.data := by
  have hzoom := run_zoom Kernel.globalsLens (Outcome.halt_within Kernel.globalsLens)
    (breakpointHandler pf) c.closeIf
  rw [trapRun, globalsTrapRun, runGated, runGated, onGlobals, hzoom]
  have hview : c.closeIf.view Kernel.globalsLens = (c.view Kernel.globalsLens).closeIf := rfl
  rw [hview]
  cases (breakpointHandler pf).run Outcome.halt (c.view Kernel.globalsLens).closeIf <;> rfl

/-- The flag is closed throughout. A breakpoint does what its handler does
and gives back locks and flag. -/
def closedLogic : Logic LockId (Kernel H) Fatal where
  rely _ _ := False
  wake _ _ := False
  point c := c.ifl = false
  rest _ := False
  busy _ _ := False
  trap P c := TrapFree c.held ∧
    ∀ c', c'.held = c.held → c'.ifl = c.ifl → trapRun pf c = .done () c' → P c'
  fault _ _ := True
  stop _ := True
  trap_mono := by
    intro P P' c hP h
    exact ⟨h.1, fun c' hh hi hr => hP c' (h.2 c' hh hi hr)⟩

/-- A handler runs like that too, and has no breakpoint in it. -/
def handlerLogic : Logic LockId (Kernel H) Fatal where
  rely _ _ := False
  wake _ _ := False
  point c := c.ifl = false
  rest _ := False
  busy _ _ := False
  trap _ _ := False
  fault _ _ := True
  stop _ := True
  trap_mono _ h := h

/-- The flag may be open, and is so only with no lock held; `J` is kept by
whatever lands. `seen` says whether interrupts land here at all, `asleep`
what is asked of a sleeping CPU. -/
def openLogic (J : Kernel H → Prop) (seen : Prop)
    (asleep : Cfg LockId (Kernel H) → Prop) : Logic LockId (Kernel H) Fatal where
  rely c c' := seen ∧ c.ifl = true ∧ c'.held = c.held ∧ c'.ifl = c.ifl ∧
    (J c.data → J c'.data)
  wake c c' := c'.held = c.held ∧ c'.ifl = c.ifl ∧ (J c.data → J c'.data)
  point c := (c.ifl = true → Free c) ∧ J c.data
  rest c := Free c ∧ J c.data ∧ asleep c
  busy _ _ := False
  trap _ _ := False
  fault _ _ := True
  stop _ := True
  trap_mono _ h := h

section Tidy

variable {α : Type} {A : LockId → Prop} {p : KernelCode H α}
  {Q : α → Cfg LockId (Kernel H) → Prop} {c : Cfg LockId (Kernel H)}

theorem closedLogic_lax : (closedLogic pf).Lax false fun _ => True where
  rely hr := hr.elim
  point ho _ := Bool.eq_false_iff.mpr fun h => Bool.false_ne_true (ho h)

theorem handlerLogic_lax :
    (handlerLogic : Logic LockId (Kernel H) Fatal).Lax false fun _ => True where
  rely hr := hr.elim
  point ho _ := Bool.eq_false_iff.mpr fun h => Bool.false_ne_true (ho h)

/-- Under a closed flag the code ends as its uninterrupted reading says. -/
theorem closedLogic_run (h : p.wp (closedLogic pf) Q c) :
    p.wp (closedLogic pf)
      (fun a c' => Q a c' ∧ p.run (trapRun pf) c = .done a c') c :=
  wp_run (Γ := closedLogic pf) (fun _ hp => hp) (fun _ _ hr => hr.elim)
    (fun _ hr => hr)
    (fun _ _ ht => ⟨ht.1, fun c' hh hi hr => ⟨ht.2 c' hh hi hr, hr⟩⟩) p h

theorem handlerLogic_run (h : p.wp handlerLogic Q c) :
    p.wp handlerLogic
      (fun a c' => Q a c' ∧ p.run Outcome.halt c = .done a c') c :=
  wp_run (Γ := handlerLogic) (fun _ hp => hp) (fun _ _ hr => hr.elim)
    (fun _ hr => hr) (fun _ _ ht => ht.elim) p h

theorem Tidy.wp_closed (hp : Tidy TrapFree false A p) (hc : c.ifl = false)
    (hA : ∀ l, A l → c.held l = false) :
    p.wp (closedLogic pf) (fun a c' => (c'.held = c.held ∧ c'.ifl = false) ∧
      p.run (trapRun pf) c = .done a c') c := by
  refine closedLogic_run pf (wp_mono (fun a c' hc' => ⟨hc'.1, hc'.2.trans hc⟩)
    (Safe.wp (closedLogic_lax pf) (fun _ h => h)
      (fun _ hT h => ⟨hT, fun c' hh hi _ => h c' hh hi⟩)
      (fun _ => trivial) (fun _ => trivial) ?_ trivial (hp c.held c.ifl ?_ hA)))
  · simp [hc]
  · simp [hc]

theorem Tidy.wp_handler (hp : Tidy (fun _ => False) false A p) (hc : c.ifl = false)
    (hA : ∀ l, A l → c.held l = false) :
    p.wp handlerLogic (fun a c' => (c'.held = c.held ∧ c'.ifl = false) ∧
      p.run Outcome.halt c = .done a c') c := by
  refine handlerLogic_run (wp_mono (fun a c' hc' => ⟨hc'.1, hc'.2.trans hc⟩)
    (Safe.wp handlerLogic_lax (fun _ h => h) (fun _ hT _ => hT) (fun _ => trivial)
      (fun _ => trivial) ?_ trivial (hp c.held c.ifl ?_ hA)))
  · simp [hc]
  · simp [hc]

end Tidy

/-! ## The handlers, as the blocks see them -/

section Handlers

variable {c : Cfg LockId (Kernel H)}

/-- A breakpoint in code whose printing locks are free. -/
theorem trap_wp {Q : Cfg LockId (Kernel H) → Prop} (h : (closedLogic pf).trap Q c) :
    (system pf).trap.wp handlerLogic (fun _ c' => Q (c'.iret c.ifl)) c.closeIf := by
  have hwp := Tidy.wp_handler (c := c.closeIf)
    ((breakpointHandler_tidy pf).zoom Kernel.globalsLens) rfl h.1
  refine wp_mono (fun a c' hc' => h.2 (c'.iret c.ifl) ?_ rfl ?_) hwp
  · exact hc'.1.1
  · rw [trapRun, runGated]
    exact congrArg (Outcome.bind · _) hc'.2

/-- An interrupt that finds its locks free gives back locks and flag. -/
theorem irq_wp (hfree : Free c) :
    (keyboardInterruptHandler : KernelCode H Unit).wp handlerLogic
      (fun _ c' => c'.held = c.held ∧
        keyboardInterruptHandler.run Outcome.halt c.closeIf = .done () c') c.closeIf :=
  wp_mono (fun _ _ hc' => ⟨hc'.1.1, hc'.2⟩)
    (Tidy.wp_handler keyboardInterruptHandler_tidy rfl fun l _ => congrFun hfree l)

end Handlers

/-! ## The precondition of each block -/

/-- Where the main flow is between leaving the drain and its `hlt`. -/
def BeforeHlt (m : Machine H) : Prop :=
  ∃ enabled, m.pc = .leave enabled ∧ m.halted = false ∧ m.code.result? = none

/-- `J` holds whenever the main flow is outside boot and the inside of a
turn of the drain, along the runs `G` allows. On `quiet` runs no interrupt
lands between the drain and the `hlt`. -/
structure LoopInv (quiet : Bool) (k₀ : Kernel H) (J : Kernel H → Prop)
    (G : Machine H → Label Fatal Unit → Prop) : Prop where
  boot : ∀ {c}, (boot pf).run (trapRun pf) (entryCfg k₀) = .done () c → Free c →
    c.ifl = false → J c.data
  turn : ∀ {k q scancode c c'}, J k → k.queue.pop = some (some scancode, q) →
    c.data = { k with queue := q } → Free c → c.ifl = false →
    (onGlobals (process pf scancode)).run (trapRun pf) c = .done () c' →
    Free c' → c'.ifl = false → J c'.data
  irq : ∀ {m i c'}, G m (.irq i) → Free m.cfg → J m.cfg.data →
    keyboardInterruptHandler.run Outcome.halt m.cfg.closeIf = .done () c' → J c'.data
  quiet_ok : ∀ {m i}, G m (.irq i) → quiet = true → ¬BeforeHlt m
  no_fatal : ∀ {m e}, ¬G m (.fatal e)

/-- The drain is left with the queue empty. -/
def loopEntry (k₀ : Kernel H) (J : Kernel H → Prop) : Pc → Cfg LockId (Kernel H) → Prop
  | .boot, c => c = entryCfg k₀
  | .head, c => Free c ∧ J c.data
  | .drain _, c => c.ifl = false ∧ Free c ∧ J c.data
  | .leave _, c => c.ifl = false ∧ Free c ∧ J c.data ∧ c.data.queue.len = 0

def loopFlow (quiet : Bool) (J : Kernel H → Prop) : Pc → Logic LockId (Kernel H) Fatal
  | .boot => closedLogic pf
  | .head => openLogic J True fun _ => False
  | .drain _ => closedLogic pf
  | .leave _ => openLogic J (quiet = false) fun c =>
      quiet = true → c.data.queue.len = 0

section Blocks

variable {quiet : Bool} {k₀ : Kernel H} {J : Kernel H → Prop}
  {G : Machine H → Label Fatal Unit → Prop} {c : Cfg LockId (Kernel H)}

/-- The access a drain makes, if it returns. -/
theorem nextScancode_done {ktrap : Cfg LockId (Kernel H) → Outcome LockId (Kernel H) Fatal Unit}
    {c' : Cfg LockId (Kernel H)} {scancode : Option UInt8}
    (hfree : c.held .scancodeQueue = false)
    (hrun : nextScancode.run ktrap c = .done scancode c') :
    ∃ q, c.data.queue.pop = some (scancode, q) ∧ c'.data = { c.data with queue := q } := by
  have hacc := run_withLock_attempt hfree hrun
  obtain ⟨r, hpop, hr⟩ := Option.map_eq_some_iff.mp hacc
  obtain ⟨rfl, hdata⟩ := Prod.mk.inj hr
  exact ⟨r.2, hpop, hdata.symm⟩

/-- A drain that answers nothing found the queue empty. -/
theorem ScancodeQueue.pop_none {q q' : ScancodeQueue} (h : q.pop = some (none, q')) :
    q' = q ∧ q.len = 0 := by
  unfold ScancodeQueue.pop at h
  split at h <;> rename_i hlen
  · obtain ⟨_, rfl⟩ := Prod.mk.inj (Option.some.inj h)
    exact ⟨rfl, hlen⟩
  · obtain ⟨_, _, h⟩ := Option.bind_eq_some_iff.mp h
    obtain ⟨_, _, h⟩ := Option.bind_eq_some_iff.mp h
    cases h

/-- Where the flag is open, interference keeps the locks, the flag and `J`;
it does nothing where the flag is closed or interrupts are not seen. -/
theorem openLogic_at {seen : Prop} {asleep P : Cfg LockId (Kernel H) → Prop}
    (hfree : Free c) (hJ : J c.data)
    (h : ∀ c', Free c' → J c'.data → (¬seen ∨ c.ifl = false → c' = c) → P c') :
    (openLogic J seen asleep).At P c := by
  intro c' hstar
  have key : Free c' ∧ J c'.data ∧ c'.ifl = c.ifl ∧
      (¬seen ∨ c.ifl = false → c' = c) := by
    induction hstar with
    | refl => exact ⟨hfree, hJ, rfl, fun _ => rfl⟩
    | tail _ hr ih =>
        obtain ⟨hseen, hifl, hheld, hifl', hkeep⟩ := hr
        obtain ⟨ihfree, ihJ, ihifl, _⟩ := ih
        refine ⟨hheld.trans ihfree, hkeep ihJ, hifl'.trans ihifl, ?_⟩
        rintro (hn | hn)
        · exact absurd hseen hn
        · rw [← ihifl, hifl] at hn
          cases hn
  exact ⟨⟨fun _ => key.1, key.2.1⟩, h c' key.1 key.2.1 key.2.2.2⟩

theorem boot_block_ok (inv : LoopInv pf quiet k₀ J G) (h : loopEntry k₀ J .boot c) :
    (block pf .boot).wp (closedLogic pf) (loopEntry k₀ J) c := by
  obtain rfl := h
  refine wp_bind (wp_mono (fun _ c' hc' => ?_)
    (Tidy.wp_closed pf (boot_tidy pf) (c := entryCfg k₀) rfl fun _ _ => rfl))
  exact ⟨hc'.1.2, hc'.1.1, inv.boot hc'.2 hc'.1.1 hc'.1.2⟩

theorem head_block_ok (h : loopEntry k₀ J .head c) :
    (block pf .head).wp (loopFlow pf quiet J .head) (loopEntry k₀ J) c := by
  refine openLogic_at h.1 h.2 fun c₁ hfree₁ hJ₁ _ => ?_
  cases hifl : c₁.ifl with
  | true =>
      refine openLogic_at (c := c₁.next) hfree₁ hJ₁ fun c₂ hfree₂ hJ₂ _ => ?_
      exact ⟨⟨fun _ => hfree₂, hJ₂⟩, rfl, hfree₂, hJ₂⟩
  | false => exact ⟨⟨fun _ => hfree₁, hJ₁⟩, hifl, hfree₁, hJ₁⟩

theorem drain_block_ok (inv : LoopInv pf quiet k₀ J G) {enabled : Bool}
    (h : loopEntry k₀ J (.drain enabled) c) :
    (block pf (.drain enabled)).wp (closedLogic pf) (loopEntry k₀ J) c := by
  obtain ⟨hifl, hfree, hJ⟩ := h
  refine wp_bind (wp_mono (fun scancode c₁ hc₁ => ?_)
    (Tidy.wp_closed pf (nextScancode_tidy trivial) hifl
      fun l (_ : AnyLock l) => congrFun hfree l))
  have hfree₁ : Free c₁ := hc₁.1.1.trans hfree
  obtain ⟨q, hpop, hdata⟩ := nextScancode_done (congrFun hfree _) hc₁.2
  cases scancode with
  | some scancode =>
      refine wp_bind (wp_mono (fun _ c₂ hc₂ => ?_)
        (Tidy.wp_closed pf ((process_tidy pf scancode).zoom _) hc₁.1.2
          fun l _ => congrFun hfree₁ l))
      have hfree₂ : Free c₂ := hc₂.1.1.trans hfree₁
      exact ⟨hc₂.1.2, hc₂.1.2, hfree₂,
        inv.turn hJ hpop hdata hfree₁ hc₁.1.2 hc₂.2 hfree₂ hc₂.1.2⟩
  | none =>
      obtain ⟨rfl, hlen⟩ := ScancodeQueue.pop_none hpop
      have hsame : c₁.data = c.data := hdata
      refine ⟨hc₁.1.2, hc₁.1.2, hfree₁, ?_, ?_⟩
      · rw [hsame]; exact hJ
      · rw [hsame]; exact hlen

/-- The way out of the loop. On a quiet run the queue the drain emptied is
still empty at the `hlt`. -/
theorem leave_block_ok {enabled : Bool} (h : loopEntry k₀ J (.leave enabled) c) :
    (block pf (.leave enabled)).wp (loopFlow pf quiet J (.leave enabled))
      (loopEntry k₀ J) c := by
  obtain ⟨hifl, hfree, hJ, hlen⟩ := h
  -- From an open flag and, on quiet runs, an empty queue, to sleep and back.
  have sleep : ∀ c₁ : Cfg LockId (Kernel H), Free c₁ → J c₁.data →
      (quiet = true → c₁.data.queue.len = 0) →
      (hlt (ret .head) : KernelCode H Pc).wp (loopFlow pf quiet J (.leave enabled))
        (loopEntry k₀ J) c₁ := by
    intro c₁ hfree₁ hJ₁ hlen₁
    refine openLogic_at hfree₁ hJ₁ fun c₂ hfree₂ hJ₂ hsame =>
      ⟨⟨hfree₂, hJ₂, fun hq => ?_⟩, ?_⟩
    · rw [hsame (.inl (by simp [hq]))]
      exact hlen₁ hq
    · rintro c₃ ⟨hheld, _, hkeep⟩
      have hfree₃ : Free c₃ := hheld.trans hfree₂
      exact ⟨⟨fun _ => hfree₃, hkeep hJ₂⟩, hfree₃, hkeep hJ₂⟩
  cases enabled with
  | false =>
      refine openLogic_at hfree hJ fun c₁ hfree₁ hJ₁ hsame =>
        sleep c₁.openIf hfree₁ hJ₁ fun _ => ?_
      rw [hsame (.inr hifl)]
      exact hlen
  | true =>
      refine openLogic_at hfree hJ fun c₁ hfree₁ hJ₁ hsame => ?_
      obtain rfl := hsame (.inr hifl)
      refine openLogic_at (c := c₁.openIf) hfree₁ hJ₁ fun c₂ hfree₂ hJ₂ hsame₂ =>
        sleep c₂.openIf hfree₂ hJ₂ fun hq => ?_
      rw [hsame₂ (.inl (by simp [hq]))]
      exact hlen

end Blocks

/-! ## The proof -/

section Proof

variable {quiet : Bool} {k₀ : Kernel H} {J : Kernel H → Prop}
  {G : Machine H → Label Fatal Unit → Prop}

/-- A block whose boundaries can have the flag open is the head or the way
out, and has no lock held there. -/
theorem loopFlow_open {pc : Pc} {c : Cfg LockId (Kernel H)}
    (h : (loopFlow pf quiet J pc).point c) (hifl : c.ifl = true) :
    (pc = .head ∨ ∃ enabled, pc = .leave enabled) ∧ Free c ∧ J c.data := by
  cases pc with
  | boot => exact absurd (hifl.symm.trans h) (by decide)
  | head => exact ⟨.inl rfl, h.1 hifl, h.2⟩
  | drain enabled => exact absurd (hifl.symm.trans h) (by decide)
  | leave enabled => exact ⟨.inr ⟨enabled, rfl⟩, h.1 hifl, h.2⟩

/-- Only the way out goes to sleep. -/
theorem loopFlow_rest {pc : Pc} {c : Cfg LockId (Kernel H)}
    (h : (loopFlow pf quiet J pc).rest c) :
    (∃ enabled, pc = .leave enabled) ∧ Free c ∧ J c.data ∧
      (quiet = true → c.data.queue.len = 0) := by
  cases pc with
  | boot => exact h.elim
  | head => exact h.2.2.elim
  | drain enabled => exact h.elim
  | leave enabled => exact ⟨⟨enabled, rfl⟩, h⟩

/-- What holds along every run `G` allows. -/
def loopProof (inv : LoopInv pf quiet k₀ J G) : Proof (system pf) G where
  flow := loopFlow pf quiet J
  handler := handlerLogic
  entry := loopEntry k₀ J
  block_ok := by
    intro p c h
    cases p with
    | boot => exact boot_block_ok pf inv h
    | head => exact head_block_ok pf h
    | drain enabled => exact drain_block_ok pf inv h
    | leave enabled => exact leave_block_ok pf h
  handler_closed h := h
  handler_trap h := h
  handler_rest h := h
  trap_ok := by
    intro p Q c h
    cases p with
    | boot => exact trap_wp pf h
    | head => exact h.elim
    | drain enabled => exact trap_wp pf h
    | leave enabled => exact h.elim
  irq_ok := by
    intro m i hG hf hh hr hifl _ hpoint
    obtain ⟨hpc, hfree, hJ⟩ := loopFlow_open pf hpoint hifl
    refine wp_mono (fun _ c' hc' => ?_) (irq_wp hfree)
    have hJ' : J c'.data := inv.irq hG hfree hJ hc'.2
    rcases hpc with hpc | ⟨enabled, hpc⟩
    · rw [hpc]
      exact ⟨trivial, hifl, hc'.1, hifl.symm, fun _ => hJ'⟩
    · rw [hpc]
      have hquiet : quiet = false := by
        cases quiet with
        | false => rfl
        | true => exact absurd ⟨enabled, hpc, hh, hr⟩ (inv.quiet_ok hG rfl)
      exact ⟨hquiet, hifl, hc'.1, hifl.symm, fun _ => hJ'⟩
  jump_ok := by
    intro m i p hG hf hh hr hifl _ hpoint hentry
    obtain ⟨hpc, hfree, hJ⟩ := loopFlow_open pf hpoint hifl
    -- The block after an open flag is the head.
    obtain rfl : p = .head := by
      cases p with
      | boot =>
          have hclosed : m.cfg.ifl = false := by rw [show m.cfg = entryCfg k₀ from hentry]; rfl
          exact absurd (hifl.symm.trans hclosed) (by decide)
      | head => rfl
      | drain enabled => exact absurd (hifl.symm.trans hentry.1) (by decide)
      | leave enabled => exact absurd (hifl.symm.trans hentry.1) (by decide)
    refine wp_mono (fun _ c' hc' => ?_) (irq_wp hfree)
    have hfree' : Free (c'.iret true) := hc'.1.trans hfree
    have hJ' : J c'.data := inv.irq hG hfree hJ hc'.2
    refine ⟨?_, hfree', hJ'⟩
    rcases hpc with hpc | ⟨enabled, hpc⟩
    · rw [hpc]; exact ⟨fun _ => hfree', hJ'⟩
    · rw [hpc]; exact ⟨fun _ => hfree', hJ'⟩
  wake_ok := by
    intro m i hG hf hh hifl _ hrest
    obtain ⟨⟨enabled, hpc⟩, hfree, hJ, _⟩ := loopFlow_rest pf hrest
    refine wp_mono (fun _ c' hc' => ?_) (irq_wp hfree)
    have hJ' : J c'.data := inv.irq hG hfree hJ hc'.2
    rw [hpc]
    exact ⟨hc'.1, hifl.symm, fun _ => hJ'⟩
  no_fatal := inv.no_fatal

theorem loop_inv (inv : LoopInv pf quiet k₀ J G) {ls : List (Label Fatal Unit)}
    {m : Machine H} (hrun : Run (system pf).step G (Machine.start pf k₀) ls m) :
    (loopProof pf inv).Inv m := by
  refine (loopProof pf inv).sound ?_ hrun
  exact (Proof.inv_main rfl rfl).mpr (boot_block_ok pf inv rfl)

/-- Between two turns of the loop, what the loop keeps. -/
theorem loop_between {inv : LoopInv pf quiet k₀ J G} {m : Machine H}
    (hm : (loopProof pf inv).Inv m) (hf : m.frames = [])
    (hpc : m.pc = .head ∨ ∃ enabled, m.pc = .leave enabled) : J m.cfg.data := by
  cases hh : m.halted with
  | false =>
      have hpoint := wp_point ((Proof.inv_main hf hh).mp hm)
      rcases hpc with hpc | ⟨enabled, hpc⟩
      · rw [hpc] at hpoint; exact hpoint.2
      · rw [hpc] at hpoint; exact hpoint.2
  | true => exact (loopFlow_rest pf ((Proof.inv_halted hf hh).mp hm).1).2.2.1

/-- Wherever the flag is open, no lock is held. -/
theorem loop_open_free {inv : LoopInv pf quiet k₀ J G} {m : Machine H}
    (h : (loopProof pf inv).Inv m) (hifl : m.cfg.ifl = true) : Free m.cfg := by
  cases hf : m.frames with
  | nil =>
      -- The main flow is at a boundary of its block, or asleep.
      cases hh : m.halted with
      | false => exact (loopFlow_open pf (wp_point ((Proof.inv_main hf hh).mp h)) hifl).2.1
      | true => exact (loopFlow_rest pf ((Proof.inv_halted hf hh).mp h).1).2.1
  | cons f fs =>
      cases fs with
      | nil =>
          have hclosed : m.cfg.ifl = false := wp_point ((Proof.inv_frame hf).mp h).2.2
          exact absurd (hifl.symm.trans hclosed) (by decide)
      | cons g gs => simp [Proof.Inv, hf] at h

end Proof

/-! ## Running it -/

section Traces

variable {G : Machine H → Label Fatal Unit → Prop} {k k' : Kernel H} {b : Bool}

/-- The main flow with no handler over it and no lock held. -/
def idling (k : Kernel H) (ifl shadow halted : Bool) (pc : Pc)
    (code : KernelCode H Pc) : Machine H :=
  ⟨⟨k, noLock, ifl, shadow⟩, halted, pc, code, []⟩

/-- Code that yields without a trap, in front of other code. -/
theorem steps_of_yields {S α β : Type} {p : Prog LockId S Fatal α} {s s' : S}
    {h : LockId → Bool} {a : α} (hy : p.Yields Outcome.halt s h b a s') (shadow : Bool)
    (g : α → Prog LockId S Fatal β) :
    ∃ shadow', Steps (p.bind g) ⟨s, h, b, shadow⟩ (g a) ⟨s', h, b, shadow'⟩ := by
  obtain ⟨shadow', hrun⟩ := hy shadow
  exact ⟨shadow', (steps_of_run _ hrun).bind g⟩

/-- And on from there. -/
theorem steps_after {S α β : Type} {p : Prog LockId S Fatal α} {g : α → Prog LockId S Fatal β}
    {q : Prog LockId S Fatal β} {s s' s'' : S} {h : LockId → Bool} {a : α}
    (hy : p.Yields Outcome.halt s h b a s')
    (hrest : ∀ shadow, ∃ shadow', Steps (g a) ⟨s', h, b, shadow⟩ q ⟨s'', h, b, shadow'⟩)
    (shadow : Bool) :
    ∃ shadow', Steps (p.bind g) ⟨s, h, b, shadow⟩ q ⟨s'', h, b, shadow'⟩ := by
  obtain ⟨shadow₁, h₁⟩ := steps_of_yields hy shadow g
  obtain ⟨shadow₂, h₂⟩ := hrest shadow₁
  exact ⟨shadow₂, h₁.trans h₂⟩

/-- A block that yields is run from its jump to its end, and breakpoints in
it are taken. -/
theorem run_block (hG : ∀ m, G m .tick) {p p' : Pc}
    (hy : (block pf p).Yields (trapRun pf) k noLock b p' k') (shadow : Bool) (pc : Pc) :
    ∃ ls shadow', Run (system pf).step G (idling k b shadow false pc (ret p)) ls
      (idling k' b shadow' false p (ret p')) := by
  obtain ⟨shadow', hrun⟩ := hy shadow
  obtain ⟨ls, m, hls, hend⟩ : ∃ ls m, Run (system pf).step G
      (idling k b shadow false pc (ret p)) ls m ∧
      System.Reached (idling k b shadow false p (ret p))
        ((block pf p).run (trapRun pf) ⟨k, noLock, b, shadow⟩) m :=
    System.reaches_jump hG rfl rfl rfl
  rw [hrun] at hend
  obtain rfl := hend
  exact ⟨ls, shadow', hls⟩

/-- So is the boot block, which is entered without a jump. -/
theorem run_boot (hG : ∀ m, G m .tick)
    (hy : (block pf .boot).Yields (trapRun pf) k noLock false .head k') :
    ∃ ls shadow, Run (system pf).step G (Machine.start pf k) ls
      (idling k' false shadow false .boot (ret .head)) := by
  obtain ⟨shadow, hrun⟩ := hy false
  obtain ⟨ls, m, hls, hend⟩ : ∃ ls m, Run (system pf).step G (Machine.start pf k) ls m ∧
      System.Reached (Machine.start pf k) ((block pf .boot).run (trapRun pf) (entryCfg k)) m :=
    System.reaches_main hG _ rfl rfl rfl
  rw [show (block pf .boot).run (trapRun pf) (entryCfg k) = _ from hrun] at hend
  obtain rfl := hend
  exact ⟨ls, shadow, hls⟩

/-- With the flag open the head closes it, and the drain is told. -/
theorem run_head_open (hG : ∀ m, G m .tick) (pc : Pc) :
    ∃ ls, Run (system pf).step G (idling k true false false pc (ret .head)) ls
      (idling k false false false .head (ret (.drain true))) :=
  ⟨_, ((Run.one (hG _) rfl).snoc (hG _) rfl).snoc (hG _) rfl⟩

/-- With the flag closed it goes straight to the drain. -/
theorem run_head_closed (hG : ∀ m, G m .tick) (shadow : Bool) (pc : Pc) :
    ∃ ls, Run (system pf).step G (idling k false shadow false pc (ret .head)) ls
      (idling k false false false .head (ret (.drain false))) :=
  ⟨_, (Run.one (hG _) rfl).snoc (hG _) rfl⟩

/-- From the drain to sleep, whether or not the flag was open before it. -/
theorem run_leave (hG : ∀ m, G m .tick) (enabled shadow : Bool) (pc : Pc) :
    ∃ ls, Run (system pf).step G (idling k false shadow false pc (ret (.leave enabled))) ls
      (idling k true false true (.leave enabled) (ret .head)) := by
  cases enabled with
  | false => exact ⟨_, ((Run.one (hG _) rfl).snoc (hG _) rfl).snoc (hG _) rfl⟩
  | true =>
      exact ⟨_, (((Run.one (hG _) rfl).snoc (hG _) rfl).snoc (hG _) rfl).snoc (hG _) rfl⟩

theorem keyboardInterruptHandler_yields {q : ScancodeQueue}
    {ktrap : Cfg LockId (Kernel H) → Outcome LockId (Kernel H) Fatal Unit}
    (hq : k.queue.push (k.port.headD 0) = some q) :
    (keyboardInterruptHandler : KernelCode H Unit).Yields ktrap k noLock b ()
      { k with
        queue := q
        pics := k.pics ++ [.notifyEndOfInterrupt keyboardInterruptVector]
        port := k.port.tail } :=
  Yields.bind (Yields.act Yields.ret)
    (Yields.bind (Yields.withLock rfl (Yields.attempt (by rw [hq]; rfl)))
      (picsOp_yields _ rfl))

/-- A delivered interrupt takes one scancode from the keyboard to the queue
and returns to where it struck, awake. -/
theorem run_irq (hG : ∀ m, G m .tick) {q : ScancodeQueue}
    (hq : k.queue.push (k.port.headD 0) = some q) (halted : Bool) (pc : Pc)
    (code : KernelCode H Pc) (hirq : G (idling k true false halted pc code) (.irq ())) :
    ∃ ls pics, Run (system pf).step G (idling k true false halted pc code) ls
      (idling { k with queue := q, pics := pics, port := k.port.tail } true false false
        pc code) := by
  obtain ⟨shadow, hrun⟩ := keyboardInterruptHandler_yields (b := false) hq false
  obtain ⟨ls, hls⟩ := (system pf).run_frame hG (steps_of_run _ hrun)
    (m := (idling k true false halted pc code).enter .irq true keyboardInterruptHandler)
    rfl rfl rfl rfl
  exact ⟨_, _, ((Run.one hirq rfl).trans hls).trans (Run.one (hG _) rfl)⟩

theorem nextScancode_yields {q : ScancodeQueue} {scancode : Option UInt8}
    {ktrap : Cfg LockId (Kernel H) → Outcome LockId (Kernel H) Fatal Unit}
    (hpop : k.queue.pop = some (scancode, q)) :
    (nextScancode : KernelCode H (Option UInt8)).Yields ktrap k noLock b scancode
      { k with queue := q } :=
  Yields.withLock rfl (Yields.attempt (by rw [hpop]; rfl))

/-- A turn of the drain that finds nothing. -/
theorem drain_yields_none (hv : k.queue.Valid) (hc : k.queue.contents = [])
    (enabled : Bool) :
    ∃ q, (block pf (.drain enabled)).Yields (trapRun pf) k noLock b (.leave enabled)
        { k with queue := q } ∧ q.Valid ∧ q.contents = [] := by
  obtain ⟨q, hpop, hv', hc'⟩ := ScancodeQueue.pop_spec hv
  rw [hc] at hpop hc'
  exact ⟨q, Yields.bind (nextScancode_yields hpop) Yields.ret, hv', hc'⟩

/-- A turn of the drain that finds a scancode. -/
theorem drain_yields_some {scancode : UInt8} {rest : List UInt8} {g : Globals H}
    (hv : k.queue.Valid) (hc : k.queue.contents = scancode :: rest) (enabled : Bool)
    (hproc : (process pf scancode).Yields (globalsTrapRun pf) k.globals noLock b () g) :
    ∃ q, (block pf (.drain enabled)).Yields (trapRun pf) k noLock b (.drain enabled)
        { k with queue := q, globals := g } ∧ q.Valid ∧ q.contents = rest := by
  obtain ⟨q, hpop, hv', hc'⟩ := ScancodeQueue.pop_spec hv
  rw [hc] at hpop hc'
  refine ⟨q, Yields.bind (nextScancode_yields hpop) ?_, hv', hc'⟩
  exact Yields.bind (onGlobals_yields (k := { k with queue := q }) (trapRun_within pf) hproc)
    Yields.ret

/-- From a finished boot to the first sleep. -/
theorem run_first_turn (hG : ∀ m, G m .tick) (hv : k.queue.Valid) (hc : k.queue.contents = [])
    (shadow : Bool) :
    ∃ ls q, Run (system pf).step G (idling k false shadow false .boot (ret .head)) ls
        (idling { k with queue := q } true false true (.leave false) (ret .head)) ∧
      q.Valid ∧ q.contents = [] := by
  obtain ⟨ls₁, h₁⟩ := run_head_closed pf hG (k := k) shadow .boot
  obtain ⟨q, hdrain, hv', hc'⟩ := drain_yields_none pf (b := false) hv hc false
  obtain ⟨ls₂, shadow', h₂⟩ := run_block pf hG hdrain false .head
  obtain ⟨ls₃, h₃⟩ := run_leave pf hG (k := { k with queue := q }) false shadow' (.drain false)
  exact ⟨_, q, (h₁.trans h₂).trans h₃, hv', hc'⟩

end Traces

end ProtoOs.Ref
