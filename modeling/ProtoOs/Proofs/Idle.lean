import ProtoOs.Proofs.Serving

/-!
# The idle loop: no deadlock, and one lost wakeup

Nothing deadlocks: the blocks' preconditions alone say so. They also say
that the queue is empty when the drain is left. Whether it still is when
the CPU goes to sleep depends on what lands in between.
`without_interrupts` opens the flag again if it was open, and from the
second turn of the loop on it was; the `sti` of `enable_and_hlt` then opens
nothing, casts no shadow, and an interrupt may land between it and the
`hlt`.
-/

namespace ProtoOs.Ref

open ProtoOs.Lib ProtoOs.Lib.Prog

variable {H : Type} (pf : Platform H)

/-- The runs without fatal events; a `quiet` one has no interrupt between
the drain and the `hlt` either. -/
def IdleRun (quiet : Bool) (m : Machine H) : Label Fatal Unit → Prop
  | .tick => True
  | .irq _ => quiet = true → ¬BeforeHlt m
  | .fatal _ => False

/-- Nothing is asked of the data. -/
theorem idle_loopInv (quiet : Bool) (k₀ : Kernel H) :
    LoopInv pf quiet k₀ (fun _ => True) (IdleRun quiet) where
  boot _ _ _ := trivial
  turn _ _ _ _ _ _ _ _ := trivial
  irq _ _ _ _ := trivial
  quiet_ok hG := hG
  no_fatal hG := hG

theorem idleRun_serves (quiet : Bool) :
    Admits (IdleRun quiet : Machine H → Label Fatal Unit → Prop) where
  tick _ := trivial
  irq _ _ _ := fun ⟨_, _, _, hcode⟩ => by cases hcode

/-! ## No deadlock -/

section Runs

variable {buffer : Buffer} {crtc : Crtc} {heap : H} {mem : Paging.Mem}
  {port : List UInt8} {ls : List (Label Fatal Unit)} {m : Machine H}

/-- In every run of the kernel without fatal events, whatever is typed and
however the interrupts fall, no acquisition finds its lock held; while the
flag is open the main flow holds no lock; and the flag is never open inside
the drain, not even in a handler that interrupted it. -/
theorem no_acquisition_blocks
    (hrun : Run (system pf).step (IdleRun false)
      (Machine.start pf (Kernel.start buffer crtc heap mem port)) ls m) :
    ¬m.Blocked ∧
      (m.frames = [] → m.cfg.ifl = true → ∀ l, m.cfg.held l = false) ∧
      ∀ enabled, m.pc = .drain enabled → m.cfg.ifl = false := by
  have hinv := loop_inv pf (idle_loopInv pf false _) hrun
  refine ⟨hinv.not_blocked ?_ fun _ _ h => h,
    fun _ hifl l => congrFun (loop_open_free pf hinv hifl) l, fun enabled hpc => ?_⟩
  · intro p l c h
    cases p <;> exact h
  · cases hf : m.frames with
    | nil =>
        cases hh : m.halted with
        | false =>
            have hpoint := wp_point ((Proof.inv_main hf hh).mp hinv)
            rw [hpc] at hpoint
            exact hpoint
        | true =>
            have hrest := ((Proof.inv_halted hf hh).mp hinv).1
            rw [hpc] at hrest
            exact hrest.elim
    | cons f fs =>
        cases fs with
        | nil => exact wp_point ((Proof.inv_frame hf).mp hinv).2.2
        | cons g gs => simp [Proof.Inv, hf] at hinv

end Runs

/-- `falha breakpoint` and Enter, as they are typed. -/
def breakpointKeys : List UInt8 :=
  [0x21, 0x1E, 0x26, 0x23, 0x1E, 0x39,
    0x30, 0x13, 0x12, 0x1E, 0x25, 0x19, 0x18, 0x17, 0x31, 0x14, 0x1C]

/-- Typed in two bursts and a last key. The line has run, the breakpoint has
been handled, and the machine sleeps with every lock free. -/
theorem no_acquisition_blocks_breakpoint :
    ∃ ls m, Run (system smallPlatform).step (IdleRun false) (smallStart breakpointKeys) ls m ∧
      m.halted = true ∧ m.cfg.data.port = [] ∧
      m.cfg.data.globals.executed = [bytes "falha breakpoint"] ∧
      (Ideal.breakpointLine ++ bytes "\n") <:+ m.cfg.data.globals.serial1 ∧
      ¬m.Blocked ∧ ∀ l, m.cfg.held l = false := by
  obtain ⟨i, hi, hends⟩ := presses_ok breakpointKeys
    (fun i => (i.ran, i.serial.getLast?))
    (x := ([bytes "falha breakpoint"], some Ideal.breakpointLine))
    (by decide +kernel)
  obtain ⟨hran, hlast⟩ := Prod.mk.inj hends
  obtain ⟨ls, k, enabled, hrun, hk⟩ := smallStart_serves
    (idleRun_serves (H := Nat) false)
    [breakpointKeys.take 6, (breakpointKeys.drop 6).take 10, [0x1C]] [] (by decide) hi
  obtain ⟨hblocked, hfree, _⟩ := no_acquisition_blocks smallPlatform hrun
  refine ⟨ls, _, hrun, rfl, hk.port, hk.renders.ran.trans hran, ?_, hblocked, hfree rfl rfl⟩
  obtain ⟨before, hbefore⟩ := List.getLast?_eq_some_iff.mp hlast
  refine ⟨before.flatMap (· ++ bytes "\n"), ?_⟩
  rw [show (asleep k enabled).cfg.data.globals.serial1 = _ from hk.renders.serial, hbefore]
  simp

/-! ## No lost wakeup -/

section Runs

variable {buffer : Buffer} {crtc : Crtc} {heap : H} {mem : Paging.Mem}
  {port : List UInt8} {ls : List (Label Fatal Unit)} {m : Machine H}

/-- In every run without fatal events in which no interrupt lands between
the drain and the `hlt`, the queue is empty whenever the CPU sleeps. -/
theorem asleep_queue_empty
    (hrun : Run (system pf).step (IdleRun true)
      (Machine.start pf (Kernel.start buffer crtc heap mem port)) ls m)
    (hh : m.halted = true) : m.cfg.data.queue.contents = [] := by
  have hinv := loop_inv pf (idle_loopInv pf true _) hrun
  have hlen : m.cfg.data.queue.len = 0 := by
    cases hf : m.frames with
    | nil =>
        have hrest := ((Proof.inv_halted hf hh).mp hinv).1
        exact (loopFlow_rest pf hrest).2.2.2 rfl
    | cons f fs =>
        cases fs with
        | nil => rw [((Proof.inv_frame hf).mp hinv).1] at hh; cases hh
        | cons g gs => simp [Proof.Inv, hf] at hinv
  rw [← List.length_eq_zero_iff, ScancodeQueue.contents_length, hlen]

end Runs

/-- Two keys pressed in one sleep are pending when it ends, are drained, and
are gone when the CPU sleeps again; so is the Enter of the next sleep, with
which the line has run. -/
theorem asleep_queue_empty_small :
    ∃ ls₁ m₁ ls₂ m₂ ls₃ m₃,
      Run (system smallPlatform).step (IdleRun true) (smallStart [0x1E, 0x30, 0x1C]) ls₁ m₁ ∧
      m₁.cfg.data.queue.contents = [0x1E, 0x30] ∧
      Run (system smallPlatform).step (IdleRun true) m₁ ls₂ m₂ ∧ m₂.halted = true ∧
      m₂.cfg.data.port = [0x1C] ∧ m₂.cfg.data.queue.contents = [] ∧
      Run (system smallPlatform).step (IdleRun true) m₂ ls₃ m₃ ∧ m₃.halted = true ∧
      m₃.cfg.data.port = [] ∧ m₃.cfg.data.globals.executed = [bytes "ab"] ∧
      m₃.cfg.data.queue.contents = [] := by
  have hG : Admits (IdleRun true : Machine Nat → Label Fatal Unit → Prop) := idleRun_serves true
  obtain ⟨i, hi, _⟩ := presses_ok [0x1E, 0x30] Ideal.ran (x := []) (by decide +kernel)
  obtain ⟨i', hi', hran⟩ := presses_ok ([0x1E, 0x30] ++ [0x1C]) Ideal.ran
    (x := [bytes "ab"]) (by decide +kernel)
  rw [Ideal.presses_append, bind_ok hi] at hi'
  obtain ⟨ls₁, k, h₁, hk⟩ := smallStart_sleeps hG.tick ([0x1E, 0x30] ++ [0x1C])
  obtain ⟨ls₂, q, pics, h₂, hv, hc⟩ := wake smallPlatform hG hk (by decide) (by decide) false
  obtain ⟨ls₃, k', shadow, h₃, hk'⟩ := answer_pending smallPlatform hG.tick
    (k := { k with queue := q, pics := pics, port := [0x1C] }) hv hk.renders hk.loaded (hc ▸ hi)
    (.leave false)
  obtain ⟨ls₄, h₄⟩ := run_leave smallPlatform hG.tick (k := k') true shadow (.drain true)
  obtain ⟨ls₅, k'', h₅, hk''⟩ := serve smallPlatform hG
    (show k'.Served ([0x1C] ++ []) i from hk') (by decide) (by decide) hi' true
  have hrun : Run (system smallPlatform).step (IdleRun true) (smallStart [0x1E, 0x30, 0x1C])
      ((ls₁ ++ ls₂) ++ (ls₃ ++ ls₄)) (asleep k' true) := (h₁.trans h₂).trans (h₃.trans h₄)
  exact ⟨_, _, _, _, ls₅, asleep k'' true, h₁.trans h₂, hc, h₃.trans h₄, rfl, hk'.port,
    asleep_queue_empty smallPlatform hrun rfl, h₅, rfl, hk''.port, hk''.renders.ran.trans hran,
    asleep_queue_empty smallPlatform (hrun.trans h₅) rfl⟩

/-- A key pressed just before the CPU sleeps is left in the queue. The
first key, which ends the first sleep, is only a release; from then on the
loop opens the flag twice, nothing protects the `hlt`, and the second key
lands in front of it. -/
theorem sleeps_on_pending_scancode :
    ∃ ls m, Run (system smallPlatform).step (IdleRun false)
        (smallStart [0x9E, 0x1E]) ls m ∧
      m.halted = true ∧ m.cfg.data.queue.contents = [0x1E] := by
  have hG : ∀ m : Machine Nat, IdleRun false m .tick := fun _ => trivial
  have hirq : ∀ m : Machine Nat, IdleRun false m (.irq ()) := fun _ h => absurd h (by decide)
  have hG' : Admits (IdleRun false : Machine Nat → Label Fatal Unit → Prop) := idleRun_serves false
  obtain ⟨i, hi, _⟩ := presses_ok [0x9E] Ideal.ran (x := []) (by decide +kernel)
  obtain ⟨ls₀, k₀, h₀, hk₀⟩ := smallStart_sleeps hG ([0x9E] ++ [0x1E])
  obtain ⟨ls₁, k, shadow, h₁, hk⟩ := serve_drained smallPlatform hG' hk₀ (by decide) (by decide)
    hi false
  -- Two `sti`s: the second one opens nothing and casts no shadow.
  have h₂ : Run (system smallPlatform).step (IdleRun false)
      (idling k false shadow false (.drain true) (ret (.leave true))) [.tick, .tick, .tick]
      (idling k true false false (.leave true) (hlt (ret .head))) :=
    ((Run.one (hG _) rfl).snoc (hG _) rfl).snoc (hG _) rfl
  obtain ⟨q, hq, hv, hc⟩ := ScancodeQueue.push_spec hk.valid 0x1E
  rw [hk.empty] at hc
  obtain ⟨ls₃, pics, h₃⟩ := run_irq smallPlatform hG (q := q) (k := k)
    (by rw [hk.port]; exact hq) false (.leave true) (hlt (ret .head)) (hirq _)
  have h₄ : Run (system smallPlatform).step (IdleRun false)
      (idling { k with queue := q, pics := pics, port := k.port.tail } true false false
        (.leave true) (hlt (ret .head)))
      [.tick]
      (idling { k with queue := q, pics := pics, port := k.port.tail } true false true
        (.leave true) (ret .head)) :=
    Run.one (hG _) rfl
  exact ⟨_, _, (((h₀.trans h₁).trans h₂).trans h₃).trans h₄, rfl, hc⟩

end ProtoOs.Ref
