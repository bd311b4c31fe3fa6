import ProtoOs.Lib.Fatal
import ProtoOs.Proofs.Idle

/-!
# Fatal events

`panic::handle` and `fatal_exception` both start by swapping `PANICKING`.
The event that finds it clear writes to the serial port and then to the
screen, takes both locks and may have to build `WRITER`; a reentrant
exception takes the serial lock once more; a reentrant panic takes none.
Nothing in them asks whether a lock is held by what they interrupted, so
whether they reach their halting loop is decided where they strike
(`Unlocked`).
-/

namespace ProtoOs.Ref

open ProtoOs.Lib ProtoOs.Lib.Prog

variable {H : Type} (pf : Platform H)

/-! ## What the handlers take -/

section Ends

variable {T : (LockId → Bool) → Prop} {F : Fatal → Prop} {opened : Bool}

theorem serialPrintLines_neutral {A : LockId → Prop} (texts : List (List UInt8))
    (hA : A .serial1) :
    Neutral T F opened A (serialPrintLines texts : Code H Unit) := by
  induction texts with
  | nil => exact Neutral.ret ()
  | cons text texts ih => exact Neutral.bind (serialPrintln_neutral _ hA) fun _ => ih

theorem writeLines_neutral {A : LockId → Prop} (texts : List (List UInt8)) :
    Neutral T F opened A (writeLines texts : Code H Unit) := by
  induction texts with
  | nil => exact Neutral.ret ()
  | cons text texts ih => exact Neutral.bind (writeText_neutral _) fun _ => ih

theorem writeTexts_neutral {A : LockId → Prop} (text text' : List UInt8) :
    Neutral T F opened A
      ((writeText text : Code H Unit).bind fun _ => writeText text') :=
  Neutral.bind (writeText_neutral _) fun _ => writeText_neutral _

theorem writeTextLines_neutral {A : LockId → Prop} (text : List UInt8)
    (texts : List (List UInt8)) :
    Neutral T F opened A
      ((writeText text : Code H Unit).bind fun _ => writeLines texts) :=
  Neutral.bind (writeText_neutral _) fun _ => writeLines_neutral _

/-- After the swap of `PANICKING`, the first event takes the serial lock and
then those of the screen, a reentrant exception the serial lock, and a
reentrant panic none. -/
theorem fatalHandler_ends (e : Fatal) :
    ∃ k : Bool → Code H Unit, fatalHandler pf e = enterFatalHandler.bind k ∧
      Ends T F opened TrapLock (k false) ∧
      Ends T F opened (fun l => e.gated = true ∧ l = .serial1) (k true) := by
  have hserial : TrapLock .serial1 := .inr (.inr rfl)
  have hwriter : WriterLocks TrapLock := ⟨.inr (.inl rfl), .inl rfl⟩
  cases e with
  | panic message =>
      refine ⟨_, rfl, ?_, Ends.haltLoop⟩
      simp only [Bool.false_eq_true, if_false, bind_def]
      refine Ends.bind (serialPrintln_neutral _ hserial) fun _ => ?_
      exact Ends.bind (withWriter_neutral (writeTexts_neutral _ _) hwriter)
        fun _ => Ends.haltLoop
  | exception x address =>
      refine ⟨_, rfl, ?_, ?_⟩
      · simp only [Bool.false_eq_true, if_false, bind_def]
        refine Ends.bind (serialPrintln_neutral _ hserial) fun _ => ?_
        refine Ends.bind (serialPrintLines_neutral _ hserial) fun _ => ?_
        refine Ends.bind (serialPrintln_neutral _ hserial) fun _ => ?_
        exact Ends.bind (withWriter_neutral (writeTextLines_neutral _ _) hwriter)
          fun _ => Ends.haltLoop
      · simp only [if_true, bind_def]
        exact Ends.bind (serialPrintln_neutral _ ⟨rfl, rfl⟩) fun _ => Ends.haltLoop

end Ends

/-! ## The logic of a fatal handler -/

/-- Nothing but an interrupt lands in a fatal handler, and one that does
finds its locks free and leaves `PANICKING` alone. -/
def fatalLogic : Logic LockId (Kernel H) Fatal where
  rely c c' := c'.held = c.held ∧ c'.ifl = c.ifl ∧
    c'.data.globals.panicking = c.data.globals.panicking
  wake _ _ := False
  point c := c.ifl = true → ∀ l, IrqLock l → c.held l = false
  rest _ := False
  busy _ _ := False
  trap _ _ := False
  fault _ _ := False
  stop _ := True
  trap_mono _ h := h

theorem fatalLogic_total : (fatalLogic : Logic LockId (Kernel H) Fatal).Total where
  busy h := h
  fault h := h
  trap h := h
  rest h := h

theorem fatalLogic_lax (b : Bool) :
    (fatalLogic : Logic LockId (Kernel H) Fatal).Lax b
      fun held => b = true → ∀ l, IrqLock l → held l = false where
  rely hr := ⟨hr.1, hr.2.1⟩
  point ho hK hifl := hK (ho hifl)

theorem fatalLogic_star {c c' : Cfg LockId (Kernel H)}
    (h : Relation.ReflTransGen fatalLogic.rely c c') :
    c'.data.globals.panicking = c.data.globals.panicking := by
  induction h with
  | refl => rfl
  | tail _ hr ih => exact hr.2.2.trans ih

/-- What a fatal event takes besides what it interrupted: with `PANICKING`
clear the printing locks and the initialisation of `WRITER`, with it set the
serial lock for an exception and none for a panic. -/
def FatalLock (panicking : Bool) (e : Fatal) (l : LockId) : Prop :=
  if panicking then e.gated = true ∧ l = .serial1 else TrapLock l

theorem FatalLock.trapLock {panicking : Bool} {e : Fatal} {l : LockId}
    (h : FatalLock panicking e l) : TrapLock l := by
  cases panicking with
  | false => exact h
  | true => exact .inr (.inr h.2)

/-- The handler of an event whose locks are free reaches its end. -/
theorem fatalHandler_wp (e : Fatal) {c : Cfg LockId (Kernel H)}
    (hpoint : fatalLogic.point c)
    (hfree : ∀ l, FatalLock c.data.globals.panicking e l → c.held l = false) :
    (onGlobals (fatalHandler pf e)).wp fatalLogic (fun _ _ => False) c := by
  obtain ⟨k, hk, hfirst, hagain⟩ := @fatalHandler_ends _ pf (fun _ => False)
    (fun _ => False) c.ifl e
  have hends : Ends (fun _ => False) (fun _ => False) c.ifl
      (FatalLock c.data.globals.panicking e) (k c.data.globals.panicking) := by
    cases c.data.globals.panicking with
    | false => exact hfirst
    | true => exact hagain
  rw [hk]
  -- Up to the swap, interference keeps what the swap reads.
  intro c' hstar
  have hlax := fatalLogic_lax (H := H) c.ifl
  obtain ⟨hheld, hifl⟩ := hlax.star hstar
  refine ⟨fun hopen => ?_, ?_⟩
  · rw [hheld]
    exact hpoint (hifl.symm.trans hopen)
  · show ((k c'.data.globals.panicking).zoom Kernel.globalsLens).wp _ _ _
    rw [fatalLogic_star hstar]
    refine Safe.wp hlax (fun hl hK hopen l hirq => ?_) (fun _ hT _ => hT) id
      (fun _ => trivial) ?_ ?_ (Safe.zoom _ (hends _ _ ?_ ?_))
    · rw [Function.update_of_ne ?_]
      · exact hK hopen l hirq
      · rintro rfl
        rcases hl.trapLock with rfl | rfl | rfl <;> rcases hirq with h | h <;> cases h
    · exact fun h => hifl.symm.trans h
    · intro hopen
      simp only [Cfg.update, hheld]
      exact hpoint hopen
    · exact fun h => hifl.symm.trans h
    · simpa only [Cfg.update, hheld] using hfree

/-- An interrupt over it. -/
theorem irq_over_wp {c : Cfg LockId (Kernel H)} (hifl : c.ifl = true)
    (hpoint : fatalLogic.point c) :
    (keyboardInterruptHandler : KernelCode H Unit).wp handlerLogic
      (fun _ c' => fatalLogic.rely c (c'.iret true)) c.closeIf := by
  have hkeeps : (keyboardInterruptHandler : KernelCode H Unit).Keeps Outcome.halt
      fun k => k.globals.panicking = c.data.globals.panicking := by
    refine Keeps.bind (Keeps.act (fun _ h => h) fun _ => Triple.ret fun _ h => h)
      fun scancode => ?_
    refine Keeps.bind (Triple.withLock (Triple.attempt fun k _ k' h hk => ?_)) fun _ =>
      Triple.withLock (Triple.modify fun _ h => h)
    obtain ⟨q, _, hq⟩ := Option.map_eq_some_iff.mp hk
    obtain ⟨_, rfl⟩ := Prod.mk.inj hq
    exact h
  refine wp_mono (fun _ c' hc' => ⟨hc'.1.1, hifl.symm, ?_⟩)
    (Tidy.wp_handler keyboardInterruptHandler_tidy rfl (hpoint hifl))
  exact hkeeps c.closeIf _ c' rfl hc'.2

/-! ## Every run -/

/-- The runs in which a fatal event never strikes where a lock its handler
takes is held. `WRITER` being built counts as held up to the point where it
is done, also for the boundary at which its value is there and only the lock
is still to be given back; the source has no such boundary. -/
def Unlocked (m : Machine H) : Label Fatal Unit → Prop
  | .tick => True
  | .irq _ => True
  | .fatal e => ∀ l, FatalLock m.cfg.data.globals.panicking e l → m.cfg.held l = false

def fatalProof (k₀ : Kernel H) : FatalProof (system pf) (IdleRun false) Unlocked where
  calm := loopProof pf (idle_loopInv pf false k₀)
  fatal := fatalLogic
  irq := handlerLogic
  calm_guard := by
    intro m l _ hl
    cases l with
    | tick => trivial
    | irq i => exact fun h => absurd h (by decide)
    | fatal e => exact absurd rfl (hl e)
  calm_point h hifl l _ := congrFun (loop_open_free pf h hifl) l
  total := fatalLogic_total
  irq_point {c} h := ⟨h, fun hifl => absurd (hifl.symm.trans h) (by decide)⟩
  irq_busy h := h
  irq_trap h := h
  irq_rest h := h
  fatal_ok := by
    intro m e hG hpoint
    unfold System.struck
    split
    · exact fatalHandler_wp pf e (fun hifl => Bool.noConfusion hifl) hG
    · exact fatalHandler_wp pf e hpoint hG
  irq_ok := irq_over_wp

section Runs

variable {buffer : Buffer} {crtc : Crtc} {heap : H} {mem : Paging.Mem}
  {port : List UInt8} {ls : List (Label Fatal Unit)} {m : Machine H}

/-- In every run in which no fatal event strikes where a lock it takes is
held, whatever else is delivered and however deep the events nest, nothing
spins once an event has struck, and its handler left alone ends in
`halt_loop`. -/
theorem fatal_events_halt
    (hrun : Run (system pf).step Unlocked
      (Machine.start pf (Kernel.start buffer crtc heap mem port)) ls m)
    {f : Frame LockId (Kernel H) Fatal} (hf : f ∈ m.frames) (hk : f.kind = .fatal) :
    ¬m.Blocked ∧ ∀ fs, m.frames = f :: fs →
      ∃ ls' m' f', Run (system pf).step Ticks m ls' m' ∧ m'.frames = f' :: fs ∧
        f'.kind = .fatal ∧ f'.code = .haltLoop := by
  have hcalm := loop_inv pf (idle_loopInv pf false _) (.nil : Run (system pf).step _
    (Machine.start pf (Kernel.start buffer crtc heap mem port)) _ _)
  have hinv := (fatalProof pf _).sound rfl hcalm hrun
  exact ⟨hinv.not_blocked hf hk, fun fs hfs => hinv.halts hfs hk⟩

end Runs

/-- A page fault, for runs. -/
def pageFault : Fatal := .exception (.pageFault 2 0x444444440000) 0x200000

/-- An invalid opcode. -/
def invalidOpcode : Fatal := .exception .invalidOpcode 0x200000

/-- Boot up to where exceptions find their handlers. -/
theorem smallStart_loads {G : Machine Nat → Label Fatal Unit → Prop} (hG : ∀ m, G m .tick) :
    ∃ ls g q pics port shadow rest, Run (system smallPlatform).step G (smallStart []) ls
        (idling ⟨g, q, pics, port, true⟩ false shadow false .boot
          ((onGlobals (serialPrintln (bytes "[boot] interrupcoes ativas"))).bind rest)) ∧
      g.panicking = false := by
  obtain ⟨ls, ⟨g, q, pics, port, loaded⟩, shadow, rest, hrun, hloaded, hpanicking⟩ :
      ∃ ls k shadow rest, Run (system smallPlatform).step G (smallStart []) ls
        (idling k false shadow false .boot
          ((onGlobals (serialPrintln (bytes "[boot] interrupcoes ativas"))).bind rest)) ∧
      k.idtLoaded = true ∧ k.globals.panicking = false := start_loads _ hG
  obtain rfl : loaded = true := hloaded
  exact ⟨ls, g, q, pics, port, shadow, rest, hrun, hpanicking⟩

/-- After a command, a page fault in the handler of the next key, and another
one right after it has set `PANICKING`: both find their locks free. -/
theorem fatal_events_halt_nested :
    ∃ ls m f f' g, Run (system smallPlatform).step Unlocked
        (smallStart [0x18, 0x17, 0x1C, 0x1E]) ls m ∧
      m.cfg.data.globals.executed = [bytes "oi"] ∧ m.frames = [f, f', g] ∧ f.kind = .fatal ∧
      f'.kind = .fatal ∧ g.kind = .irq ∧ ¬m.Blocked ∧
      ∃ ls' m' f'', Run (system smallPlatform).step Ticks m ls' m' ∧
        m'.frames = [f'', f', g] ∧ f''.code = .haltLoop := by
  obtain ⟨ls, globals, _, _, _, _, _, _, hwake, _, hran⟩ :=
    oi_wakes (G := Unlocked) ⟨fun _ => trivial, fun _ _ => trivial⟩
  obtain ⟨m, f, f', g, hrun, hexecuted, hframes, hf, hf', hg⟩ : ∃ m f f' g,
      Run (system smallPlatform).step Unlocked (smallStart [0x18, 0x17, 0x1C, 0x1E])
        (ls ++ [.fatal pageFault] ++ [.tick] ++ [.fatal pageFault]) m ∧
      m.cfg.data.globals.executed = globals.executed ∧
      m.frames = [f, f', g] ∧ f.kind = .fatal ∧ f'.kind = .fatal ∧ g.kind = .irq :=
    ⟨_, _, _, _, ((hwake.snoc (by intro l _; rfl) rfl).snoc (by trivial) rfl).snoc
      (by intro l _; rfl) rfl, rfl, rfl, rfl, rfl, rfl⟩
  obtain ⟨hfree, hhalts⟩ := fatal_events_halt smallPlatform hrun (by simp [hframes]) hf
  obtain ⟨ls', m', f'', hticks, hframes', _, hcode⟩ := hhalts _ hframes
  exact ⟨_, m, f, f', g, hrun, hexecuted.trans hran, hframes, hf, hf', hg, hfree, ls', m', f'',
    hticks, hframes', hcode⟩

/-! ## Where a handler spins -/

/-- The first event, struck while `WRITER` is being built: it is not built
yet, and what was building it will not go on. -/
theorem fatalException_spins {trap : Cfg LockId (Globals H) → Outcome LockId (Globals H) Fatal Unit}
    (x : Exception) (address : Nat) {g : Globals H} {held : LockId → Bool} {b : Bool}
    (hpanicking : g.panicking = false) (hready : g.writerReady = false)
    (hserial : held .serial1 = false) (honce : held .writerOnce = true) :
    (fatalException x address).Spins trap g held b .writerOnce := by
  refine Spins.after (Yields.act Yields.ret) ?_
  rw [hpanicking, if_neg Bool.false_ne_true]
  exact Spins.after (serialPrintln_yields _ hserial) <|
    Spins.after (serialPrintLines_yields _ hserial) <|
    Spins.after (serialPrintln_yields _ hserial) <|
    Spins.bind (withWriter_spins honce (by exact hready)) _

/-- The first use of `WRITER`, struck while it is being built. -/
theorem writer_built_spins :
    ∃ ls m f, Run (system smallPlatform).step (fun _ _ => True) (smallStart []) ls m ∧
      m.frames = [f] ∧ f.kind = .fatal ∧ m.wants = some .writerOnce ∧ m.Blocked := by
  obtain ⟨mi, hmi, _⟩ := smallPlatform_info
  obtain ⟨ls₁, ⟨globals, queue, pics, port, loaded⟩, shadow, rest, hinit, hloaded, hpanicking,
      hready⟩ : ∃ ls k shadow rest,
      Run (system smallPlatform).step (fun _ _ => True) (smallStart []) ls
        (idling k false shadow false .boot ((onGlobals clearScreen).bind rest)) ∧
      k.idtLoaded = true ∧ k.globals.panicking = false ∧ k.globals.writerReady = false :=
    start_inits _ (fun _ => trivial) hmi
  obtain rfl : loaded = true := hloaded
  obtain ⟨writer, writerReady, serial1, line, lshift, info, heap, mem, panicking, fed, executed⟩ :=
    globals
  obtain rfl : panicking = false := hpanicking
  obtain rfl : writerReady = false := hready
  obtain ⟨m, hstrike, hhalted, hframes, hpanicking, hready, hheld⟩ : ∃ m,
      Run (system smallPlatform).step (fun _ _ => True) (smallStart [])
        (ls₁ ++ [.tick] ++ [.tick] ++ [.fatal invalidOpcode]) m ∧ m.halted = false ∧
      m.frames = [⟨.fatal, false, onGlobals (fatalHandler smallPlatform invalidOpcode)⟩] ∧
      m.cfg.data.globals.panicking = false ∧ m.cfg.data.globals.writerReady = false ∧
      m.cfg.held = Function.update noLock .writerOnce true :=
    ⟨_, ((hinit.snoc trivial rfl).snoc trivial rfl).snoc trivial rfl, rfl, rfl, rfl, rfl, rfl⟩
  have hspins : (onGlobals (fatalHandler smallPlatform invalidOpcode)).Spins Outcome.halt
      m.cfg.data m.cfg.held m.cfg.ifl .writerOnce :=
    Spins.zoom _ (Outcome.halt_within _) <| fatalException_spins _ _ hpanicking hready
      (by rw [hheld]; rfl) (by rw [hheld]; rfl)
  obtain ⟨c, hrun⟩ := hspins m.cfg.shadow
  obtain ⟨q, hsteps, hwants, hheld'⟩ := steps_of_spin _ hrun
  obtain ⟨ls₂, hls⟩ := (system smallPlatform).run_frame (G := fun _ _ => True)
    (fun _ => trivial) hsteps hframes hhalted rfl rfl
  exact ⟨_, _, _, hstrike.trans hls, rfl, rfl, hwants, hhalted, .writerOnce, hwants, hheld'⟩

/-- The main flow holds `SERIAL1` for a line of its own, or is building
`WRITER`, where the first event strikes; and, with every lock free for the
first event, the second one strikes while the handler of the first holds
`SERIAL1`. Each of the handlers spins for ever. -/
theorem fatal_event_spins :
    (∃ ls m f, Run (system smallPlatform).step (fun _ _ => True) (smallStart []) ls m ∧
      m.frames = [f] ∧ f.kind = .fatal ∧ m.wants = some .serial1 ∧ m.Blocked) ∧
    (∃ ls m f g, Run (system smallPlatform).step (fun _ _ => True) (smallStart []) ls m ∧
      m.frames = [f, g] ∧ f.kind = .fatal ∧ g.kind = .fatal ∧ m.wants = some .serial1 ∧
      m.Blocked) ∧
    ∃ ls m f, Run (system smallPlatform).step (fun _ _ => True) (smallStart []) ls m ∧
      m.frames = [f] ∧ f.kind = .fatal ∧ m.wants = some .writerOnce ∧ m.Blocked := by
  obtain ⟨ls, ⟨writer, writerReady, serial1, line, lshift, info, heap, mem, panicking, fed,
    executed⟩, _, _, _, _, _, hload, hpanicking⟩ :=
      smallStart_loads (G := fun _ _ => True) fun _ => trivial
  obtain rfl : panicking = false := hpanicking
  refine ⟨?_, ?_, ?_⟩
  · exact ⟨ls ++ [.tick] ++ [.tick] ++ [.fatal pageFault] ++ [.tick] ++ [.tick], _, _,
      ((((hload.snoc trivial rfl).snoc trivial rfl).snoc trivial rfl).snoc trivial rfl).snoc
        trivial rfl, rfl, rfl, rfl, rfl, .serial1, rfl, rfl⟩
  · exact ⟨ls ++ [.fatal pageFault] ++ [.tick] ++ [.tick] ++ [.tick] ++ [.fatal pageFault] ++
      [.tick] ++ [.tick], _, _, _,
      ((((((hload.snoc trivial rfl).snoc trivial rfl).snoc trivial rfl).snoc trivial rfl).snoc
        trivial rfl).snoc trivial rfl).snoc trivial rfl,
      rfl, rfl, rfl, rfl, rfl, .serial1, rfl, rfl⟩
  · exact writer_built_spins

end ProtoOs.Ref
