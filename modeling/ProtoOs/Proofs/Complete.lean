import ProtoOs.Lib.Undisturbed
import ProtoOs.Proofs.Handlers

/-!
# A fatal report gets out

What a fatal handler says, in full: the first event its lines on the serial
port and its report on the screen, a later exception one line on the serial
port, a later panic nothing. If the locks the handler takes are free where
its event strikes, all of it gets out before the CPU stops, whatever was
interrupted and however many keys are pressed meanwhile; nothing else of the
kernel's state changes.

Left alone, the handler does this by evaluation (`fatalHandler_told`). The
keyboard's handler leaves the globals alone, so it does the same between
interrupts (`Prog.wp_undisturbed`).
-/

namespace ProtoOs.Ref

open ProtoOs.Lib ProtoOs.Lib.Prog

variable {H : Type} (pf : Platform H)

/-! ## What the handlers say -/

/-- The lines the first event sends to the serial port. -/
def fatalLog : Fatal → List (List UInt8)
  | .panic message => [bytes "[PANIC] " ++ pf.panicInfo message]
  | .exception x address =>
      (bytes "[EXCEPTION] " ++ x.name ++ bytes " (" ++ x.mnemonic ++ bytes ")") ::
        (x.details address ++ [version])

/-- Those of an event that finds `PANICKING` set. -/
def reentrantLog : Fatal → List (List UInt8)
  | .panic _ => []
  | .exception x _ =>
      [bytes "[EXCEPTION] " ++ x.name ++ bytes " (" ++ x.mnemonic ++ bytes ") reentrante — " ++
        version ++ bytes " parou"]

/-- The handler of `e` has said what it has to say, from globals `g` to
globals `g'`, and done nothing else. -/
structure Told (e : Fatal) (g g' : Globals H) : Prop where
  panicking : g'.panicking = true
  untouched : Untouched g g'
  first : g.panicking = false →
    g'.serial1 = g.serial1 ++ inLines (fatalLog pf e) ∧
      g.writer.writeString (report pf e) = some g'.writer
  again : g.panicking = true →
    g'.serial1 = g.serial1 ++ inLines (reentrantLog e) ∧ g'.writer = g.writer

section Yields

variable {trap : Cfg LockId (Globals H) → Outcome LockId (Globals H) Fatal Unit}
  {h : LockId → Bool} {b : Bool}

theorem writeString_append {w w₁ w₂ : Writer} {s s' : List UInt8}
    (h₁ : w.writeString s = some w₁) (h₂ : w₁.writeString s' = some w₂) :
    w.writeString (s ++ s') = some w₂ := by
  unfold Writer.writeString at h₁ h₂ ⊢
  rw [List.foldlM_append, h₁]
  exact h₂

theorem writeLines_yields (texts : List (List UInt8)) :
    ∀ {g : Globals H} {w : Writer},
      g.writer.writeString (inLines texts) = some w →
      (writeLines texts).Yields trap g h b () { g with writer := w } := by
  induction texts with
  | nil =>
      intro g w hw
      obtain rfl := Option.some.inj hw
      exact Yields.ret
  | cons text texts ih =>
      intro g w hw
      obtain ⟨w₁, hw₁⟩ := g.writer.writeString_total (text ++ bytes "\n")
      obtain ⟨w₂, hw₂⟩ := w₁.writeString_total (inLines texts)
      have hboth := writeString_append hw₁ hw₂
      rw [inLines, List.flatMap_cons] at hw
      obtain rfl := Option.some.inj (hw.symm.trans hboth)
      exact Yields.bind (writeText_yields _ hw₁) (ih hw₂)

end Yields

/-! ## Left alone -/

section Screen

variable {trap : Cfg LockId (Globals H) → Outcome LockId (Globals H) Fatal Unit}
  {h : LockId → Bool} {b : Bool} {g : Globals H} {w₁ w₂ : Writer}

/-- What a panic says on the screen. -/
theorem panicScreen_yields {s s' : List UInt8} (hh : WriterFree h)
    (h₁ : g.writer.writeString s = some w₁) (h₂ : w₁.writeString s' = some w₂) :
    (withWriter ((writeText s).bind fun _ => writeText s') : Code H Unit).Yields trap g h b
      () { g with writer := w₂, writerReady := true } :=
  withWriter_yields hh (Yields.bind (writeText_yields s (g := { g with writerReady := true }) h₁)
    (writeText_yields s' h₂))

/-- What an exception says there. -/
theorem exceptionScreen_yields {s : List UInt8} {texts : List (List UInt8)}
    (hh : WriterFree h) (h₁ : g.writer.writeString s = some w₁)
    (h₂ : w₁.writeString (inLines texts) = some w₂) :
    (withWriter ((writeText s).bind fun _ => writeLines texts) : Code H Unit).Yields trap
      g h b () { g with writer := w₂, writerReady := true } :=
  withWriter_yields hh (Yields.bind (writeText_yields s (g := { g with writerReady := true }) h₁)
    (writeLines_yields texts h₂))

end Screen

section Told

variable {e : Fatal} {g : Globals H} {w : Writer}

theorem told_first (hclear : g.panicking = false)
    (hw : g.writer.writeString (report pf e) = some w) :
    Told pf e g { g with
      panicking := true, serial1 := g.serial1 ++ inLines (fatalLog pf e), writer := w,
      writerReady := true } where
  panicking := rfl
  untouched := rfl
  first _ := ⟨rfl, hw⟩
  again hset := absurd (hclear.symm.trans hset) (by decide)

theorem told_again (hset : g.panicking = true) :
    Told pf e g { g with panicking := true, serial1 := g.serial1 ++ inLines (reentrantLog e) } where
  panicking := rfl
  untouched := rfl
  first hclear := absurd (hclear.symm.trans hset) (by decide)
  again _ := ⟨rfl, rfl⟩

theorem fatalHandler_told (e : Fatal) {c : Cfg LockId (Globals H)}
    (hfree : ∀ l, FatalLock c.data.panicking e l → c.held l = false) :
    ((fatalHandler pf e).run Outcome.halt c).Meets (fun _ _ => False) (Told pf e c.data) := by
  have henter : (enterFatalHandler : Code H Bool).Yields Outcome.halt c.data c.held c.ifl
      c.data.panicking { c.data with panicking := true } := Yields.act Yields.ret
  have hstop : ∀ (d : Cfg LockId (Globals H)) {g : Globals H}, d.data = g → Told pf e c.data g →
      ((haltLoop : Code H Unit).run Outcome.halt d).Meets (fun _ _ => False)
        (Told pf e c.data) := by
    rintro d _ rfl hg
    exact hg
  cases hpan : c.data.panicking with
  | true =>
      rw [hpan] at henter hfree
      cases e with
      | panic message =>
          refine henter.meets (fun d hd _ _ => ?_) rfl rfl rfl
          have htold := told_again pf (e := .panic message) hpan
          simp only [reentrantLog, inLines, List.flatMap_nil, List.append_nil] at htold
          exact hstop d hd htold
      | exception x address =>
          have hserial : c.held .serial1 = false := hfree _ ⟨rfl, rfl⟩
          refine henter.meets (fun d hd hh hb => ?_) rfl rfl rfl
          refine (serialPrintln_yields _ hserial).meets (fun d hd _ _ => ?_) hd hh hb
          have htold := told_again pf (e := .exception x address) hpan
          simp only [reentrantLog, inLines, List.flatMap_cons, List.flatMap_nil,
            List.append_nil] at htold
          exact hstop d hd htold
  | false =>
      rw [hpan] at henter hfree
      have hserial : c.held .serial1 = false := hfree _ (.inr (.inr rfl))
      have hwriter : WriterFree c.held := ⟨hfree _ (.inr (.inl rfl)), hfree _ (.inl rfl)⟩
      cases e with
      | panic message =>
          obtain ⟨w₁, hw₁⟩ := c.data.writer.writeString_total
            (bytes "\n[PANIC] " ++ version ++ bytes " parou: ")
          obtain ⟨w₂, hw₂⟩ := w₁.writeString_total (pf.panicInfo message)
          refine henter.meets (fun d hd hh hb => ?_) rfl rfl rfl
          refine (serialPrintln_yields _ hserial).meets (fun d hd hh hb => ?_) hd hh hb
          have hreport := writeString_append hw₁ hw₂
          rw [show c.data.writer = d.data.writer by rw [hd]] at hw₁
          refine (panicScreen_yields hwriter hw₁ hw₂).meets (fun d' hd' _ _ => ?_) rfl hh hb
          rw [hd] at hd'
          have htold := told_first pf (e := .panic message) hpan hreport
          simp only [fatalLog, inLines, List.flatMap_cons, List.flatMap_nil,
            List.append_nil] at htold
          exact hstop d' hd' htold
      | exception x address =>
          obtain ⟨w₁, hw₁⟩ := c.data.writer.writeString_total
            (bytes "\n[EXCEPTION] " ++ x.name ++ bytes " (" ++ x.mnemonic ++ bytes ") - " ++
              version ++ bytes " parou\n")
          obtain ⟨w₂, hw₂⟩ := w₁.writeString_total (inLines (x.details address))
          refine henter.meets (fun d hd hh hb => ?_) rfl rfl rfl
          refine (serialPrintln_yields _ hserial).meets (fun d hd hh hb => ?_) hd hh hb
          refine (serialPrintLines_yields _ hserial).meets (fun d hd hh hb => ?_) hd hh hb
          refine (serialPrintln_yields _ hserial).meets (fun d hd hh hb => ?_) hd hh hb
          have hreport := writeString_append hw₁ hw₂
          rw [show c.data.writer = d.data.writer by rw [hd]] at hw₁
          refine (exceptionScreen_yields hwriter hw₁ hw₂).meets (fun d' hd' _ _ => ?_) rfl hh hb
          rw [hd] at hd'
          have htold := told_first pf (e := .exception x address) hpan hreport
          have hlog : inLines (fatalLog pf (.exception x address)) =
              (bytes "[EXCEPTION] " ++ x.name ++ bytes " (" ++ x.mnemonic ++ bytes ")" ++
                bytes "\n") ++ (inLines (x.details address) ++ (version ++ bytes "\n")) := by
            simp only [fatalLog, inLines, List.flatMap_cons, List.flatMap_append,
              List.flatMap_nil, List.append_nil]
          rw [hlog, ← List.append_assoc, ← List.append_assoc] at htold
          exact hstop d' hd' htold

end Told

/-! ## Between interrupts -/

/-- The logic of a handler nothing else strikes: interrupts leave the globals
alone, and where it stops it has said everything. -/
def toldLogic (e : Fatal) (g : Globals H) : Logic LockId (Kernel H) Fatal where
  rely c c' := c'.held = c.held ∧ c'.ifl = c.ifl ∧ c'.data.globals = c.data.globals
  wake _ _ := False
  point c := c.ifl = true → ∀ l, IrqLock l → c.held l = false
  rest _ := False
  busy _ _ := False
  trap _ _ := False
  fault _ _ := False
  stop c := Told pf e g c.data.globals
  trap_mono _ h := h

theorem toldLogic_undisturbed (e : Fatal) (g : Globals H) :
    fatalLogic.Undisturbed Kernel.globalsLens (toldLogic pf e g) (Told pf e g) where
  rely hr := ⟨⟨hr.1, hr.2.1, congrArg Globals.panicking hr.2.2⟩, hr.1, hr.2.1, hr.2.2⟩
  point hpoint := hpoint
  stop _ htold := htold

/-- An interrupt leaves the globals alone. -/
theorem irq_undisturbed_wp {e : Fatal} {g : Globals H} {c : Cfg LockId (Kernel H)}
    (hifl : c.ifl = true) (hpoint : (toldLogic pf e g).point c) :
    (keyboardInterruptHandler : KernelCode H Unit).wp handlerLogic
      (fun _ c' => (toldLogic pf e g).rely c (c'.iret true)) c.closeIf := by
  have hkeeps : (keyboardInterruptHandler : KernelCode H Unit).Keeps Outcome.halt
      fun k => k.globals = c.data.globals := by
    refine Keeps.bind (Keeps.act (fun _ h => h) fun _ => Triple.ret fun _ h => h)
      fun scancode => ?_
    refine Keeps.bind (Triple.withLock (Triple.attempt fun k _ k' h hk => ?_)) fun _ =>
      Triple.withLock (Triple.modify fun _ h => h)
    obtain ⟨q, _, hq⟩ := Option.map_eq_some_iff.mp hk
    obtain ⟨_, rfl⟩ := Prod.mk.inj hq
    exact h
  refine wp_mono (fun _ c' hc' => ⟨hc'.1.1, hifl.symm, ?_⟩)
    (Tidy.wp_handler keyboardInterruptHandler_tidy rfl (hpoint hifl))
  exact hkeeps c.closeIf _ c' rfl hc'.2

theorem toldLogic_total (e : Fatal) (g : Globals H) : (toldLogic pf e g).Total where
  busy h := h
  fault h := h
  trap h := h
  rest h := h

/-- Once its event has struck. -/
def toldProof (k₀ : Kernel H) (e : Fatal) (g : Globals H) :
    FatalProof (system pf) (IdleRun false) (IdleRun false) :=
  (fatalProof pf k₀).undisturbed (toldLogic_undisturbed pf e g) (toldLogic_total pf e g)
    (fun _ _ => id) (irq_undisturbed_wp pf)

section Runs

variable {buffer : Buffer} {crtc : Crtc} {heap : H} {mem : Paging.Mem}
  {port : List UInt8} {ls ls' : List (Label Fatal Unit)} {e : Fatal} {m₁ m₂ m : Machine H}

/-- Where the handler of an event starts, it will say everything. -/
theorem struck_told
    (hrun : Run (system pf).step Unlocked
      (Machine.start pf (Kernel.start buffer crtc heap mem port)) ls m₁)
    (hfree : ∀ l, FatalLock m₁.cfg.data.globals.panicking e l → m₁.cfg.held l = false)
    (hstrike : (system pf).step m₁ (.fatal e) = some m₂) :
    (toldProof pf (Kernel.start buffer crtc heap mem port) e m₁.cfg.data.globals).Inv m₂ ∧
      ∃ f, m₂.frames = f :: m₁.frames ∧ f.kind = .fatal := by
  have hcalm := loop_inv pf (idle_loopInv pf false _) (.nil : Run (system pf).step _
    (Machine.start pf (Kernel.start buffer crtc heap mem port)) _ _)
  have hpoint := ((fatalProof pf _).sound rfl hcalm hrun).point
  have hwp := (fatalProof pf (Kernel.start buffer crtc heap mem port)).fatal_ok hfree hpoint
  have htold : ((fatalHandler pf e).run Outcome.halt
      (((system pf).struck m₁ e).view Kernel.globalsLens)).Meets (fun _ _ => False)
        (Told pf e m₁.cfg.data.globals) := by
    unfold System.struck
    split
    · exact fatalHandler_told pf e (c := m₁.cfg.closeIf.view Kernel.globalsLens) hfree
    · exact fatalHandler_told pf e (c := m₁.cfg.next.view Kernel.globalsLens) hfree
  have hstart : (onGlobals (fatalHandler pf e)).wp (toldLogic pf e m₁.cfg.data.globals)
      (fun _ _ => False) ((system pf).struck m₁ e) :=
    wp_mono (fun _ _ h => h.1)
      (wp_undisturbed (toldLogic_undisturbed pf e _) fatalLogic_total _ hwp htold)
  rcases System.step_cases hstrike with ⟨hl, _⟩ | ⟨i, hl, _⟩ | ⟨e', hl, _, rfl⟩
  · cases hl
  · cases hl
  · obtain rfl := Label.fatal.inj hl
    exact ⟨.top rfl rfl rfl hstart, _, rfl, rfl⟩

end Runs

end ProtoOs.Ref
