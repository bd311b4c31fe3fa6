import ProtoOs.Lib.Once
import ProtoOs.Proofs.Fatal

/-!
# One report on the screen

`PANICKING` is the flag of `Lib.Once`, the screen is what it keeps the fatal
handlers from writing over each other, and the event that gets to report is
the one whose swap finds it clear. That need not be the event that struck
first: between the entry of a handler and its first instruction another
event may strike, and then that one reports.
-/

namespace ProtoOs.Ref

open ProtoOs.Lib ProtoOs.Lib.Prog

variable {H : Type} (pf : Platform H)

/-- What an event has to say on the screen. -/
def report : Fatal → List UInt8
  | .panic message => bytes "\n[PANIC] " ++ version ++ bytes " parou: " ++ pf.panicInfo message
  | .exception x address =>
      bytes "\n[EXCEPTION] " ++ x.name ++ bytes " (" ++ x.mnemonic ++ bytes ") - " ++ version ++
        bytes " parou\n" ++ (x.details address).flatMap (· ++ bytes "\n")

/-- `PANICKING`, `WRITER` and the accesses a character is written by. -/
def screen : Stage LockId (Globals H) Writer UInt8 Access where
  flag g := g.panicking
  view g := g.writer
  guard := .writer
  pieces w byte := w.writeByteAccesses (Writer.shownByte byte)
  perform := Access.perform

/-! ## What the handlers do -/

section Follows

variable {γ : Type} {R : γ → Globals H → Globals H → γ → Prop} {A : LockId → Prop}
  {Q : Unit → γ → Prop} {x : γ}

/-- A line on the serial port, for any protocol that does not mind it. -/
theorem serialPrintln_follows (text : List UInt8) (hA : A .serial1)
    (hR : ∀ g serial1, R x g { g with serial1 := serial1 } x) (hQ : Q () x) :
    (serialPrintln text : Code H Unit).Follows R A Q x := by
  have hsend : ∀ text, (sendText text : Code H Unit).Follows R A Q x := by
    intro text
    induction text with
    | nil => exact hQ
    | cons b bs ih =>
        exact Follows.then (Follows.modify (fun g => hR g _) rfl) fun _ => ih
  exact Follows.withoutInterrupts (Follows.withLock hA (hsend _))

theorem serialPrintLines_follows (texts : List (List UInt8)) (hA : A .serial1)
    (hR : ∀ g serial1, R x g { g with serial1 := serial1 } x) (hQ : Q () x) :
    (serialPrintLines texts : Code H Unit).Follows R A Q x := by
  induction texts with
  | nil => exact hQ
  | cons text texts ih =>
      exact Follows.then (serialPrintln_follows text hA hR rfl) fun _ => ih

end Follows

section Tells

variable {A : LockId → Prop}

/-- The accesses of one character. -/
theorem performAll_tells {as : List Access} (has : ∀ a ∈ as, a.InRange) (items : List UInt8) :
    (performAll as : Code H Unit).Follows screen.tells A (fun _ left => left = ⟨[], items⟩)
      ⟨as, items⟩ := by
  induction as with
  | nil => exact rfl
  | cons a as ih =>
      refine Follows.then (Follows.attempt (y := ⟨as, items⟩) (fun g _ g' hg => ?_) fun g hg => ?_)
        fun _ => ih fun a' ha' => has a' (List.mem_cons_of_mem _ ha')
      · obtain ⟨w, hw, hpair⟩ := Option.map_eq_some_iff.mp hg
        obtain ⟨_, rfl⟩ := Prod.mk.inj hpair
        exact ⟨⟨rfl, .piece hw⟩, rfl⟩
      · obtain ⟨w, hw⟩ := Access.perform_total (has a List.mem_cons_self) g.writer
        rw [hw] at hg
        cases hg

/-- A text on the screen, of which the code has `items` to write after it. -/
theorem writeText_tells (text items : List UInt8) :
    (writeText text : Code H Unit).Follows screen.tells A (fun _ left => left = ⟨[], items⟩)
      ⟨[], text ++ items⟩ := by
  induction text with
  | nil => exact rfl
  | cons b bs ih =>
      refine Follows.then (y := ⟨[], bs ++ items⟩) (fun g => ?_) fun _ => ih
      exact ⟨_, ⟨rfl, .begin rfl⟩, performAll_tells (Writer.writeByteAccesses_inRange _ _) _⟩

theorem writeLines_tells (texts : List (List UInt8)) (items : List UInt8) :
    (writeLines texts : Code H Unit).Follows screen.tells A (fun _ left => left = ⟨[], items⟩)
      ⟨[], texts.flatMap (· ++ bytes "\n") ++ items⟩ := by
  induction texts with
  | nil => exact rfl
  | cons text texts ih =>
      rw [List.flatMap_cons, List.append_assoc (text ++ bytes "\n")]
      exact Follows.then (writeText_tells _ _) fun _ => ih

/-- Under the guard of `WRITER`, which may have to be built. -/
theorem withWriter_tells {left : Left UInt8 Access} {Q : Unit → Left UInt8 Access → Prop}
    {p : Code H Unit} (hp : p.Follows screen.tells (fun _ => True) Q left) :
    (withWriter p).Follows screen.tells (fun _ => True) Q left :=
  Follows.then (Follows.callOnce trivial (fun _ => ⟨rfl, .nothing rfl⟩)
    (fun _ => ⟨rfl, .nothing rfl⟩) rfl) fun _ => Follows.withLock trivial hp

end Tells

theorem tells_serial (left : Left UInt8 Access) (g : Globals H) (serial1 : List UInt8) :
    screen.tells left g { g with serial1 := serial1 } left :=
  ⟨rfl, .nothing rfl⟩

theorem serialPrintln_tells (text : List UInt8) (left : Left UInt8 Access) :
    (serialPrintln text : Code H Unit).Follows screen.tells (fun _ => True)
      (fun _ left' => left' = left) left :=
  serialPrintln_follows text trivial (tells_serial left) rfl

/-- The first event's handler writes its report; one that comes later keeps
away from the screen. -/
theorem fatalHandler_once (e : Fatal) :
    ∃ k : Bool → Code H Unit, fatalHandler pf e = enterFatalHandler.bind k ∧
      screen.Telling ⟨[], report pf e⟩ (k false) ∧ screen.Silent (k true) := by
  cases e with
  | panic message =>
      refine ⟨_, rfl, ?_, trivial⟩
      refine Follows.then (serialPrintln_tells _ _) fun _ => ?_
      refine Follows.then (y := ⟨[], []⟩) (withWriter_tells ?_) fun _ => trivial
      refine Follows.then (y := ⟨[], pf.panicInfo message⟩) (writeText_tells _ _) fun _ => ?_
      have hinfo := @writeText_tells H (fun _ => True) (pf.panicInfo message) []
      rw [List.append_nil] at hinfo
      exact hinfo
  | exception x address =>
      refine ⟨_, rfl, ?_, ?_⟩
      · refine Follows.then (serialPrintln_tells _ _) fun _ => ?_
        refine Follows.then (serialPrintLines_follows _ trivial (tells_serial _) rfl) fun _ => ?_
        refine Follows.then (serialPrintln_tells _ _) fun _ => ?_
        refine Follows.then (y := ⟨[], []⟩) (withWriter_tells ?_) fun _ => trivial
        refine Follows.then (writeText_tells _ _) fun _ => ?_
        have hdetails := @writeLines_tells H (fun _ => True) (x.details address) []
        rw [List.append_nil] at hdetails
        exact hdetails
      · refine Follows.then (y := ()) (serialPrintln_follows _ ?_ (fun _ _ => ⟨rfl, rfl⟩) rfl)
          fun _ => trivial
        show LockId.serial1 ≠ LockId.writer
        decide

theorem keyboardInterruptHandler_silent :
    (screen.within Kernel.globalsLens).Silent (keyboardInterruptHandler : KernelCode H Unit) := by
  have hport : (readPort : KernelCode H UInt8).Follows
      (screen.within Kernel.globalsLens).quiet (· ≠ LockId.writer) (fun _ x => x = ()) () :=
    fun k => ⟨(), ⟨rfl, rfl⟩, rfl⟩
  refine Follows.then hport fun scancode => ?_
  refine Follows.then (y := ()) (Follows.withLock (show LockId.scancodeQueue ≠ .writer by decide)
    (Follows.attempt (y := ()) (fun k _ k' hk => ?_) fun k _ => ⟨rfl, rfl⟩)) fun _ => ?_
  · obtain ⟨queue, _, hpair⟩ := Option.map_eq_some_iff.mp hk
    obtain ⟨_, rfl⟩ := Prod.mk.inj hpair
    exact ⟨⟨rfl, rfl⟩, rfl⟩
  · exact Follows.withLock (show LockId.pics ≠ .writer by decide)
      (Follows.modify (y := ()) (fun _ => ⟨rfl, rfl⟩) trivial)

/-- The kernel's fatal handlers are told apart by `PANICKING`. -/
theorem system_once :
    Once (system pf) (screen.within Kernel.globalsLens) (report pf) where
  irq _ := keyboardInterruptHandler_silent
  fatal e := by
    obtain ⟨k, hk, hfirst, hagain⟩ := fatalHandler_once pf e
    refine ⟨fun s => { s with globals := { s.globals with panicking := true } },
      fun s => onGlobals (k s.globals.panicking), ?_, fun s => ⟨rfl, rfl, ?_, ?_⟩⟩
    · show onGlobals (fatalHandler pf e) = _
      rw [hk]
      rfl
    · intro hset
      simp only [show s.globals.panicking = true from hset]
      exact hagain.zoom _
    · intro hclear
      simp only [show s.globals.panicking = false from hclear]
      exact hfirst.zoom _

/-! ## The way to the screen -/

section Steps

variable {g : Globals H} {h : LockId → Bool} {b : Bool}

/-- The screen's part of a report. -/
def screenPart (x : Exception) (address : Nat) : Code H Unit :=
  (writeText (bytes "\n[EXCEPTION] " ++ x.name ++ bytes " (" ++ x.mnemonic ++ bytes ") - " ++
    version ++ bytes " parou\n")).bind fun _ => writeLines (x.details address)

theorem withWriter_steps {α β : Type} {p : Code H α} {k : α → Code H β}
    (honce : h .writerOnce = false) (shadow : Bool) :
    ∃ shadow', Steps ((withWriter p).bind k) ⟨g, h, b, shadow⟩ ((withLock .writer p).bind k)
      ⟨{ g with writerReady := true }, h, b, shadow'⟩ := by
  obtain ⟨shadow', hsteps⟩ := steps_of_yields (writerOnce_yields honce) shadow fun _ =>
    withLock .writer p
  exact ⟨shadow', hsteps.bind k⟩

/-- The first event's handler comes to the lock of the screen. -/
theorem fatalException_to_screen (x : Exception) (address : Nat) (hpanicking : g.panicking = false)
    (hserial : h .serial1 = false) (honce : h .writerOnce = false) :
    ∃ g', (∀ shadow, ∃ shadow', Steps (fatalException x address) ⟨g, h, b, shadow⟩
        ((withLock .writer (screenPart x address)).bind fun _ => haltLoop)
        ⟨g', h, b, shadow'⟩) ∧ g'.writer = g.writer := by
  have hswap : (enterFatalHandler : Code H Bool).Yields Outcome.halt g h b false
      { g with panicking := true } := by
    have := (Yields.act Yields.ret : (enterFatalHandler : Code H Bool).Yields Outcome.halt g h b
      g.panicking { g with panicking := true })
    rwa [hpanicking] at this
  exact ⟨_, steps_after hswap <| steps_after (serialPrintln_yields _ hserial) <|
      steps_after (serialPrintLines_yields _ hserial) <|
      steps_after (serialPrintln_yields _ hserial) (withWriter_steps honce), rfl⟩

/-- Under the lock, what begins with a text. -/
theorem withLock_writes {text : List UInt8} {w : Writer} {k k' : Unit → Code H Unit}
    (hfree : h .writer = false) (hw : g.writer.writeString text = some w) (shadow : Bool) :
    ∃ q shadow', Steps ((withLock .writer ((writeText text).bind k)).bind k')
      ⟨g, h, b, shadow⟩ q
      ⟨{ g with writer := w }, Function.update h .writer true, b, shadow'⟩ := by
  have hlock : Steps ((withLock .writer ((writeText text).bind k)).bind k')
      ⟨g, h, b, shadow⟩
      ((((writeText text).bind k).bind fun a => unlock .writer (ret a)).bind k')
      ⟨g, Function.update h .writer true, b, false⟩ :=
    .head (if_neg (by simpa using hfree)) .refl
  rw [bind_bind, bind_bind] at hlock
  obtain ⟨shadow', hsteps⟩ := steps_of_yields (writeText_yields text hw) false _
  exact ⟨_, shadow', hlock.trans hsteps⟩

/-- And on from there, until some of the header is on the screen. -/
theorem fatalException_writes (x : Exception) (address : Nat) (hpanicking : g.panicking = false)
    (hserial : h .serial1 = false) (hwriter : WriterFree h) {w : Writer}
    (hw : g.writer.writeString (bytes "\n[EXCEPTION] ") = some w) (shadow : Bool) :
    ∃ q d, Steps (fatalException x address) ⟨g, h, b, shadow⟩ q d ∧ d.data.writer = w ∧
      d.held = Function.update h .writer true := by
  obtain ⟨g₁, hcomes, hsame⟩ := fatalException_to_screen (b := b) x address hpanicking hserial
    hwriter.1
  obtain ⟨shadow₁, h₁⟩ := hcomes shadow
  have hsplit : screenPart (H := H) x address = (writeText (bytes "\n[EXCEPTION] ")).bind fun _ =>
      (writeText (x.name ++ bytes " (" ++ x.mnemonic ++ bytes ") - " ++ version ++
        bytes " parou\n")).bind fun _ => writeLines (x.details address) := by
    simp only [screenPart, List.append_assoc, writeText_append, bind_bind]
  rw [hsplit] at h₁
  rw [← hsame] at hw
  obtain ⟨q, shadow₂, h₂⟩ := withLock_writes hwriter.2 hw shadow₁
  exact ⟨q, _, h₁.trans h₂, rfl, rfl⟩

end Steps

/-- An exception, once the IDT is loaded. -/
theorem step_exception {m : Machine H} (x : Exception) (address : Nat) (hh : m.halted = false)
    (hloaded : m.cfg.data.idtLoaded = true) :
    (system pf).step m (.fatal (.exception x address)) =
      some (m.enter .fatal true (onGlobals (fatalException x address))) :=
  if_pos ⟨hh, by simp [system, hloaded]⟩

/-- The steps of a handler, as a run. -/
theorem run_handler {G : Machine H → Label Fatal Unit → Prop} (hG : ∀ m, G m .tick)
    {m : Machine H} {p q : Code H Unit} {d : Cfg LockId (Globals H)} {kind : FrameKind}
    {saved : Bool} {fs : List (Frame LockId (Kernel H) Fatal)}
    (hf : m.frames = ⟨kind, saved, onGlobals p⟩ :: fs) (hh : m.halted = false)
    (h : Steps p (m.cfg.view Kernel.globalsLens) q d) :
    ∃ ls, Run (system pf).step G m ls
      { m with
        frames := ⟨kind, saved, onGlobals q⟩ :: fs
        cfg := d.within Kernel.globalsLens m.cfg.data } := by
  have hzoom := h.zoom Kernel.globalsLens m.cfg.data
  rw [Cfg.view_within] at hzoom
  exact (system pf).run_frame hG hzoom hf hh rfl rfl

/-! ## Every run -/

section Runs

variable {buffer : Buffer} {crtc : Crtc} {heap : H} {mem : Paging.Mem}
  {port : List UInt8} {ls : List (Label Fatal Unit)} {m : Machine H}

/-- In the run, the handler of `e` over the frames `below` comes to its swap
and finds `PANICKING` clear. -/
def SwapsFirst (m₀ : Machine H) (ls : List (Label Fatal Unit))
    (below : List (Frame LockId (Kernel H) Fatal)) (e : Fatal) : Prop :=
  ∃ a b saved, Takes (system pf).step (fun _ _ => True) m₀ ls a .tick b ∧
    a.frames = ⟨.fatal, saved, onGlobals (fatalHandler pf e)⟩ :: below ∧
    a.cfg.data.globals.panicking = false

/-- At most one fatal report reaches the screen. In every run from boot that
a fatal event has struck, however many do and wherever they strike each
other's handlers: the only handler that ever takes `WRITER` or changes the
screen is one whose swap found `PANICKING` clear, and no swap of another one
does; the screen is what it was when the first event struck and a start of
that handler's report, of whose next character only some accesses may have
been made; and what a fatal event interrupted never goes on. -/
theorem one_fatal_report {m₀ : Machine H}
    (hboot : m₀ = Machine.start pf (Kernel.start buffer crtc heap mem port))
    (hrun : Run (system pf).step (fun _ _ => True) m₀ ls m) {e' : Fatal} (he' : .fatal e' ∈ ls) :
    ∃ ls₀ e₀ ls₁ m₁ below e said w part,
      ls = ls₀ ++ .fatal e₀ :: ls₁ ∧ (∀ e, .fatal e ∉ ls₀) ∧
      Run (system pf).step (fun _ _ => True) m₀ ls₀ m₁ ∧
      (∀ a b f below', Takes (system pf).step (fun _ _ => True) m₀ ls a .tick b →
        a.frames = f :: below' → f.kind = .fatal →
        a.wants = some .writer ∨ b.cfg.data.globals.writer ≠ a.cfg.data.globals.writer →
        below' = below ∧ SwapsFirst pf m₀ ls below e) ∧
      (∀ below' e', SwapsFirst pf m₀ ls below' e' → below' = below) ∧
      (said <+: report pf e ∧ m₁.cfg.data.globals.writer.writeString said = some w ∧
        (part = [] ∨ ∃ b, said ++ [b] <+: report pf e ∧
          part <+: w.writeByteAccesses (Writer.shownByte b)) ∧
        w.perform part = some m.cfg.data.globals.writer) ∧
      (said ≠ [] ∨ part ≠ [] → SwapsFirst pf m₀ ls below e) ∧
      ∀ a ls' above f fs, Run (system pf).step (fun _ _ => True) a ls' m →
        a.frames = above ++ f :: fs → f.kind = .fatal →
        m.pc = a.pc ∧ m.code = a.code ∧
          ∃ above' f', m.frames = above' ++ f' :: fs ∧ f'.kind = .fatal := by
  have h₀ : m₀.frames = [] := by
    rw [hboot]
    rfl
  obtain ⟨ls₀, e₀, ls₁, m₁, below, e, said, w, part, hls, hcalm, hrun₁, honly,
      ⟨hsaid, hwritten, hpart, hdone⟩, hwho⟩ := Stage.one_winner (system_once pf) h₀ hrun he'
  have hswap : (∃ a b, Takes (system pf).step (fun _ _ => True) m₀ ls a .tick b ∧
      (screen.within Kernel.globalsLens).Wins (system pf) a below e) →
      SwapsFirst pf m₀ ls below e := by
    rintro ⟨a, b, htakes, saved, hframes, hclear⟩
    exact ⟨a, b, saved, htakes, hframes, hclear⟩
  have hput : (screen.within Kernel.globalsLens : Stage LockId (Kernel H) _ _ _).put =
      fun w byte => w.writeByte (Writer.shownByte byte) :=
    funext fun w => funext fun byte => w.perform_writeByte _
  rw [hput] at hwritten
  refine ⟨ls₀, e₀, ls₁, m₁, below, e, said, w, part, hls, hcalm, hrun₁, ?_, ?_,
    ⟨hsaid, hwritten, hpart, hdone⟩, fun hne => hswap (hwho hne),
    fun a ls' above f fs hrun' hf hk => hrun'.fatal_stays hf hk⟩
  · intro a b f below' htakes hf hk htouch
    obtain ⟨rfl, hwon⟩ := honly a b below' htakes (.inr ⟨f, hf, hk, htouch⟩)
    exact ⟨rfl, hswap hwon⟩
  · rintro below' e' ⟨a, b, saved, htakes, hframes, hclear⟩
    exact (honly a b below' htakes (.inl ⟨e', saved, hframes, hclear⟩)).1

end Runs

/-! ## Two events -/

/-- A line is typed and executed, the next key wakes the machine, and a page
fault strikes its handler. Another one strikes the handler of the first, when
this has written the start of its report. -/
theorem one_fatal_report_nested :
    ∃ (ls : List (Label Fatal Unit)) (m m₁ : Machine Nat)
        (below : List (Frame LockId (Kernel Nat) Fatal)) (e : Fatal) (said : List UInt8)
        (w : Writer) (part : List Access),
      Run (system smallPlatform).step (fun _ _ => True) (smallStart [0x18, 0x17, 0x1C, 0x1E]) ls m ∧
      m.frames.map Frame.kind = [.fatal, .fatal, .irq] ∧
      m₁.cfg.data.globals.executed = [bytes "oi"] ∧
      m₁.cfg.data.globals.writer.columnPosition = 10 ∧
      m.cfg.data.globals.writer.columnPosition = 12 ∧
      SwapsFirst smallPlatform (smallStart [0x18, 0x17, 0x1C, 0x1E]) ls below e ∧
      (∀ below' e', SwapsFirst smallPlatform (smallStart [0x18, 0x17, 0x1C, 0x1E]) ls below' e' →
        below' = below) ∧
      said <+: report smallPlatform e ∧ m₁.cfg.data.globals.writer.writeString said = some w ∧
      (part = [] ∨ ∃ b, said ++ [b] <+: report smallPlatform e ∧
        part <+: w.writeByteAccesses (Writer.shownByte b)) ∧
      w.perform part = some m.cfg.data.globals.writer := by
  -- Up to the first event.
  obtain ⟨i, hpresses, hi⟩ := presses_ok [0x18, 0x17, 0x1C]
    (fun i => (i.ran, i.term.last.length,
      (printBytes i.term (bytes "\n[EXCEPTION] ")).last.length)) (x := ([bytes "oi"], 10, 12))
    (by decide +kernel)
  simp only [Prod.mk.injEq] at hi
  obtain ⟨hran, hbefore, hafter⟩ := hi
  obtain ⟨ls₀, g, queue, pics, enabled, saved, rest, hcalm, hr⟩ :=
    smallStart_wakes (G := fun _ l => ∀ e, l ≠ .fatal e) ⟨fun _ _ => by simp, fun _ _ _ => by simp⟩
      0x1E (by decide) (by decide) hpresses
  obtain ⟨m₁, hm₁⟩ : ∃ m₁ : Machine Nat, m₁ = ⟨⟨⟨g, queue, pics, [], true⟩, noLock, false, false⟩,
    false, .leave enabled, .ret .head, [⟨.irq, saved, rest⟩]⟩ := ⟨_, rfl⟩
  rw [← hm₁] at hcalm
  obtain ⟨hg₁, m₂, hstrike, hframes, hhalted, hg, hheld, hloaded⟩ :
      m₁.cfg.data.globals = g ∧ ∃ m₂, (system smallPlatform).step m₁ (.fatal pageFault) = some m₂ ∧
      m₂.frames = [⟨.fatal, false, onGlobals (fatalHandler smallPlatform pageFault)⟩,
        ⟨.irq, saved, rest⟩] ∧
      m₂.halted = false ∧ m₂.cfg.data.globals = g ∧ m₂.cfg.held = noLock ∧
      m₂.cfg.data.idtLoaded = true := by
    rw [hm₁]
    exact ⟨rfl, _, rfl, rfl, rfl, rfl, rfl, rfl⟩
  have hrun₁ : Run (system smallPlatform).step (fun _ _ => True) _ ls₀ m₁ :=
    hcalm.mono fun _ _ _ => trivial
  -- Its handler, until the second one strikes and has swapped.
  obtain ⟨w₁, hw₁, ht₁⟩ := Writer.writeString_tracks hr.tracks (bytes "\n[EXCEPTION] ")
  obtain ⟨q, d, hsteps, hwriter, _⟩ := fatalException_writes (g := m₂.cfg.data.globals)
    (h := m₂.cfg.held) (b := m₂.cfg.ifl) (.pageFault 2 0x444444440000) 0x200000
    (by rw [hg]; exact hr.calm) (by rw [hheld]; rfl) (by rw [hheld]; exact ⟨rfl, rfl⟩)
    (by rw [hg]; exact hw₁) m₂.cfg.shadow
  obtain ⟨ls₁, hhandler⟩ := run_handler smallPlatform (G := fun _ _ => True) (fun _ => trivial)
    hframes hhalted hsteps
  obtain ⟨m, hrun, hkinds, hwritten⟩ : ∃ m, Run (system smallPlatform).step (fun _ _ => True)
      (smallStart [0x18, 0x17, 0x1C, 0x1E])
      (ls₀ ++ [.fatal pageFault] ++ ls₁ ++ [.fatal pageFault] ++ [.tick]) m ∧
      m.frames.map Frame.kind = [.fatal, .fatal, .irq] ∧ m.cfg.data.globals.writer = w₁ := by
    have hsecond := (((hrun₁.snoc trivial hstrike).trans hhandler).snoc trivial
      (step_exception smallPlatform (.pageFault 2 0x444444440000) 0x200000 hhalted hloaded)).snoc
        (l := .tick) trivial rfl
    exact ⟨_, hsecond, rfl, hwriter⟩
  -- What is said of the run.
  obtain ⟨ls₀', e₀, ls₁', m₁', below, e, said, w, part, hls, hcalm', hrun', _, hone,
    ⟨hsaid, hw, hpart, hdone⟩, hwho, _⟩ := one_fatal_report smallPlatform rfl hrun
      (show Label.fatal pageFault ∈ _ by simp)
  have hlabels : ls₀' ++ .fatal e₀ :: ls₁' =
      ls₀ ++ .fatal pageFault :: (ls₁ ++ [.fatal pageFault] ++ [.tick]) := by
    rw [← hls]
    simp
  obtain rfl : ls₀' = ls₀ :=
    Stage.first_fatal hlabels hcalm' fun e hmem => hcalm.labels _ hmem e rfl
  obtain rfl : m₁' = m₁ := hrun'.unique hrun₁
  have hcol₁ : m₁'.cfg.data.globals.writer.columnPosition = 10 := by
    rw [hg₁]
    exact hr.tracks.1.column.trans hbefore
  have hcol : m.cfg.data.globals.writer.columnPosition = 12 := by
    rw [hwritten, ht₁.1.column, hafter]
  have hwon : SwapsFirst smallPlatform _ _ below e := hwho <| by
    by_contra hnone
    obtain ⟨rfl, rfl⟩ : said = [] ∧ part = [] := by simpa [not_or] using hnone
    obtain rfl := Option.some.inj hw
    rw [← Option.some.inj hdone, hcol₁] at hcol
    cases hcol
  exact ⟨_, m, m₁', below, e, said, w, part, hrun, hkinds, by rw [hg₁]; exact hr.ran.trans hran,
    hcol₁, hcol, hwon, hone, hsaid, hw, hpart, hdone⟩

/-- A page fault, and an invalid opcode in its handler before this has come
to its swap: the handler that takes `WRITER` is not the one of the event that
struck first, which it has interrupted. -/
theorem second_event_reports :
    ∃ ls a b f g, Takes (system smallPlatform).step (fun _ _ => True) (smallStart []) ls a .tick b ∧
      a.frames = [f, g] ∧ f.kind = .fatal ∧ g.kind = .fatal ∧
      g.code = onGlobals (fatalHandler smallPlatform pageFault) ∧ a.wants = some .writer := by
  obtain ⟨ls, globals, _, _, _, shadow, _, hload, hpanicking⟩ :=
    smallStart_loads (G := fun _ _ => True) fun _ => trivial
  obtain ⟨m, hstrike, hframes, hhalted, hheld, hsame⟩ : ∃ m,
      Run (system smallPlatform).step (fun _ _ => True) (smallStart [])
        (ls ++ [.fatal pageFault] ++ [.fatal invalidOpcode]) m ∧
      m.frames = [⟨.fatal, false, onGlobals (fatalHandler smallPlatform invalidOpcode)⟩,
        ⟨.fatal, false, onGlobals (fatalHandler smallPlatform pageFault)⟩] ∧
      m.halted = false ∧ m.cfg.held = noLock ∧ m.cfg.data.globals = globals :=
    ⟨_, (hload.snoc trivial rfl).snoc trivial rfl, rfl, rfl, rfl, rfl⟩
  obtain ⟨g', hcomes, _⟩ := fatalException_to_screen (H := Nat) (g := m.cfg.data.globals)
    (h := m.cfg.held) (b := m.cfg.ifl) .invalidOpcode 0x200000 (by rw [hsame, hpanicking])
    (by rw [hheld]; rfl) (by rw [hheld]; rfl)
  obtain ⟨_, hsteps⟩ := hcomes m.cfg.shadow
  obtain ⟨ls', a, hrun, hhalted', f, hframes', hkind, hwants, hfree⟩ : ∃ ls' a,
      Run (system smallPlatform).step (fun _ _ => True) m ls' a ∧ a.halted = false ∧
      ∃ f, a.frames = [f, ⟨.fatal, false, onGlobals (fatalHandler smallPlatform pageFault)⟩] ∧
        f.kind = .fatal ∧ f.code.wants = some .writer ∧ a.cfg.held .writer = false := by
    obtain ⟨ls', hrun⟩ := run_handler smallPlatform (G := fun _ _ => True) (fun _ => trivial)
      hframes hhalted hsteps
    exact ⟨ls', _, hrun, hhalted, _, rfl, rfl, rfl, congrFun hheld _⟩
  obtain ⟨b, hb⟩ := (system smallPlatform).tick_lock hframes' hhalted' hwants hfree
  refine ⟨_, a, b, f, _, (hstrike.trans hrun).takes_last hb, hframes', hkind, rfl, rfl, ?_⟩
  rw [Cpu.wants, hframes']
  exact hwants

end ProtoOs.Ref
