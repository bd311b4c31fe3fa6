import ProtoOs.Lib.Editor
import ProtoOs.Proofs.Line
import ProtoOs.Proofs.Locks

/-!
# A session at the prompt

What the screen shows of the line being typed. Every command that returns
ends what it printed with a line break, or printed nothing, so the next
prompt starts a row (`FreshRow`). From there on the row being written is
the prompt and the line, until the echo runs over the end of the row; after
that it is an end of the line. Either way the last character of a row that
is not empty is the last one of the line, which is the one a backspace
takes from both.
-/

namespace ProtoOs.Ref

open ProtoOs.Lib ProtoOs.Lib.Prog

variable {H : Type} {trap : Cfg LockId (Globals H) → Outcome LockId (Globals H) Fatal Unit}

/-! ## What commands leave on the screen -/

/-- Under the guard of `WRITER`, for what does not tell whether it has been
built. -/
theorem withWriter_triple {α : Type} {P : Globals H → Prop} {p : Code H α}
    {Q : α → Globals H → Prop} (hready : ∀ g, P g → P { g with writerReady := true })
    (hp : Triple trap P p Q) : Triple trap P (withWriter p) Q :=
  Triple.bind (Keeps.callOnce hready) fun _ => Triple.withLock hp

theorem print_triple (text : List UInt8) (t : Terminal UInt8) :
    Triple trap (fun g : Globals H => g.writer.Tracks t) (print text)
      fun _ g => g.writer.Tracks (printBytes t text) := by
  refine withWriter_triple (fun _ h => h) fun c a c' ht hrun => ?_
  obtain ⟨w, hw, ht'⟩ := Writer.writeString_tracks ht text
  obtain ⟨_, hdata, _⟩ := (writeText_yields text hw).eq_of_run rfl rfl rfl hrun
  rw [hdata]
  exact ht'

/-- A fact that does not depend on the screen and its writer. -/
structure OffScreen (I : Globals H → Prop) : Prop where
  writer : ∀ g writer, I g → I { g with writer }
  ready : ∀ g, I g → I { g with writerReady := true }

namespace OffScreen

variable {I : Globals H → Prop} (hI : OffScreen I)

include hI

theorem performAll (as : List Access) : (performAll as : Code H Unit).Keeps trap I := by
  induction as with
  | nil => exact Triple.ret fun _ h => h
  | cons a as ih =>
      refine Keeps.bind (Triple.attempt fun g u g' h hg => ?_) fun _ => ih
      obtain ⟨w, _, hw⟩ := Option.map_eq_some_iff.mp hg
      obtain ⟨_, rfl⟩ := Prod.mk.inj hw
      exact hI.writer g w h

theorem onWriter (accesses : Writer → List Access) :
    (onWriter accesses : Code H Unit).Keeps trap I :=
  Keeps.act (fun _ h => h) fun g => hI.performAll (accesses g.writer)

theorem writeText (text : List UInt8) : (writeText text : Code H Unit).Keeps trap I := by
  induction text with
  | nil => exact Triple.ret fun _ h => h
  | cons b bs ih => exact Keeps.bind (hI.onWriter _) fun _ => ih

theorem print (text : List UInt8) : (print text : Code H Unit).Keeps trap I :=
  withWriter_triple hI.ready (hI.writeText text)

theorem clearScreen : (clearScreen : Code H Unit).Keeps trap I :=
  withWriter_triple hI.ready (hI.onWriter _)

theorem backspace : (backspace : Code H Unit).Keeps trap I :=
  withWriter_triple hI.ready (hI.onWriter _)

end OffScreen

theorem line_offScreen (I : LineBuffer → Prop) : OffScreen fun g : Globals H => I g.line where
  writer _ _ h := h
  ready _ h := h

/-- The row being written is empty. -/
def FreshRow (g : Globals H) : Prop := ∃ t, g.writer.Tracks t ∧ t.last = []

theorem printBytes_endLine (t : Terminal UInt8) (text : List UInt8) :
    (printBytes t (text ++ bytes "\n")).last = [] := by
  rw [printBytes, List.foldl_append]
  rfl

theorem println_triple (text : List UInt8) :
    Triple trap (fun g : Globals H => ∃ t, g.writer.Tracks t) (println text)
      fun _ => FreshRow := by
  rintro c a c' ⟨t, ht⟩ hrun
  exact ⟨_, print_triple _ t c a c' ht hrun, printBytes_endLine t text⟩

theorem println_fresh (text : List UInt8) :
    (println text : Code H Unit).Keeps trap FreshRow :=
  (println_triple text).mono (fun _ ⟨t, ht, _⟩ => ⟨t, ht⟩) fun _ _ => id

theorem clearScreen_triple :
    Triple trap (fun _ => True) (clearScreen : Code H Unit) fun _ => FreshRow := by
  refine withWriter_triple (fun _ h => h) fun c a c' _ hrun => ?_
  obtain ⟨w, hw, ht⟩ := c.data.writer.clearScreen_tracks
  obtain ⟨_, hdata, _⟩ := (onWriter_yields (by rw [Writer.perform_clearScreen, hw])).eq_of_run
    rfl rfl rfl hrun
  rw [hdata]
  exact ⟨_, ht, rfl⟩

theorem sendText_fresh (text : List UInt8) :
    (sendText text : Code H Unit).Keeps trap FreshRow := by
  induction text with
  | nil => exact Triple.ret fun _ h => h
  | cons b bs ih => exact Keeps.bind (Triple.modify fun _ h => h) fun _ => ih

theorem serialPrintln_fresh (text : List UInt8) :
    (serialPrintln text : Code H Unit).Keeps trap FreshRow :=
  Triple.withoutInterrupts (Triple.withLock (sendText_fresh _))

theorem memoryInfo_fresh : (memoryInfo : Code H MemoryInfo).Keeps trap FreshRow := by
  refine Triple.withLock (Triple.attempt fun g info g' h hg => ?_)
  obtain ⟨_, _, hg⟩ := Option.map_eq_some_iff.mp hg
  obtain ⟨_, rfl⟩ := Prod.mk.inj hg
  exact h

variable (pf : Platform H)

theorem alloc_fresh (size align : Nat) : (alloc pf size align).Keeps trap FreshRow := by
  refine Keeps.bind (Triple.withLock (Keeps.act (fun g h => ?_) fun _ => Triple.ret fun _ => id))
    fun got => ?_
  · split <;> exact h
  · cases got with
    | some addr => exact Triple.ret fun _ h => h
    | none => exact Triple.fault

theorem dealloc_fresh (addr size align : Nat) :
    (dealloc pf addr size align).Keeps trap FreshRow :=
  Triple.withLock (Triple.modify fun _ h => h)

/-- The breakpoint handler prints whole lines. -/
theorem globalsTrapRun_fresh {c c' : Cfg LockId (Globals H)} (h : FreshRow c.data)
    (hrun : globalsTrapRun pf c = .done () c') : FreshRow c'.data := by
  have hkeeps : (breakpointHandler pf).Keeps Outcome.halt FreshRow :=
    Keeps.bind (serialPrintln_fresh _) fun _ => println_fresh _
  obtain ⟨a, d, hp, hrun⟩ := Outcome.bind_eq_done hrun
  obtain ⟨_, rfl⟩ := Outcome.done.inj hrun
  exact hkeeps c.closeIf a d h hp

/-- Every word of a command leaves a row just started where it found one. -/
theorem commands_fresh : CommandClosed pf fun p => p.Keeps (globalsTrapRun pf) FreshRow where
  ret _ := Triple.ret fun _ h => h
  bind := Keeps.bind
  println := println_fresh
  clearScreen := clearScreen_triple.mono (fun _ _ => trivial) fun _ _ => id
  memoryInfo := memoryInfo_fresh
  alloc := alloc_fresh pf
  dealloc := dealloc_fresh pf
  fault _ := Triple.fault
  int3 := Triple.int3 (globalsTrapRun_fresh pf)

/-- Whatever the line is, the command leaves a row just started. -/
theorem execute_fresh (line : List UInt8) :
    (execute pf line).Keeps (globalsTrapRun pf) FreshRow := by
  refine Keeps.bind (Triple.modify fun _ h => h) fun _ => ?_
  dsimp only
  split
  · exact Triple.ret fun _ h => h
  · exact (commands_fresh pf).dispatch _ _

/-- Up to the next prompt, a line break leaves a row just started and an
empty line. -/
theorem runLine_triple :
    Triple (globalsTrapRun pf) (fun g => ∃ t, g.writer.Tracks t) (runLine pf)
      fun _ g => FreshRow g ∧ g.line.len = 0 := by
  refine Triple.bind (println_triple []) fun _ => Triple.withLock ?_
  refine Triple.bind (Q := fun _ => FreshRow) (Triple.attempt fun g s g' h hg => ?_) fun line => ?_
  · obtain ⟨_, _, hg⟩ := Option.map_eq_some_iff.mp hg
    obtain ⟨_, rfl⟩ := Prod.mk.inj hg
    exact h
  · exact Triple.bind (execute_fresh pf line) fun _ => Triple.modify fun _ h => ⟨h, rfl⟩

/-! ## The prompt is a line editor -/

/-- What a byte other than a line break is to the editor. -/
def keyOf (byte : UInt8) : Key UInt8 :=
  if byte = 0x08 then .erase
  else if 0x20 ≤ byte ∧ byte ≤ 0x7e then .char byte
  else .other

/-- The globals show the editor: its terminal on the screen, its line in
`LINE`. -/
structure Globals.Edits (g : Globals H) (e : Editor UInt8) : Prop where
  tracks : g.writer.Tracks e.term
  holds : g.line.Holds e.line

section Feed

variable {g : Globals H} {b : Bool} {e : Editor UInt8}

theorem popLine_yields {ok : Bool} {l : LineBuffer} (hpop : g.line.pop = (ok, l)) :
    popLine.Yields trap g noLock b ok { g with line := l } := by
  refine Yields.withLock rfl (Yields.act ?_)
  rw [hpop]
  exact Yields.ret

theorem pushLine_yields {byte : UInt8} {ok : Bool} {l : LineBuffer}
    (hpush : g.line.push byte = some (ok, l)) :
    (pushLine byte).Yields trap g noLock b ok { g with line := l } :=
  Yields.withLock rfl (Yields.attempt (by rw [hpush]; rfl))

theorem feed_pop_nil_yields (hl : g.line.Holds []) :
    (feed pf 0x08).Yields trap g noLock b () { g with fed := g.fed ++ [0x08] } :=
  Yields.bind Yields.modify (Yields.bind (popLine_yields (LineBuffer.pop_nil hl)) Yields.ret)

variable (trap) in
/-- A `0x08` on a line that is not empty. -/
theorem feed_pop_yields {s : List UInt8} {x : UInt8} {w : Writer}
    (hl : g.line.Holds (s ++ [x])) (hw : g.writer.backspace = some w) :
    ∃ l, (feed pf 0x08).Yields trap g noLock b ()
        { g with fed := g.fed ++ [0x08], line := l, writer := w, writerReady := true } ∧
      l.Holds s := by
  obtain ⟨l, hpop, hholds⟩ := LineBuffer.pop_snoc hl
  exact ⟨l, Yields.bind Yields.modify
    (Yields.bind (popLine_yields hpop) (backspace_yields noLock_writerFree hw)), hholds⟩

/-- The third arm of `feed`. -/
theorem feed_printable {byte : UInt8} (hb : Printable byte) :
    feed pf byte = Prog.bind (Prog.modify fun g => { g with fed := g.fed ++ [byte] }) fun _ =>
      Prog.bind (pushLine byte) fun pushed => if pushed then print [byte] else ret () := by
  have he : byte ≠ 0x08 := by
    rintro rfl
    exact absurd hb.1 (by decide)
  have hb' : 0x20 ≤ byte ∧ byte ≤ 0x7e := hb
  simp only [feed, if_neg hb.ne_newLine, if_neg he, if_pos hb', bind_def, pure_def]

variable (trap) in
/-- A printable byte on a line with room. -/
theorem feed_push_yields {s : List UInt8} {byte : UInt8} {w : Writer}
    (hb : Printable byte) (hl : g.line.Holds s) (hs : s.length < lineCapacity)
    (hw : g.writer.writeString [byte] = some w) :
    ∃ l, (feed pf byte).Yields trap g noLock b ()
        { g with fed := g.fed ++ [byte], line := l, writer := w, writerReady := true } ∧
      l.Holds (s ++ [byte]) := by
  obtain ⟨l, hpush, hholds⟩ := LineBuffer.push_of_lt hl hs hb
  refine ⟨l, ?_, hholds⟩
  rw [feed_printable pf hb]
  exact Yields.bind Yields.modify
    (Yields.bind (pushLine_yields hpush) (print_yields noLock_writerFree hw))

/-- On a full line it is refused. -/
theorem feed_full_yields {s : List UInt8} {byte : UInt8} (hb : Printable byte)
    (hl : g.line.Holds s) (hs : s.length = lineCapacity) :
    (feed pf byte).Yields trap g noLock b () { g with fed := g.fed ++ [byte] } := by
  rw [feed_printable pf hb]
  exact Yields.bind Yields.modify
    (Yields.bind (pushLine_yields (LineBuffer.push_of_full hl hs byte)) Yields.ret)

theorem feed_other_yields {byte : UInt8} (hn : byte ≠ 0x0A) (he : byte ≠ 0x08)
    (hb : ¬Printable byte) :
    (feed pf byte).Yields trap g noLock b () { g with fed := g.fed ++ [byte] } := by
  refine Yields.bind Yields.modify ?_
  rw [if_neg hn, if_neg he, if_neg (show ¬(0x20 ≤ byte ∧ byte ≤ 0x7e) from hb)]
  exact Yields.ret

variable (trap) in
/-- Between line breaks, `feed` is the editor. -/
theorem feed_edits {byte : UInt8} (h : g.Edits e) (hn : byte ≠ 0x0A) :
    ∃ g', (feed pf byte).Yields trap g noLock b () g' ∧
      g'.Edits (e.key bufferWidth lineCapacity (keyOf byte)) := by
  by_cases he : byte = 0x08
  · subst he
    rcases List.eq_nil_or_concat e.line with hnil | ⟨s, x, hs⟩
    · refine ⟨_, feed_pop_nil_yields pf (hnil ▸ h.holds), ?_⟩
      have hkey : e.key bufferWidth lineCapacity (keyOf 0x08) = e := if_pos hnil
      rw [hkey]
      exact ⟨h.tracks, h.holds⟩
    · rw [List.concat_eq_append] at hs
      obtain ⟨w, hw, ht⟩ := Writer.backspace_tracks h.tracks
      obtain ⟨l, hyields, hl⟩ := feed_pop_yields trap pf (b := b) (hs ▸ h.holds) hw
      refine ⟨_, hyields, ?_⟩
      have hkey : e.key bufferWidth lineCapacity (keyOf 0x08) =
          ⟨e.term.erase, e.line.dropLast, e.scrolled⟩ := if_neg (by simp [hs])
      rw [hkey]
      exact ⟨ht, by simpa [hs] using hl⟩
  · by_cases hb : Printable byte
    · have hkey : keyOf byte = .char byte := by
        rw [keyOf, if_neg he, if_pos (show 0x20 ≤ byte ∧ byte ≤ 0x7e from hb)]
      rw [hkey]
      by_cases hs : e.line.length < lineCapacity
      · obtain ⟨w, hw, ht⟩ := Writer.writeString_tracks h.tracks [byte]
        obtain ⟨l, hyields, hl⟩ := feed_push_yields trap pf (b := b) hb h.holds hs hw
        refine ⟨_, hyields, ?_⟩
        simp only [Editor.key, Editor.type, if_pos hs]
        refine ⟨?_, hl⟩
        have hput : printBytes e.term [byte] = e.term.put bufferWidth byte := hb.printByte _
        rw [← hput]
        exact ht
      · have hfull : e.line.length = lineCapacity :=
          Nat.le_antisymm h.holds.length_le (Nat.le_of_not_lt hs)
        refine ⟨_, feed_full_yields pf hb h.holds hfull, ?_⟩
        simp only [Editor.key, Editor.type, if_neg hs]
        exact ⟨h.tracks, h.holds⟩
    · have hkey : keyOf byte = .other := by
        rw [keyOf, if_neg he, if_neg (show ¬(0x20 ≤ byte ∧ byte ≤ 0x7e) from hb)]
      rw [hkey]
      exact ⟨_, feed_other_yields pf hn he hb, h.tracks, h.holds⟩

end Feed

/-! ## Whole sessions -/

theorem prompt_printable : ∀ b ∈ prompt, Printable b := by decide +kernel

theorem printPrompt_triple :
    Triple trap (fun g : Globals H => FreshRow g ∧ g.line.len = 0) printPrompt
      fun _ g => ∃ t, g.Edits (Editor.start t prompt) := by
  rintro c a c' ⟨⟨t, ht, hlast⟩, hlen⟩ hrun
  have ht' := print_triple prompt t c a c' ht hrun
  have hlen' := (line_offScreen fun l => l.len = 0).print prompt c a c' hlen hrun
  rw [printBytes_of_fits prompt_printable (by rw [hlast]; decide), hlast,
    List.nil_append] at ht'
  exact ⟨t, ht', LineBuffer.holds_nil hlen'⟩

/-- What comes before the first prompt. -/
def welcome : Code H Unit := do
  clearScreen
  printWelcome

/-- What `feed` does with a line break before the next prompt. -/
def untilPrompt : Code H Unit := do
  Prog.modify fun g => { g with fed := g.fed ++ [0x0A] }
  runLine pf

theorem feed_newLine : feed pf 0x0A = (untilPrompt pf).bind fun _ => printPrompt := rfl

def feedAll : List UInt8 → Code H Unit
  | [] => pure ()
  | byte :: bs => do
      feed pf byte
      feedAll bs

/-- A session: the screen cleared, the welcome and the first prompt, and
then bytes. -/
def session (bs : List UInt8) : Code H Unit := do
  welcome
  printPrompt
  feedAll pf bs

theorem feedAll_append (bs bs' : List UInt8) :
    feedAll pf (bs ++ bs') = (feedAll pf bs).bind fun _ => feedAll pf bs' := by
  induction bs with
  | nil => rfl
  | cons byte bs ih => simp only [List.cons_append, feedAll, ih, bind_def, bind_bind]

theorem session_append (bs bs' : List UInt8) :
    session pf (bs ++ bs') = (session pf bs).bind fun _ => feedAll pf bs' := by
  simp only [session, feedAll_append, bind_def, bind_bind]

theorem welcome_triple :
    Triple trap (fun g : Globals H => True ∧ g.line.len = 0) welcome
      fun _ g => FreshRow g ∧ g.line.len = 0 := by
  have hfresh : Triple trap (fun _ : Globals H => True) welcome fun _ => FreshRow :=
    Triple.bind clearScreen_triple fun _ => Keeps.bind (println_fresh _) fun _ =>
      Keeps.bind (println_fresh _) fun _ => Keeps.bind (println_fresh _) fun _ =>
        println_fresh _
  have hoff : OffScreen fun g : Globals H => g.line.len = 0 := line_offScreen fun l => l.len = 0
  have hline : (welcome : Code H Unit).Keeps trap fun g => g.line.len = 0 :=
    Keeps.bind hoff.clearScreen fun _ => Keeps.bind (hoff.print _) fun _ =>
      Keeps.bind (hoff.print _) fun _ => Keeps.bind (hoff.print _) fun _ => hoff.print _
  exact hfresh.and hline

theorem untilPrompt_triple :
    Triple (globalsTrapRun pf) (fun g => ∃ t, g.writer.Tracks t) (untilPrompt pf)
      fun _ g => FreshRow g ∧ g.line.len = 0 :=
  Triple.bind (Triple.modify fun _ h => h) fun _ => runLine_triple pf

/-- The breakpoint handler gives back the locks and the flag. -/
theorem globalsTrapRun_frame {c c' : Cfg LockId (Globals H)} (hfree : TrapFree c.held)
    (hrun : globalsTrapRun pf c = .done () c') : c'.held = c.held ∧ c'.ifl = c.ifl := by
  have htidy : Tidy (fun _ => False) true TrapLock (breakpointHandler pf) :=
    breakpointHandler_tidy pf
  obtain ⟨a, d, hp, hrun⟩ := Outcome.bind_eq_done hrun
  obtain ⟨_, rfl⟩ := Outcome.done.inj hrun
  exact ⟨(Safe.run_done (fun hf _ => False.elim hf)
    (htidy c.held false (by simp) hfree) hp).1, rfl⟩

/-- Code that returns leaves no lock held. -/
theorem Tidy.run_done {α : Type} {p : Code H α} (hp : Tidy TrapFree true AnyLock p)
    {c c' : Cfg LockId (Globals H)} {a : α} (hc : c.held = noLock)
    (hrun : p.run (globalsTrapRun pf) c = .done a c') : c'.held = noLock := by
  have hsafe := hp c.held c.ifl (by simp) fun l _ => congrFun hc l
  exact (Safe.run_done (globalsTrapRun_frame pf) hsafe hrun).1.trans hc

/-- Between two bytes the globals show an editor whose row ends as its line
does. -/
def AtPrompt (g : Globals H) : Prop := ∃ e, g.Edits e ∧ e.Aligned prompt

section Session

variable {c c' : Cfg LockId (Globals H)}

theorem feed_atPrompt {byte : UInt8} (h : AtPrompt c.data) (hc : c.held = noLock)
    (hrun : (feed pf byte).run (globalsTrapRun pf) c = .done () c') : AtPrompt c'.data := by
  obtain ⟨e, he, haligned⟩ := h
  by_cases hn : byte = 0x0A
  · subst hn
    rw [feed_newLine] at hrun
    obtain ⟨t, ht⟩ := Triple.bind (untilPrompt_triple pf) (fun _ => printPrompt_triple)
      c _ c' ⟨_, he.tracks⟩ hrun
    exact ⟨_, ht, Editor.start_aligned t⟩
  · obtain ⟨g', hyields, hg'⟩ := feed_edits (globalsTrapRun pf) pf (b := c.ifl) he hn
    obtain ⟨_, hdata, _⟩ := hyields.eq_of_run rfl hc rfl hrun
    exact ⟨_, by rw [hdata]; exact hg', haligned.key _⟩

theorem feedAll_atPrompt (bs : List UInt8) :
    ∀ {c : Cfg LockId (Globals H)}, AtPrompt c.data → c.held = noLock →
      (feedAll pf bs).run (globalsTrapRun pf) c = .done () c' →
      AtPrompt c'.data ∧ c'.held = noLock := by
  induction bs with
  | nil =>
      intro c h hc hrun
      obtain ⟨_, rfl⟩ := Outcome.done.inj hrun
      exact ⟨h, hc⟩
  | cons byte bs ih =>
      intro c h hc hrun
      simp only [feedAll, bind_def, run_bind] at hrun
      obtain ⟨_, c₁, hfeed, hrun⟩ := Outcome.bind_eq_done hrun
      exact ih (feed_atPrompt pf h hc hfeed)
        (Tidy.run_done pf (feed_tidy pf byte) hc hfeed) hrun

theorem session_atPrompt {g : Globals H} {bs : List UInt8} {ifl shadow : Bool}
    (hline : g.line.len = 0)
    (hrun : (session pf bs).run (globalsTrapRun pf) ⟨g, noLock, ifl, shadow⟩ = .done () c) :
    AtPrompt c.data ∧ c.held = noLock := by
  simp only [session, bind_def, run_bind] at hrun
  obtain ⟨_, c₁, hwelcome, hrun⟩ := Outcome.bind_eq_done hrun
  obtain ⟨_, c₂, hprompt, hrun⟩ := Outcome.bind_eq_done hrun
  obtain ⟨t, ht⟩ := printPrompt_triple c₁ _ c₂
    (welcome_triple _ _ c₁ ⟨trivial, hline⟩ hwelcome) hprompt
  have hc₁ := Tidy.run_done pf (Neutral.bind (clearScreen_tidy anyLock_writer) fun _ =>
    printWelcome_tidy anyLock_writer) rfl hwelcome
  have hc₂ := Tidy.run_done pf (print_tidy prompt anyLock_writer) hc₁ hprompt
  exact feedAll_atPrompt pf bs ⟨_, ht, Editor.start_aligned t⟩ hc₂ hrun

end Session

theorem FreshRow.column {g : Globals H} (h : FreshRow g) : g.writer.columnPosition = 0 := by
  obtain ⟨t, ht, hlast⟩ := h
  rw [ht.1.column, hlast]
  rfl

/-! ## A screen with nothing but the prompt -/

/-- A cleared screen with the prompt on it. -/
def firstPrompt : Code H Unit := do
  clearScreen
  printPrompt

theorem firstPrompt_triple :
    Triple trap (fun g : Globals H => g.line.len = 0) firstPrompt
      fun _ g => ∃ t, g.Edits (Editor.start t prompt) := by
  have hclear : Triple trap (fun g : Globals H => True ∧ g.line.len = 0) clearScreen
      fun _ g => FreshRow g ∧ g.line.len = 0 :=
    clearScreen_triple.and (line_offScreen fun l => l.len = 0).clearScreen
  exact Triple.bind (hclear.mono (fun _ h => ⟨trivial, h⟩) fun _ _ => id)
    fun _ => printPrompt_triple

variable (trap) in
theorem firstPrompt_returns (g : Globals H) (b : Bool) :
    ∃ g', firstPrompt.Yields trap g noLock b () g' := by
  obtain ⟨w₁, hw₁, _⟩ := g.writer.clearScreen_tracks
  obtain ⟨g₂, h₂⟩ := print_returns trap (h := noLock) (b := b) prompt
    { g with writer := w₁, writerReady := true } noLock_writerFree
  exact ⟨g₂, Yields.bind (clearScreen_yields noLock_writerFree hw₁) h₂⟩

end ProtoOs.Ref
