import ProtoOs.Proofs.Commands

/-!
# `echo` shows what was typed

From a fresh prompt on, everything happens below the rows that are on the
screen already: the line is echoed after the prompt, the text is printed
under it and the next prompt under that. `Below` says so for any writer and
any screen: the rows of a terminal stand where the bottom row was, and the
rows over it have moved up by as many as the terminal has left behind.

What stands between two prompts is then read off the terminal, where a text
put on rows of 80 is that text cut every 80 characters.
-/

namespace ProtoOs.Ref

open ProtoOs.Lib ProtoOs.Lib.Prog

/-! ## Rows below a screen -/

namespace Writer

/-- A row of the screen holds a text and is blank after it. -/
def RowHolds (w : Writer) (r : Nat) (s : List UInt8) : Prop :=
  ∀ c, c < bufferWidth → w.character r c = some ((s[c]?).getD 0x20)

/-- The screen of `w` is that of `w₀` with the rows of `t` from its bottom
row on. -/
structure Below (w₀ w : Writer) (t : Terminal UInt8) : Prop where
  rows : ∀ i s, t.rows[i]? = some s → t.above.length - i < bufferHeight →
    w.RowHolds (bufferHeight - 1 - (t.above.length - i)) s
  kept : ∀ r c, r + t.above.length < bufferHeight - 1 → c < bufferWidth →
    w.character r c = w₀.character (r + t.above.length) c
  column : w.columnPosition = t.last.length
  width : t.last.length ≤ bufferWidth

variable {w₀ w : Writer} {t : Terminal UInt8}

theorem Below.moveHardwareCursor (h : Below w₀ w t) : Below w₀ w.moveHardwareCursor t :=
  ⟨h.rows, h.kept, h.column, h.width⟩

theorem Below.newLine (h : Below w₀ w t) :
    ∃ w', w.newLine = some w' ∧ Below w₀ w' t.newLine := by
  obtain ⟨b, hb, hread⟩ := w.newLine_spec
  have hlen : t.newLine.above.length = t.above.length + 1 := t.rows_length
  have hup : ∀ r c, r < bufferHeight - 1 → c < bufferWidth →
      Writer.character { w with buffer := b, columnPosition := 0 } r c = w.character (r + 1) c := by
    intro r c hr hc
    unfold character
    rw [hread r c (by omega) hc, if_neg (by omega)]
  refine ⟨_, hb, fun i s hs hi c hc => ?_, fun r c hr hc => ?_, rfl, by simp⟩
  · rw [hlen] at hi ⊢
    by_cases hlast : i = t.above.length + 1
    · -- The row just started.
      have hnil : s = [] := by
        rw [hlast] at hs
        simpa [Terminal.rows, Terminal.newLine] using hs.symm
      rw [hnil, hlast, Nat.sub_self]
      unfold character
      rw [hread _ c (by omega) hc, if_pos (by omega)]
      rfl
    · have hi' : i ≤ t.above.length := by
        have hlt := (List.getElem?_eq_some_iff.mp hs).1
        rw [Terminal.rows_length, hlen] at hlt
        omega
      have hs' : t.rows[i]? = some s := by
        rw [← hs]
        exact (List.getElem?_append_left (by rw [Terminal.rows_length]; omega)).symm
      have hrow : bufferHeight - 1 - (t.above.length + 1 - i) + 1 =
          bufferHeight - 1 - (t.above.length - i) := by omega
      rw [hup _ c (by omega) hc, hrow]
      exact h.rows i s hs' (by omega) c hc
  · rw [hlen] at hr ⊢
    rw [hup r c (by omega) hc, h.kept (r + 1) c (by omega) hc, Nat.add_right_comm, Nat.add_assoc]

/-- A character on a row that has room for it. -/
theorem Below.extend (h : Below w₀ w t) (hroom : t.last.length < bufferWidth) {x : UInt8}
    {b : Buffer} (hread : w.Puts x b) :
    Below w₀ { w with buffer := b, columnPosition := w.columnPosition + 1 }
      { t with last := t.last ++ [x] } := by
  have hcol := h.column
  have hother : ∀ r c, ¬(r = bufferHeight - 1 ∧ c = w.columnPosition) →
      Writer.character { w with buffer := b, columnPosition := w.columnPosition + 1 } r c =
        w.character r c := by
    intro r c hne
    unfold character
    rw [hread.elsewhere hne]
  refine ⟨fun i s hs hi c hc => ?_, fun r c hr hc => ?_, ?_, ?_⟩
  · by_cases hlast : i = t.above.length
    · subst hlast
      have hs' : s = t.last ++ [x] := by simpa [Terminal.rows] using hs.symm
      rw [hs', Nat.sub_self]
      by_cases hc' : c = w.columnPosition
      · show (b.read (bufferHeight - 1) c).map ScreenChar.asciiCharacter = _
        rw [hc', hread.here, hcol]
        simp
      · have hold := h.rows t.above.length t.last (by simp [Terminal.rows]) (by omega) c hc
        rw [Nat.sub_self] at hold
        rw [hother _ c fun hn => hc' hn.2]
        refine hold.trans ?_
        rcases Nat.lt_or_gt_of_ne (hcol ▸ hc') with hlt | hgt
        · rw [List.getElem?_append_left hlt]
        · rw [List.getElem?_eq_none (by omega), List.getElem?_eq_none (by simp; omega)]
    · have hlt := (List.getElem?_eq_some_iff.mp hs).1
      rw [Terminal.rows_length] at hlt
      have hi' : i < t.above.length := by
        simp only at hlt
        omega
      have hs' : t.rows[i]? = some s := by
        rw [← hs]
        simp only [Terminal.rows]
        rw [List.getElem?_append_left hi', List.getElem?_append_left hi']
      have hup : bufferHeight - 1 - (t.above.length - i) ≠ bufferHeight - 1 := by
        simp only [bufferHeight]
        omega
      rw [hother _ c fun hn => hup hn.1]
      exact h.rows i s hs' hi c hc
  · rw [hother r c (by simp only at hr; omega)]
    exact h.kept r c hr hc
  · simp [hcol]
  · simp; omega

theorem Below.put (h : Below w₀ w t) {x : UInt8} (hx : x ≠ 0x0A) :
    ∃ w', w.writeByte x = some w' ∧ Below w₀ w' (t.put bufferWidth x) := by
  obtain ⟨w₁, b, hw₁, _, hwrite, hread⟩ := w.writeByte_spec hx
  obtain ⟨t₁, h₁, hroom, hput⟩ := makeRoom h.newLine h h.column h.width x hw₁
  exact ⟨_, hwrite, hput ▸ (h₁.extend hroom hread).moveHardwareCursor⟩

theorem Below.writeShown (h : Below w₀ w t) (byte : UInt8) :
    ∃ w', w.writeByte (shownByte byte) = some w' ∧ Below w₀ w' (printByte t byte) := by
  by_cases hb : byte = 0x0A
  · obtain ⟨w', hw', h'⟩ := h.newLine
    rw [shownByte_eq_newLine_iff.mpr hb, printByte, if_pos hb]
    exact ⟨w'.moveHardwareCursor, by rw [writeByte, if_pos rfl, hw']; rfl, h'.moveHardwareCursor⟩
  · rw [printByte, if_neg hb, ← shownByte_eq_glyph hb]
    exact h.put fun hn => hb (shownByte_eq_newLine_iff.mp hn)

theorem Below.writeString (h : Below w₀ w t) (s : List UInt8) :
    ∃ w', w.writeString s = some w' ∧ Below w₀ w' (printBytes t s) :=
  foldlM_refines (R := Below w₀) (g := printByte) (fun _ _ byte hr => hr.writeShown byte) s h

theorem Below.last (h : Below w₀ w t) : w.RowHolds (bufferHeight - 1) t.last := by
  have hrow := h.rows t.above.length t.last (by simp [Terminal.rows])
  rw [Nat.sub_self] at hrow
  exact hrow (by decide)

/-- As long as nothing of the terminal has scrolled off, its rows stand
right over the last one. -/
theorem Below.row (h : Below w₀ w t) (hfits : t.above.length < bufferHeight) {i : Nat}
    {s : List UInt8} (hs : t.above[i]? = some s) :
    w.RowHolds (bufferHeight - 1 - t.above.length + i) s := by
  have hlt := (List.getElem?_eq_some_iff.mp hs).1
  have hs' : t.rows[i]? = some s := by
    rw [Terminal.rows, List.getElem?_append_left hlt]
    exact hs
  have hrow := h.rows i s hs' (by omega)
  rw [show bufferHeight - 1 - t.above.length + i =
    bufferHeight - 1 - (t.above.length - i) by simp only [bufferHeight] at hfits ⊢; omega]
  exact hrow

end Writer

/-! ## Texts on rows -/

section Texts

variable {s : List UInt8} {t : Terminal UInt8}

theorem printBytes_printable (hs : ∀ b ∈ s, Printable b) :
    ∀ t, printBytes t s = s.foldl (Terminal.put bufferWidth) t := by
  induction s with
  | nil => exact fun _ => rfl
  | cons b s ih =>
      intro t
      rw [printBytes, List.foldl_cons, (hs b (by simp)).printByte, List.foldl_cons, ← printBytes]
      exact ih (fun x hx => hs x (by simp [hx])) _

/-- A text and a line break leave the text behind, cut into rows. -/
theorem printBytes_line (hs : ∀ b ∈ s, Printable b) (ht : t.last.length ≤ bufferWidth) :
    printBytes t (s ++ bytes "\n") =
      ⟨t.above ++ Terminal.cut bufferWidth (t.last ++ s), []⟩ := by
  have hrows := Terminal.foldl_put_rows (by decide) ht s
  have hbreak : printBytes t (s ++ bytes "\n") = (printBytes t s).newLine := by
    rw [printBytes, List.foldl_append]
    rfl
  rw [hbreak, printBytes_printable hs, Terminal.newLine, hrows]

end Texts

/-! ## Typing a line and running it -/

variable {H : Type} {trap : Cfg LockId (Globals H) → Outcome LockId (Globals H) Fatal Unit}
  (pf : Platform H)

section Feed

variable {w₀ : Writer} {b : Bool} {s : List UInt8}

theorem feedAll_snoc_yields {bs : List UInt8} {byte : UInt8} {g g' g'' : Globals H}
    (hbs : (feedAll pf bs).Yields trap g noLock b () g')
    (hbyte : (feed pf byte).Yields trap g' noLock b () g'') :
    (feedAll pf (bs ++ [byte])).Yields trap g noLock b () g'' := by
  rw [feedAll_append]
  exact Yields.bind hbs (Yields.bind hbyte Yields.ret)

variable (trap) in
/-- Printable bytes that fit are appended to the line and put on the screen. -/
theorem feedAll_push (hs : ∀ x ∈ s, Printable x) :
    ∀ {g : Globals H} {l : List UInt8} {t : Terminal UInt8}, g.line.Holds l →
      l.length + s.length ≤ lineCapacity → Writer.Below w₀ g.writer t →
      ∃ g', (feedAll pf s).Yields trap g noLock b () g' ∧ g'.line.Holds (l ++ s) ∧
        g'.executed = g.executed ∧ Writer.Below w₀ g'.writer (printBytes t s) := by
  induction s with
  | nil =>
      intro g l t hl _ ht
      exact ⟨g, Yields.ret, by simpa using hl, rfl, ht⟩
  | cons x s ih =>
      intro g l t hl hlen ht
      rw [List.length_cons] at hlen
      obtain ⟨w, hw, ht'⟩ := ht.writeString [x]
      obtain ⟨line, hfeed, hline⟩ := feed_push_yields trap pf (b := b) (hs x (by simp)) hl
        (by omega) hw
      obtain ⟨g', hrest, hl', hexecuted, h'⟩ := ih (fun y hy => hs y (by simp [hy]))
        (g := { g with fed := g.fed ++ [x], line := line, writer := w, writerReady := true }) hline
        (by rw [List.length_append, List.length_singleton]; omega) ht'
      exact ⟨g', Yields.bind hfeed hrest, by simpa using hl', hexecuted, h'⟩

/-- A line whose command prints one line. -/
theorem execute_println_yields {g : Globals H} {h : LockId → Bool} {l text : List UInt8}
    {w : Writer} (hcommand : command pf l = println text) (hh : WriterFree h)
    (hw : g.writer.writeString (text ++ bytes "\n") = some w) :
    (execute pf l).Yields trap g h b ()
      { g with executed := g.executed ++ [l], writer := w, writerReady := true } := by
  rw [execute_eq, hcommand]
  exact Yields.bind Yields.modify (print_yields hh hw)

/-- The line runs after a line break, and is forgotten. -/
theorem runLine_println_yields {g : Globals H} {l text : List UInt8} {w₁ w₂ : Writer}
    (hl : g.line.Holds l) (hcommand : command pf l = println text)
    (hw₁ : g.writer.writeString (bytes "\n") = some w₁)
    (hw₂ : w₁.writeString (text ++ bytes "\n") = some w₂) :
    (runLine pf).Yields trap g noLock b ()
      { g with
        executed := g.executed ++ [l]
        line := g.line.clear
        writer := w₂
        writerReady := true } := by
  have hprint : (print (bytes "\n")).Yields trap g noLock b ()
      { g with writer := w₁, writerReady := true } := print_yields noLock_writerFree hw₁
  have hread : (Prog.attempt (fun g => g.line.asStr.map fun s => (s, g))
      indexOutOfBounds : Code H (List UInt8)).Yields trap
      { g with writer := w₁, writerReady := true } (Function.update noLock .line true) b l
      { g with writer := w₁, writerReady := true } :=
    Yields.attempt (by rw [hl.asStr]; rfl)
  refine Yields.bind hprint (Yields.withLock rfl (Yields.bind hread ?_))
  exact Yields.bind (execute_println_yields pf hcommand ⟨rfl, rfl⟩ hw₂) Yields.modify

variable (trap) in
/-- Typing a line whose command prints a text: the echo of the line, the
text and the next prompt, each cut into rows of its own. -/
theorem feedAll_println {g : Globals H} {l text : List UInt8} {t : Terminal UInt8}
    (hline : g.line.len = 0) (hl : ∀ x ∈ l, Printable x) (hlen : l.length ≤ lineCapacity)
    (htext : ∀ x ∈ text, Printable x) (hcommand : command pf l = println text)
    (ht : Writer.Below w₀ g.writer t) :
    ∃ g', (feedAll pf (l ++ [0x0A])).Yields trap g noLock b () g' ∧ g'.line.len = 0 ∧
      g'.executed = g.executed ++ [l] ∧ Writer.Below w₀ g'.writer
        ⟨t.above ++ Terminal.cut bufferWidth (t.last ++ l) ++ Terminal.cut bufferWidth text,
          prompt⟩ := by
  obtain ⟨g₁, hfeed, hl₁, hexecuted, h₁⟩ := feedAll_push trap pf (b := b) hl
    (LineBuffer.holds_nil hline) (by simpa using hlen) ht
  obtain ⟨w₁, hw₁, h₂⟩ := h₁.writeString (bytes "\n")
  obtain ⟨w₂, hw₂, h₃⟩ := h₂.writeString (text ++ bytes "\n")
  obtain ⟨w₃, hw₃, h₄⟩ := h₃.writeString prompt
  have henter : (feed pf 0x0A).Yields trap g₁ noLock b ()
      { g₁ with
        fed := g₁.fed ++ [0x0A]
        executed := g₁.executed ++ [l]
        line := g₁.line.clear
        writer := w₃
        writerReady := true } := by
    have hrun : (runLine pf).Yields trap { g₁ with fed := g₁.fed ++ [0x0A] } noLock b () _ :=
      runLine_println_yields pf hl₁ hcommand hw₁ hw₂
    rw [feed_newLine]
    exact Yields.bind (Yields.bind Yields.modify hrun) (print_yields noLock_writerFree hw₃)
  refine ⟨_, feedAll_snoc_yields pf hfeed henter, rfl, by rw [hexecuted], ?_⟩
  have hrows : printBytes (printBytes (printBytes (printBytes t l) (bytes "\n"))
      (text ++ bytes "\n")) prompt =
      ⟨t.above ++ Terminal.cut bufferWidth (t.last ++ l) ++ Terminal.cut bufferWidth text,
        prompt⟩ := by
    have hecho : printBytes (printBytes t l) (bytes "\n") = _ :=
      (List.foldl_append ..).symm.trans (printBytes_line hl ht.width)
    rw [hecho, printBytes_line htext (by simp), printBytes_of_fits prompt_printable]
    · rfl
    · show 0 + prompt.length ≤ bufferWidth
      decide
  rw [hrows] at h₄
  exact h₄

end Feed

/-! ## The command -/

/-- The prompt and nothing else on the bottom row, and nothing typed. -/
structure FreshPrompt (g : Globals H) : Prop where
  row : g.writer.RowHolds (bufferHeight - 1) prompt
  column : g.writer.columnPosition = prompt.length
  line : g.line.len = 0

theorem FreshPrompt.below {g : Globals H} (h : FreshPrompt g) :
    Writer.Below g.writer g.writer ⟨[], prompt⟩ := by
  refine ⟨fun i s hs _ => ?_, fun r c _ _ => rfl, h.column, by decide⟩
  obtain ⟨rfl, rfl⟩ : i = 0 ∧ s = prompt := by
    have hlt := (List.getElem?_eq_some_iff.mp hs).1
    obtain rfl : i = 0 := Nat.lt_one_iff.mp hlt
    exact ⟨rfl, (Option.some.inj hs).symm⟩
  exact h.row

/-- The first prompt is fresh, and so is every later one. -/
theorem Globals.Edits.freshPrompt {g : Globals H} {t : Terminal UInt8}
    (h : g.Edits (Editor.start t prompt)) : FreshPrompt g := by
  have hshows := h.tracks.1
  refine ⟨fun c hc => ?_, hshows.column, h.holds.len⟩
  unfold Writer.character
  rw [hshows.cells _ c (by decide) hc, Terminal.row_bottom (by decide) hshows.rows]
  rfl

variable (trap) in
/-- The first prompt always comes. -/
theorem session_nil_returns {g : Globals H} (hline : g.line.len = 0) (b : Bool) :
    ∃ g', (session pf []).Yields trap g noLock b () g' ∧ FreshPrompt g' ∧
      g'.executed = g.executed := by
  obtain ⟨w, hw, _⟩ := g.writer.clearScreen_tracks
  have hclear : clearScreen.Yields trap g noLock b ()
      { g with writer := w, writerReady := true } := clearScreen_yields noLock_writerFree hw
  obtain ⟨g₁, hg₁⟩ := printWelcome_returns trap (h := noLock) (b := b)
    { g with writer := w, writerReady := true } noLock_writerFree
  have hwelcome : welcome.Yields trap g noLock b () g₁ := Yields.bind hclear hg₁
  obtain ⟨g₂, hg₂⟩ := print_returns trap (h := noLock) (b := b) prompt g₁ noLock_writerFree
  have hsession : (session pf []).Yields trap g noLock b () g₂ :=
    Yields.bind hwelcome (Yields.bind hg₂ Yields.ret)
  have hoff : OffScreen fun g' : Globals H => g'.executed = g.executed :=
    ⟨fun _ _ h => h, fun _ h => h⟩
  have hkeeps : (session pf []).Keeps trap fun g' => g'.executed = g.executed :=
    Keeps.bind (Keeps.bind hoff.clearScreen fun _ => Keeps.bind (hoff.print _) fun _ =>
      Keeps.bind (hoff.print _) fun _ => Keeps.bind (hoff.print _) fun _ => hoff.print _)
      fun _ => Keeps.bind (hoff.print _) fun _ => Triple.ret fun _ h => h
  obtain ⟨t, ht⟩ := hg₂.post printPrompt_triple (hwelcome.post welcome_triple ⟨trivial, hline⟩)
  exact ⟨g₂, hsession, ht.freshPrompt, hsession.post hkeeps rfl⟩

variable (trap) in
/-- And so does the next one after a command that prints one line. -/
theorem session_println {g : Globals H} {l text : List UInt8} (hline : g.line.len = 0)
    (hl : ∀ x ∈ l, Printable x) (hlen : l.length ≤ lineCapacity)
    (htext : ∀ x ∈ text, Printable x) (hcommand : command pf l = println text) (b : Bool) :
    ∃ g', (session pf (l ++ [0x0A])).Yields trap g noLock b () g' ∧ g'.line.len = 0 ∧
      g'.executed = g.executed ++ [l] := by
  obtain ⟨g₁, hprompt, hfresh, hexecuted⟩ := session_nil_returns trap pf hline b
  obtain ⟨g₂, hfeed, hline', hexecuted', _⟩ := feedAll_println trap pf (b := b) hfresh.line hl
    hlen htext hcommand hfresh.below
  refine ⟨g₂, ?_, hline', by rw [hexecuted', hexecuted]⟩
  rw [← List.nil_append (l ++ [0x0A]), session_append]
  exact Yields.bind hprompt hfeed

/-- A text that does not end in a space is all of the argument. -/
theorem command_echo {t : List UInt8} (ht : ∀ x ∈ t, Printable x)
    (hlast : t.getLast? ≠ some 0x20) : command pf (bytes "echo " ++ t) = println t := by
  have hecho : (bytes "echo", cmdEcho) ∈ handlers pf := by simp [handlers]
  have hword : bytes "echo " ++ t = bytes "echo" ++ 0x20 :: t := by
    have hbytes : bytes "echo " = bytes "echo" ++ [0x20] := by decide +kernel
    rw [hbytes, List.append_assoc, List.singleton_append]
  have hself : t.rdropWhile isWhitespace = t := by
    rw [List.rdropWhile_eq_self_iff]
    intro hne hspace
    refine hlast ?_
    rw [List.getLast?_eq_some_getLast hne,
      (ht _ (List.getLast_mem hne)).isWhitespace_iff.mp hspace]
  rw [hword, command_named pf hecho, hself]
  rfl

section Repeats

variable {b : Bool} {g : Globals H} {t : List UInt8}

/-- `echo` shows what was typed. Whatever is on the screen over a fresh
prompt, typing `echo`, a space and any printable text that fits and does
not end in a space, and then a line break, returns. The bottom row holds the
prompt again, the rows over it hold the text cut every 80 characters, the
rows over these hold what was typed, prompt included, and over that is the
screen that was there before, as far as it has not scrolled off. -/
theorem echo_shows_text (hfresh : FreshPrompt g) (ht : ∀ x ∈ t, Printable x)
    (hlast : t.getLast? ≠ some 0x20) (hlen : (bytes "echo " ++ t).length ≤ lineCapacity) :
    ∃ g' typed text, typed = Terminal.cut bufferWidth (prompt ++ (bytes "echo " ++ t)) ∧
      text = Terminal.cut bufferWidth t ∧
      (feedAll pf (bytes "echo " ++ t ++ [0x0A])).Yields trap g noLock b () g' ∧
      g'.writer.columnPosition = 10 ∧ FreshPrompt g' ∧
      (∀ i s, text[i]? = some s →
        g'.writer.RowHolds (bufferHeight - 1 - text.length + i) s) ∧
      (∀ i s, typed[i]? = some s →
        g'.writer.RowHolds (bufferHeight - 1 - text.length - typed.length + i) s) ∧
      ∀ r c, r + (typed.length + text.length) < bufferHeight - 1 → c < bufferWidth →
        g'.writer.character r c = g.writer.character (r + (typed.length + text.length)) c := by
  have hword : (bytes "echo ").length = 5 ∧ ∀ x ∈ bytes "echo ", Printable x := by decide +kernel
  have htyped : ∀ x ∈ bytes "echo " ++ t, Printable x := by
    intro x hx
    rcases List.mem_append.mp hx with hx | hx
    · exact hword.2 x hx
    · exact ht x hx
  obtain ⟨g', hyields, hline, _, hbelow⟩ := feedAll_println trap pf (b := b) hfresh.line
    htyped hlen ht (command_echo pf ht hlast) hfresh.below
  rw [List.nil_append] at hbelow
  have htext2 := Terminal.length_cut bufferWidth t
  have htyped2 := Terminal.length_cut bufferWidth (prompt ++ (bytes "echo " ++ t))
  have hprompt : prompt.length = 10 := by decide +kernel
  rw [List.length_append, List.length_append, hprompt, hword.1] at htyped2
  rw [List.length_append, hword.1] at hlen
  generalize Terminal.cut bufferWidth (prompt ++ (bytes "echo " ++ t)) = typed at *
  generalize Terminal.cut bufferWidth t = text at *
  have habove : (typed ++ text).length = typed.length + text.length := List.length_append
  have hfits : (typed ++ text).length < bufferHeight := by
    simp only [bufferHeight, bufferWidth, lineCapacity] at *
    omega
  refine ⟨g', typed, text, rfl, rfl, hyields, hbelow.column, ⟨hbelow.last, hbelow.column, hline⟩,
    fun i s hs => ?_, fun i s hs => ?_, fun r c hr hc => ?_⟩
  · have hrow := hbelow.row hfits (i := typed.length + i)
      (by rw [List.getElem?_append_right (by omega), Nat.add_sub_cancel_left]; exact hs)
    simp only [habove, bufferHeight] at hrow hfits ⊢
    rw [show 25 - 1 - text.length + i =
      25 - 1 - (typed.length + text.length) + (typed.length + i) by omega]
    exact hrow
  · have hlt := (List.getElem?_eq_some_iff.mp hs).1
    have hrow := hbelow.row hfits (by rw [List.getElem?_append_left hlt]; exact hs)
    simp only [habove] at hrow
    rw [Nat.sub_sub, Nat.add_comm text.length]
    exact hrow
  · rw [← habove] at hr ⊢
    exact hbelow.kept r c hr hc

end Repeats

/-- A text with spaces before and within it, at the first prompt. -/
theorem echo_shows_text_spaces :
    ∃ g₀ g', firstPrompt.Yields (globalsTrapRun smallPlatform)
        (smallStart []).cfg.data.globals noLock false () g₀ ∧
      (feedAll smallPlatform (bytes "echo " ++ bytes " a  b" ++ [0x0A])).Yields
        (globalsTrapRun smallPlatform) g₀ noLock false () g' ∧
      g'.writer.RowHolds 24 prompt ∧ g'.writer.RowHolds 23 (bytes " a  b") := by
  obtain ⟨g₀, hprompt⟩ := firstPrompt_returns (globalsTrapRun smallPlatform)
    (smallStart []).cfg.data.globals false
  obtain ⟨t, h₀⟩ := hprompt.post firstPrompt_triple (show _ = 0 from rfl)
  have hprintable : ∀ x ∈ bytes " a  b", Printable x := by decide +kernel
  obtain ⟨g', typed, text, _, htext, hyields, _, hfresh, hrows, _⟩ :=
    echo_shows_text smallPlatform h₀.freshPrompt hprintable (by decide +kernel) (by decide +kernel)
  have hone : text = [bytes " a  b"] := by
    rw [htext]
    exact Terminal.cut_of_fits (by decide) (by decide +kernel)
  rw [hone] at hrows
  exact ⟨g₀, g', hprompt, hyields, hfresh.row, hrows 0 _ rfl⟩

end ProtoOs.Ref
