import ProtoOs.Proofs.Repeat

/-!
# What the user sees and what Enter runs

Between two line breaks `feed` is the line editor of `Lib.Editor`, so the
question when the cells from the prompt to the cursor spell the prompt and
the line is a question about that editor. It has a simple answer. The
prompt and 70 characters fill a row; a longer line goes on on the next one,
and the prompt moves up. Erasing back to the 70 characters leaves the
cursor at the start of that next row, and there `Writer::backspace` takes
the empty row for an empty line: one more `0x08` shortens the line and
leaves the screen as it is.
-/

namespace ProtoOs.Ref

open ProtoOs.Lib ProtoOs.Lib.Prog

variable {H : Type} {trap : Cfg LockId (Globals H) → Outcome LockId (Globals H) Fatal Unit}

/-! ## Cells -/

/-- The characters displayed from the first cell of the row `n` above the
bottom one up to the cursor. -/
def Writer.cellsFrom (w : Writer) (n : Nat) : List (Option UInt8) :=
  (List.range (n * bufferWidth + w.columnPosition)).map fun i =>
    (w.buffer.read (bufferHeight - 1 - n + i / bufferWidth) (i % bufferWidth)).map
      ScreenChar.asciiCharacter

/-- The cells from a prompt `n` rows above the bottom one spell it and the
line. -/
def Globals.Spells (g : Globals H) (n : Nat) : Prop :=
  ∃ s, g.line.asStr = some s ∧ g.writer.cellsFrom n = (prompt ++ s).map some

/-- A row of the screen, read up to where it is written. -/
theorem Writer.Shows.read_row {w : Writer} {t : Terminal UInt8} (h : w.Shows t) {r : Nat}
    {l : List UInt8} (hr : r < bufferHeight) (hl : t.row bufferHeight r = l)
    (hlen : l.length ≤ bufferWidth) :
    (List.range l.length).map (fun i => (w.buffer.read r i).map ScreenChar.asciiCharacter) =
      l.map some := by
  refine List.ext_getElem (by simp) fun i hi _ => ?_
  simp only [List.length_map, List.length_range] at hi
  simp only [List.getElem_map, List.getElem_range]
  rw [h.cells r i hr (by omega), hl, List.getElem?_eq_getElem hi]
  rfl

theorem Writer.Shows.cellsFrom_zero {w : Writer} {t : Terminal UInt8} (h : w.Shows t) :
    w.cellsFrom 0 = t.last.map some := by
  have hwidth := h.width
  rw [← h.read_row (show bufferHeight - 1 < bufferHeight by decide)
    (Terminal.row_bottom (by decide) h.rows) hwidth]
  unfold cellsFrom
  rw [h.column, Nat.zero_mul, Nat.zero_add]
  refine List.map_congr_left fun i hi => ?_
  have hlt : i < bufferWidth := by
    rw [List.mem_range] at hi
    omega
  rw [Nat.div_eq_of_lt hlt, Nat.mod_eq_of_lt hlt, Nat.sub_zero, Nat.add_zero]

/-- A prompt on the row above the bottom one, which is full. -/
theorem Writer.Shows.cellsFrom_one {w : Writer} {t : Terminal UInt8} (h : w.Shows t)
    {above : List (List UInt8)} {l : List UInt8} (habove : t.above = above ++ [l])
    (hl : l.length = bufferWidth) : w.cellsFrom 1 = (l ++ t.last).map some := by
  have hwidth := h.width
  have hover := h.read_row (show bufferHeight - 2 < bufferHeight by decide)
    (Terminal.row_over_bottom (by decide) h.rows habove) (Nat.le_of_eq hl)
  have hbottom := h.read_row (show bufferHeight - 1 < bufferHeight by decide)
    (Terminal.row_bottom (by decide) h.rows) hwidth
  unfold cellsFrom
  rw [h.column, Nat.one_mul, List.range_add, List.map_append, List.map_append, List.map_map]
  congr 1
  · rw [← hover, hl]
    refine List.map_congr_left fun i hi => ?_
    rw [List.mem_range] at hi
    rw [Nat.div_eq_of_lt hi, Nat.mod_eq_of_lt hi]
    rfl
  · rw [← hbottom]
    refine List.map_congr_left fun i hi => ?_
    have hlt : i < bufferWidth := by
      rw [List.mem_range] at hi
      omega
    simp only [Function.comp]
    rw [Nat.add_div_left _ (by decide), Nat.div_eq_of_lt hlt, Nat.add_mod_left,
      Nat.mod_eq_of_lt hlt]
    rfl

/-- Where the editor's rows are the line, the cells are. -/
theorem Globals.Edits.spells {g : Globals H} {e : Editor UInt8} (h : g.Edits e)
    (hwhole : e.Whole bufferWidth prompt) : g.Spells e.scrolled := by
  refine ⟨e.line, h.holds.asStr, ?_⟩
  cases hwhole with
  | first hn hlast _ => rw [hn, h.tracks.1.cellsFrom_zero, hlast]
  | second hn habove hlast hlen =>
      obtain ⟨above, habove⟩ := habove
      have hfull : (prompt ++ e.line.take (Editor.firstRow bufferWidth prompt)).length =
          bufferWidth := by
        rw [List.length_append, List.length_take, Nat.min_eq_left hlen]
        decide
      rw [hn, h.tracks.1.cellsFrom_one habove hfull, hlast, List.append_assoc,
        List.take_append_drop]

/-! ## Runs of the prompt -/

/-- The echo of the byte finds the row full and scrolls the screen. -/
def Globals.Scrolls (g : Globals H) (byte : UInt8) : Prop :=
  Printable byte ∧ g.line.len < lineCapacity ∧ bufferWidth ≤ g.writer.columnPosition

instance (g : Globals H) (byte : UInt8) : Decidable (g.Scrolls byte) :=
  inferInstanceAs (Decidable (_ ∧ _ ∧ _))

variable (pf : Platform H)

/-- Bytes fed one after the other, and the rows a prompt has moved up since
the first. -/
inductive Typed (trap : Cfg LockId (Globals H) → Outcome LockId (Globals H) Fatal Unit)
    (b : Bool) (g₀ : Globals H) : List UInt8 → Globals H → Nat → Prop
  | nil : Typed trap b g₀ [] g₀ 0
  | snoc {bs : List UInt8} {g g' : Globals H} {n : Nat} {byte : UInt8}
      (run : Typed trap b g₀ bs g n) (fed : (feed pf byte).Yields trap g noLock b () g') :
      Typed trap b g₀ (bs ++ [byte]) g' (n + if g.Scrolls byte then 1 else 0)

section Runs

variable {b : Bool} {g₀ g : Globals H} {t : Terminal UInt8} {bs : List UInt8} {n : Nat}

/-- The editor counts the same rows. -/
theorem Globals.Edits.scrolled_key {e : Editor UInt8} (h : g.Edits e) (byte : UInt8) :
    (e.key bufferWidth lineCapacity (keyOf byte)).scrolled =
      e.scrolled + if g.Scrolls byte then 1 else 0 := by
  have hlen := h.holds.len
  have hcol := h.tracks.1.column
  have hwidth := h.tracks.1.width
  unfold keyOf
  split <;> rename_i he
  · have hno : ¬g.Scrolls byte := fun hs => absurd (he ▸ hs.1.1) (by decide)
    simp only [Editor.key, Editor.erase, if_neg hno]
    split <;> rfl
  · split <;> rename_i hb
    · simp only [Editor.key, Editor.type]
      by_cases hroom : e.line.length < lineCapacity
      · by_cases hfull : e.term.last.length = bufferWidth
        · have hs : g.Scrolls byte := ⟨hb, by omega, by omega⟩
          simp only [if_pos hroom, if_pos hfull, if_pos hs]
        · have hno : ¬g.Scrolls byte := fun hs => hfull (by have := hs.2.2; omega)
          simp only [if_pos hroom, if_neg hfull, if_neg hno, Nat.add_zero]
      · have hno : ¬g.Scrolls byte := fun hs => hroom (by have := hs.2.1; omega)
        simp only [if_neg hroom, if_neg hno, Nat.add_zero]
    · have hno : ¬g.Scrolls byte := fun hs => hb hs.1
      simp only [Editor.key, if_neg hno, Nat.add_zero]

/-- A run of the prompt is a run of the editor. -/
theorem Typed.edits (h₀ : g₀.Edits (Editor.start t prompt)) (hbs : 0x0A ∉ bs)
    (h : Typed pf trap b g₀ bs g n) :
    g.Edits ((Editor.start t prompt).keys bufferWidth lineCapacity (bs.map keyOf)) ∧
      n = ((Editor.start t prompt).keys bufferWidth lineCapacity (bs.map keyOf)).scrolled := by
  induction h with
  | nil => exact ⟨h₀, rfl⟩
  | @snoc bs g g' n byte _ hfed ih =>
      rw [List.mem_append, not_or, List.mem_singleton] at hbs
      obtain ⟨hedits, hn⟩ := ih hbs.1
      obtain ⟨g'', hfed', hedits'⟩ := feed_edits trap pf (b := b) hedits (Ne.symm hbs.2)
      obtain rfl := (hfed.unique hfed').2
      rw [List.map_append, List.map_singleton, Editor.keys_snoc]
      exact ⟨hedits', by rw [hedits.scrolled_key, hn]⟩

variable (trap) in
/-- Every sequence of bytes without a line break can be typed. -/
theorem exists_typed (h₀ : g₀.Edits (Editor.start t prompt)) (hbs : 0x0A ∉ bs) :
    ∃ g n, Typed pf trap b g₀ bs g n := by
  induction bs using List.reverseRecOn with
  | nil => exact ⟨_, _, .nil⟩
  | append_singleton bs byte ih =>
      rw [List.mem_append, not_or, List.mem_singleton] at hbs
      obtain ⟨g, n, h⟩ := ih hbs.1
      obtain ⟨g', hfed, _⟩ := feed_edits trap pf (b := b) (h.edits pf h₀ hbs.1).1 (Ne.symm hbs.2)
      exact ⟨g', _, h.snoc hfed⟩

/-- The line goes back over the end of the prompt's row. -/
abbrev GoesBack (bs : List UInt8) : Prop :=
  Editor.Overrun bufferWidth lineCapacity prompt (bs.map keyOf)

theorem prompt_fits : prompt.length < bufferWidth := by decide

theorem line_fits : lineCapacity ≤ Editor.firstRow bufferWidth prompt + bufferWidth := by decide

theorem Typed.spells (h₀ : g₀.Edits (Editor.start t prompt)) (hbs : 0x0A ∉ bs)
    (hback : ¬GoesBack bs) (h : Typed pf trap b g₀ bs g n) : g.Spells n := by
  obtain ⟨hedits, rfl⟩ := h.edits pf h₀ hbs
  exact hedits.spells (Editor.whole_of_not_overrun prompt_fits line_fits t hback).1

/-- One step back too far, and the cells show more than the line has. -/
theorem Typed.not_spells (h₀ : g₀.Edits (Editor.start t prompt)) (hbs : 0x0A ∉ bs)
    (hback : GoesBack bs) (h : Typed pf trap b g₀ bs g n) : ¬g.Spells n := by
  obtain ⟨hedits, rfl⟩ := h.edits pf h₀ hbs
  have hahead := hback.ahead prompt_fits line_fits t
  rintro ⟨s, hs, hcells⟩
  have hline := hedits.holds.asStr
  rw [hs] at hline
  obtain rfl := Option.some.inj hline
  have hlength := congrArg List.length hcells
  simp only [Writer.cellsFrom, List.length_map, List.length_range, List.length_append] at hlength
  rw [hedits.tracks.1.column] at hlength
  unfold Editor.Ahead at hahead
  omega

end Runs

/-- One character past the end of the prompt's row, and a step back. -/
def toRowEnd : List UInt8 := List.replicate 71 0x61 ++ [0x08]

theorem toRowEnd_length :
    Editor.lineLength lineCapacity (toRowEnd.map keyOf) = Editor.firstRow bufferWidth prompt := by
  decide +kernel

theorem toRowEnd_longer : ∃ q, q <+: toRowEnd.map keyOf ∧
    Editor.firstRow bufferWidth prompt < Editor.lineLength lineCapacity q := by
  refine ⟨(List.replicate 71 (0x61 : UInt8)).map keyOf, ?_, by decide +kernel⟩
  rw [toRowEnd, List.map_append]
  exact List.prefix_append _ _

/-- So far nothing is wrong. -/
theorem not_goesBack_toRowEnd : ¬GoesBack toRowEnd := by
  rintro ⟨q, hq, hlen, _⟩
  rw [toRowEnd, List.map_append, List.map_singleton] at hq
  rcases Editor.prefix_snoc_iff.mp hq with hq | heq
  · have hmem := hq.subset (List.mem_append_right q (List.mem_singleton_self Key.erase))
    rw [List.map_replicate, List.mem_replicate] at hmem
    cases hmem.2
  · obtain ⟨rfl, _⟩ := List.append_inj' heq rfl
    exact absurd hlen (by decide +kernel)

/-- Where they have been typed, the prompt is one row up. -/
theorem toRowEnd_scrolled (t : Terminal UInt8) :
    ((Editor.start t prompt).keys bufferWidth lineCapacity (toRowEnd.map keyOf)).scrolled = 1 :=
  (Editor.whole_of_not_overrun prompt_fits line_fits t not_goesBack_toRowEnd).2.mpr
    toRowEnd_longer

section Spelling

variable {b : Bool} {g g₀ : Globals H} {bs : List UInt8}

/-- Exactly when what the user sees is what Enter will run: the bytes are
taken, and as long as the prompt has not scrolled off, the cells from its
first one to the cursor spell the prompt and the line if and only if no
`0x08` was fed while the line ended exactly at the end of the prompt's row
after having been longer. -/
theorem screen_spells_line_iff (hline : g.line.len = 0)
    (hprompt : firstPrompt.Yields trap g noLock b () g₀) (hbs : 0x0A ∉ bs) :
    ∃ g' n, Typed pf trap b g₀ bs g' n ∧
      (n < bufferHeight → (g'.Spells n ↔ ¬GoesBack bs)) := by
  obtain ⟨t, h₀⟩ := hprompt.post firstPrompt_triple hline
  obtain ⟨g', n, htyped⟩ := exists_typed trap pf (b := b) h₀ hbs
  refine ⟨g', n, htyped, fun _ => ⟨fun hspells hback => ?_, htyped.spells pf h₀ hbs⟩⟩
  exact htyped.not_spells pf h₀ hbs hback hspells

end Spelling

theorem command_echo_oi : command pf (bytes "echo oi") = println (bytes "oi") := by
  have hsplit : bytes "echo oi" = bytes "echo " ++ bytes "oi" := by decide +kernel
  rw [hsplit]
  exact command_echo pf (by decide +kernel) (by decide +kernel)

/-- After a command, past the end of the prompt's row: the cells are right. -/
theorem screen_spells_line_iff_small :
    ∃ g g₀ g', (session smallPlatform (bytes "echo oi" ++ [0x0A])).Yields
        (globalsTrapRun smallPlatform) (smallStart []).cfg.data.globals noLock false () g ∧
      g.executed = [bytes "echo oi"] ∧
      firstPrompt.Yields (globalsTrapRun smallPlatform) g noLock false () g₀ ∧
      Typed smallPlatform (globalsTrapRun smallPlatform) false g₀ toRowEnd g' 1 ∧
      g'.Spells 1 := by
  obtain ⟨g, hsession, hline, hexecuted⟩ := session_println (globalsTrapRun smallPlatform)
    smallPlatform (g := (smallStart []).cfg.data.globals) rfl
    (show ∀ x ∈ bytes "echo oi", Printable x by decide +kernel) (by decide +kernel)
    (show ∀ x ∈ bytes "oi", Printable x by decide +kernel) (command_echo_oi smallPlatform) false
  obtain ⟨g₀, hprompt⟩ := firstPrompt_returns (globalsTrapRun smallPlatform) g false
  have hbs : 0x0A ∉ toRowEnd := by decide
  obtain ⟨g', n, htyped, hiff⟩ := screen_spells_line_iff smallPlatform hline hprompt hbs
  obtain ⟨t, h₀⟩ := hprompt.post firstPrompt_triple hline
  obtain rfl : n = 1 := (htyped.edits smallPlatform h₀ hbs).2.trans (toRowEnd_scrolled t)
  exact ⟨g, g₀, g', hsession, hexecuted, hprompt, htyped,
    (hiff (by decide)).mpr not_goesBack_toRowEnd⟩

/-- One step more is on the line and not on the screen, where the prompt is
one row up. -/
theorem screen_differs_past_row_end :
    ∃ g₀ g, firstPrompt.Yields (globalsTrapRun smallPlatform)
        (smallStart []).cfg.data.globals noLock false () g₀ ∧
      Typed smallPlatform (globalsTrapRun smallPlatform) false g₀ (toRowEnd ++ [0x08]) g 1 ∧
      ¬g.Spells 1 := by
  have hline : (smallStart []).cfg.data.globals.line.len = 0 := rfl
  have hbs : 0x0A ∉ toRowEnd ++ [0x08] := by decide
  have hback : GoesBack (toRowEnd ++ [0x08]) := by
    refine ⟨toRowEnd.map keyOf, ?_, toRowEnd_length, toRowEnd_longer⟩
    rw [List.map_append]
    exact List.prefix_refl _
  obtain ⟨g₀, hprompt⟩ := firstPrompt_returns (globalsTrapRun smallPlatform)
    (smallStart []).cfg.data.globals false
  obtain ⟨t, h₀⟩ := hprompt.post firstPrompt_triple hline
  obtain ⟨g, n, htyped⟩ := exists_typed (globalsTrapRun smallPlatform) smallPlatform
    (b := false) h₀ hbs
  have hone : n = 1 := by
    rw [(htyped.edits smallPlatform h₀ hbs).2, List.map_append, List.map_singleton,
      Editor.keys_snoc]
    exact (Editor.erase_scrolled _).trans (toRowEnd_scrolled t)
  subst hone
  exact ⟨g₀, g, hprompt, htyped, htyped.not_spells smallPlatform h₀ hbs hback⟩

end ProtoOs.Ref
