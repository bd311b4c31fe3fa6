import ProtoOs.Proofs.Echo

/-!
# A backspace stays on the line

`feed` asks `LINE` whether there is anything to take back, and
`Writer::backspace` blanks the cell before the column; neither looks at the
other. They agree because the prompt is a line editor: the row being written
ends as the line does, so the cell is that of the character taken from the
line. And everything that was on the screen when the prompt had been printed
stands where it stood, or as many rows higher as the echo has started since
(`Writer.StandsHigher`), before a backspace as after it: the rows of earlier
lines and of the output of commands, and the prompt.
-/

namespace ProtoOs.Ref

open ProtoOs.Lib ProtoOs.Lib.Prog

variable {H : Type} {trap : Cfg LockId (Globals H) → Outcome LockId (Globals H) Fatal Unit}

/-! ## The cell that is blanked -/

namespace Writer

/-- The one cell of the buffer that differs is the one before the column on
the bottom row, and it displayed `x`. -/
structure Erased (w w' : Writer) (x : UInt8) : Prop where
  column : 0 < w.columnPosition
  here : w.character (bufferHeight - 1) (w.columnPosition - 1) = some x
  changed : w'.buffer.read (bufferHeight - 1) (w.columnPosition - 1) ≠
    w.buffer.read (bufferHeight - 1) (w.columnPosition - 1)
  elsewhere : ∀ r c, (r, c) ≠ (bufferHeight - 1, w.columnPosition - 1) →
    w'.buffer.read r c = w.buffer.read r c

/-- What `w₀` displayed, up to its column on the bottom row, `w` displays `n`
rows higher, as far as there are rows. -/
def StandsHigher (w₀ w : Writer) (n : Nat) : Prop :=
  ∀ r c, r + n < bufferHeight → c < bufferWidth →
    (r + n < bufferHeight - 1 ∨ c < w₀.columnPosition) →
    w.character r c = w₀.character (r + n) c

/-- A backspace blanks the cell before the column, if there is one. -/
theorem backspace_cells {w w' : Writer} (hcol : w.columnPosition ≤ bufferWidth)
    (h : w.backspace = some w') (r c : Nat) :
    w'.buffer.read r c =
      if w.columnPosition ≠ 0 ∧ r = bufferHeight - 1 ∧ c = w.columnPosition - 1
      then some w.blank else w.buffer.read r c := by
  unfold backspace at h
  split at h <;> rename_i hz
  · obtain rfl := Option.some.inj h
    rw [if_neg (fun hn => hn.1 hz)]
  · obtain ⟨b, hb, hread⟩ := w.buffer.write_spec
      (show bufferHeight - 1 < bufferHeight by decide)
      (show w.columnPosition - 1 < bufferWidth by omega) w.blank
    simp only [blank] at hb h hread ⊢
    rw [hb] at h
    obtain rfl := Option.some.inj h
    simp only [moveHardwareCursor, hread, hz, ne_eq, not_false_eq_true, true_and]

/-- On a row that ends in `x`, nothing but the cell of that `x` changes. -/
theorem backspace_erased {w w' : Writer} {t : Terminal UInt8} (ht : w.Shows t)
    (h : w.backspace = some w') {r : List UInt8} {x : UInt8} (hlast : t.last = r ++ [x]) :
    (∀ r c, w'.buffer.read r c = w.buffer.read r c) ∨ w.Erased w' x := by
  have hcol : w.columnPosition = r.length + 1 := by rw [ht.column, hlast]; simp
  have hwidth := ht.column_le
  have hcells := backspace_cells hwidth h
  have hbefore : w.columnPosition - 1 = r.length := by omega
  have hcell : w.character (bufferHeight - 1) (w.columnPosition - 1) = some x := by
    unfold character
    rw [hbefore, ht.cells _ _ (by decide) (by omega), Terminal.row_bottom (by decide) ht.rows,
      hlast]
    simp
  have hother : ∀ r' c', (r', c') ≠ (bufferHeight - 1, w.columnPosition - 1) →
      w'.buffer.read r' c' = w.buffer.read r' c' := by
    intro r' c' hne
    rw [hcells, if_neg]
    rintro ⟨_, rfl, rfl⟩
    exact hne rfl
  by_cases hsame : w'.buffer.read (bufferHeight - 1) (w.columnPosition - 1) =
      w.buffer.read (bufferHeight - 1) (w.columnPosition - 1)
  · left
    intro r' c'
    by_cases hrc : (r', c') = (bufferHeight - 1, w.columnPosition - 1)
    · obtain ⟨rfl, rfl⟩ := Prod.mk.inj hrc
      exact hsame
    · exact hother r' c' hrc
  · exact .inr ⟨by omega, hcell, hsame, hother⟩

end Writer

/-- What stays on the terminal stands higher on the screen. -/
theorem Globals.Edits.standsHigher {g₀ g : Globals H} {e₀ e : Editor UInt8} (h₀ : g₀.Edits e₀)
    (h : g.Edits e) (hstays : e.Stays e₀.term) : g₀.writer.StandsHigher g.writer e.scrolled := by
  have hshows₀ := h₀.tracks.1
  have hshows := h.tracks.1
  intro r c hr hc hshown
  obtain ⟨s, hrow, hs⟩ := hstays.row hshows₀.rows hr
  unfold Writer.character
  rw [hshows.cells r c (by omega) hc, hshows₀.cells (r + e.scrolled) c hr hc, hrow]
  simp only [Option.map_some, Option.some.injEq]
  rcases hshown with hover | hcol
  · rw [hs (by omega), List.append_nil]
  · -- On the row of the prompt, the line comes after the column.
    by_cases hover : r + e.scrolled + 1 < bufferHeight
    · rw [hs hover, List.append_nil]
    · have hbottom : r + e.scrolled = bufferHeight - 1 := by omega
      rw [hbottom, Terminal.row_bottom (by decide) hshows₀.rows,
        List.getElem?_append_left (by rw [← hshows₀.column]; exact hcol)]

/-! ## A backspace at the prompt -/

variable (pf : Platform H)

section Feed

variable {g : Globals H} {b : Bool} {e : Editor UInt8}

variable (trap) in
/-- A `0x08` takes the same character from the line and from the screen, and
is a key of the editor. -/
theorem feed_backspace (h : g.Edits e) (haligned : e.Aligned prompt) :
    ∃ g', (feed pf 0x08).Yields trap g noLock b () g' ∧ g'.Edits e.erase ∧
      ((∀ r c, g'.writer.buffer.read r c = g.writer.buffer.read r c) ∨
        ∃ s x, e.line = s ++ [x] ∧ g.line.asStr = some (s ++ [x]) ∧ g'.line.asStr = some s ∧
          g.writer.Erased g'.writer x) := by
  obtain ⟨g', hyields, hedits⟩ :=
    feed_edits trap pf (b := b) h (show (0x08 : UInt8) ≠ 0x0A by decide)
  have hkey : e.key bufferWidth lineCapacity (keyOf 0x08) = e.erase := rfl
  rw [hkey] at hedits
  refine ⟨g', hyields, hedits, ?_⟩
  rcases List.eq_nil_or_concat e.line with hnil | ⟨s, x, hs⟩
  · have hnothing : (feed pf 0x08).Yields trap g noLock b () _ :=
      feed_pop_nil_yields pf (hnil ▸ h.holds)
    obtain rfl := (hyields.unique hnothing).2
    exact .inl fun _ _ => rfl
  · rw [List.concat_eq_append] at hs
    have hholds : g.line.Holds (s ++ [x]) := hs ▸ h.holds
    obtain ⟨w, hw, _⟩ := Writer.backspace_tracks h.tracks
    obtain ⟨l, hpop, hl⟩ := feed_pop_yields trap pf (b := b) hholds hw
    obtain rfl := (hyields.unique hpop).2
    by_cases hlast : e.term.last = []
    · -- The row being written is empty, and the row above is out of reach.
      left
      intro r c
      have hcol : g.writer.columnPosition = 0 := by
        rw [h.tracks.1.column, hlast]
        rfl
      rw [Writer.backspace_cells h.tracks.1.column_le hw, if_neg fun hn => hn.1 hcol]
    · obtain ⟨r, hr⟩ := haligned.last_eq hs hlast
      rcases Writer.backspace_erased h.tracks.1 hw hr with hsame | herased
      · exact .inl hsame
      · exact .inr ⟨s, x, hs, hholds.asStr, hl.asStr, herased⟩

theorem Typed.feedAll {g₀ : Globals H} {bs : List UInt8} {n : Nat}
    (h : Typed pf trap b g₀ bs g n) : (feedAll pf bs).Yields trap g₀ noLock b () g := by
  induction h with
  | nil => exact Yields.ret
  | snoc _ hfed ih => exact feedAll_snoc_yields pf ih hfed

end Feed

/-! ## The last prompt of a session -/

/-- The bytes up to the last line break, and those after it. -/
theorem split_at_newLine (bs : List UInt8) : ∃ lines typed, bs = lines ++ typed ∧
    (lines = [] ∨ lines.getLast? = some 0x0A) ∧ 0x0A ∉ typed := by
  induction bs using List.reverseRecOn with
  | nil => exact ⟨[], [], rfl, .inl rfl, List.not_mem_nil⟩
  | append_singleton bs byte ih =>
      by_cases hbyte : byte = 0x0A
      · exact ⟨bs ++ [byte], [], (List.append_nil _).symm, .inr (by simp [hbyte]),
          List.not_mem_nil⟩
      · obtain ⟨lines, typed, rfl, hlines, htyped⟩ := ih
        refine ⟨lines, typed ++ [byte], List.append_assoc .., hlines, ?_⟩
        simp [htyped, Ne.symm hbyte]

section Session

variable {g : Globals H} {b shadow : Bool} {c : Cfg LockId (Globals H)}

/-- Where nothing has been typed since the last line break, the prompt has
just been printed. -/
theorem session_start {lines : List UInt8} (hline : g.line.len = 0)
    (hlines : lines = [] ∨ lines.getLast? = some 0x0A)
    (hrun : (session pf lines).run (globalsTrapRun pf) ⟨g, noLock, b, shadow⟩ = .done () c) :
    ∃ t, c.data.Edits (Editor.start t prompt) := by
  rcases hlines with rfl | hlast
  · obtain ⟨_, c₁, hwelcome, hrun⟩ := Outcome.bind_eq_done ((run_bind ..).symm.trans hrun)
    obtain ⟨_, c₂, hprompt, hrun⟩ := Outcome.bind_eq_done ((run_bind ..).symm.trans hrun)
    obtain ⟨_, rfl⟩ := Outcome.done.inj hrun
    exact printPrompt_triple c₁ _ c₂ (welcome_triple _ _ c₁ ⟨trivial, hline⟩ hwelcome) hprompt
  · obtain ⟨before, rfl⟩ := List.getLast?_eq_some_iff.mp hlast
    rw [session_append, run_bind] at hrun
    obtain ⟨_, c₁, hbefore, hrun⟩ := Outcome.bind_eq_done hrun
    obtain ⟨_, c₂, hfeed, hrun⟩ := Outcome.bind_eq_done ((run_bind ..).symm.trans hrun)
    obtain ⟨_, rfl⟩ := Outcome.done.inj hrun
    obtain ⟨⟨e, he, _⟩, _⟩ := session_atPrompt pf hline hbefore
    rw [feed_newLine] at hfeed
    exact Triple.bind (untilPrompt_triple pf) (fun _ => printPrompt_triple) c₁ _ c₂
      ⟨_, he.tracks⟩ hfeed

/-- In every session, whatever bytes are fed and whatever commands return in
between: the first prompt and every later one are printed with the column
at 0. Since the last of them, printed in `c₀`, bytes that are no line breaks
have been typed and the screen has moved up by `n` rows, and all that was on
the screen then is still there. A `0x08` returns and leaves it there. It
leaves all cells as they were, or changes exactly one: the one before the
column on the bottom row, past the prompt if this is the prompt's row, which
displayed the character that the `0x08` removes from the end of `LINE`. -/
theorem backspace_stays_on_line {bs : List UInt8} (hline : g.line.len = 0)
    (hrun : (session pf bs).run (globalsTrapRun pf) ⟨g, noLock, b, shadow⟩ = .done () c) :
    (∀ c₁, welcome.run (globalsTrapRun pf) ⟨g, noLock, b, shadow⟩ = .done () c₁ →
      c₁.data.writer.columnPosition = 0) ∧
    (∀ c₁, (untilPrompt pf).run (globalsTrapRun pf) c = .done () c₁ →
      c₁.data.writer.columnPosition = 0) ∧
    ∃ lines typed c₀ n, bs = lines ++ typed ∧ (lines = [] ∨ lines.getLast? = some 0x0A) ∧
      0x0A ∉ typed ∧
      (session pf lines).run (globalsTrapRun pf) ⟨g, noLock, b, shadow⟩ = .done () c₀ ∧
      FreshPrompt c₀.data ∧
      Typed pf (globalsTrapRun pf) c₀.ifl c₀.data typed c.data n ∧
      c₀.data.writer.StandsHigher c.data.writer n ∧
      ∃ c', (feed pf 0x08).run (globalsTrapRun pf) c = .done () c' ∧
        c₀.data.writer.StandsHigher c'.data.writer n ∧
        ((∀ row col, c'.data.writer.buffer.read row col = c.data.writer.buffer.read row col) ∨
          ∃ s x, c.data.line.asStr = some (s ++ [x]) ∧ c'.data.line.asStr = some s ∧
            c.data.writer.Erased c'.data.writer x ∧
            (n = 0 → prompt.length < c.data.writer.columnPosition)) := by
  obtain ⟨⟨e', he', _⟩, hheld⟩ := session_atPrompt pf hline hrun
  refine ⟨fun c₁ hc₁ => ?_, fun c₁ hc₁ => ?_, ?_⟩
  · exact (welcome_triple _ _ c₁ ⟨trivial, hline⟩ hc₁).1.column
  · exact (untilPrompt_triple pf c _ c₁ ⟨_, he'.tracks⟩ hc₁).1.column
  · obtain ⟨lines, typed, rfl, hlines, htyped⟩ := split_at_newLine bs
    rw [session_append, run_bind] at hrun
    obtain ⟨_, c₀, hsession, hfeedAll⟩ := Outcome.bind_eq_done hrun
    obtain ⟨t, h₀⟩ := session_start pf hline hlines hsession
    have hheld₀ := (session_atPrompt pf hline hsession).2
    -- What has been typed since the prompt is a run of the editor.
    obtain ⟨g₁, n, hrun₁⟩ := exists_typed (globalsTrapRun pf) pf (b := c₀.ifl) h₀ htyped
    obtain ⟨_, hdata, _⟩ := (hrun₁.feedAll pf).eq_of_run rfl hheld₀ rfl hfeedAll
    rw [← hdata] at hrun₁
    obtain ⟨hedits, hn⟩ := hrun₁.edits pf h₀ htyped
    obtain ⟨haligned, hstays⟩ : ((Editor.start t prompt).keys bufferWidth lineCapacity
        (typed.map keyOf)).Aligned prompt ∧ ((Editor.start t prompt).keys bufferWidth lineCapacity
        (typed.map keyOf)).Stays (Editor.start t prompt).term :=
      ⟨(Editor.start_aligned t).keys _, (Editor.start_stays t).keys _⟩
    generalize (Editor.start t prompt).keys bufferWidth lineCapacity (typed.map keyOf) = e at *
    obtain ⟨g', hyields, hedits', hcells⟩ :=
      feed_backspace (globalsTrapRun pf) pf (b := c.ifl) hedits haligned
    obtain ⟨shadow', hfeed⟩ := hyields c.shadow
    rw [← hheld] at hfeed
    have hhigher := h₀.standsHigher hedits hstays
    have hhigher' := h₀.standsHigher hedits' hstays.erase
    rw [Editor.erase_scrolled] at hhigher'
    rw [← hn] at hhigher hhigher'
    refine ⟨lines, typed, c₀, n, rfl, hlines, htyped, hsession, h₀.freshPrompt, hrun₁, hhigher, _,
      hfeed, hhigher', ?_⟩
    rcases hcells with hsame | ⟨s, x, hs, hread, hread', herased⟩
    · exact .inl hsame
    · refine .inr ⟨s, x, hread, hread', herased, fun hzero => ?_⟩
      cases hstays with
      | first _ _ hlast =>
          have hlast' : e.term.last = prompt ++ e.line := hlast
          rw [hedits.tracks.1.column, hlast', hs]
          simp only [List.length_append, List.length_singleton]
          omega
      | later _ rest hn' _ => omega

end Session

/-! ## Past the end of a row -/

/-- One letter more than fit after the prompt. -/
def pastRowEnd : List UInt8 := List.replicate 71 0x61

/-- A command, and then these. -/
def echoPastRowEnd : List UInt8 := bytes "echo oi" ++ [0x0A] ++ pastRowEnd

/-- The last of them is on a row of its own. -/
theorem echoPastRowEnd_returns :
    ∃ c, (session smallPlatform echoPastRowEnd).run (globalsTrapRun smallPlatform)
        ⟨(smallStart []).cfg.data.globals, noLock, false, false⟩ = .done () c ∧
      c.held = noLock ∧ c.data.executed = [bytes "echo oi"] ∧ c.data.line.Holds pastRowEnd ∧
      c.data.writer.columnPosition = 1 ∧ c.data.writer.RowHolds (bufferHeight - 1) [0x61] := by
  obtain ⟨g₁, hsession, hline, hexecuted⟩ := session_println (globalsTrapRun smallPlatform)
    smallPlatform (g := (smallStart []).cfg.data.globals) rfl
    (show ∀ x ∈ bytes "echo oi", Printable x by decide +kernel) (by decide +kernel)
    (show ∀ x ∈ bytes "oi", Printable x by decide +kernel) (command_echo_oi smallPlatform) false
  obtain ⟨c₁, hrun₁, hdata₁, _⟩ := hsession.run_eq (c := ⟨_, noLock, false, false⟩) rfl rfl rfl
  obtain ⟨t, h₀⟩ := session_start smallPlatform rfl (.inr (by simp)) hrun₁
  rw [hdata₁] at h₀
  obtain ⟨g₂, hfeed, hholds, hexecuted', hbelow⟩ : ∃ g₂, (feedAll smallPlatform
      pastRowEnd).Yields (globalsTrapRun smallPlatform) g₁ noLock false () g₂ ∧
      g₂.line.Holds ([] ++ pastRowEnd) ∧ g₂.executed = g₁.executed ∧
      Writer.Below g₁.writer g₂.writer (printBytes ⟨[], prompt⟩ pastRowEnd) :=
    feedAll_push _ smallPlatform (by decide +kernel) (LineBuffer.holds_nil hline) (by decide)
      h₀.freshPrompt.below
  have hboth : (session smallPlatform echoPastRowEnd).Yields (globalsTrapRun smallPlatform)
      (smallStart []).cfg.data.globals noLock false () g₂ := by
    rw [echoPastRowEnd, session_append]
    exact Yields.bind hsession hfeed
  obtain ⟨c, hrun, rfl, hheld, _⟩ := hboth.run_eq (c := ⟨_, noLock, false, false⟩) rfl rfl rfl
  have hlast : (printBytes ⟨[], prompt⟩ pastRowEnd).last = [0x61] := by decide +kernel
  have hrow := hbelow.last
  have hcolumn := hbelow.column
  rw [hlast] at hrow hcolumn
  exact ⟨c, hrun, hheld, hexecuted'.trans hexecuted, hholds, hcolumn, hrow⟩

/-- The first backspace blanks it; the second takes a letter from the line
and leaves the screen. -/
theorem backspace_stays_on_line_small :
    ∃ c c' c'', (session smallPlatform echoPastRowEnd).run (globalsTrapRun smallPlatform)
        ⟨(smallStart []).cfg.data.globals, noLock, false, false⟩ = .done () c ∧
      c.data.executed = [bytes "echo oi"] ∧ c.data.writer.columnPosition = 1 ∧
      (feed smallPlatform 0x08).run (globalsTrapRun smallPlatform) c = .done () c' ∧
      c'.data.line.asStr = some (List.replicate 70 0x61) ∧
      c.data.writer.Erased c'.data.writer 0x61 ∧
      (feed smallPlatform 0x08).run (globalsTrapRun smallPlatform) c' = .done () c'' ∧
      c''.data.line.asStr = some (List.replicate 69 0x61) ∧
      ∀ row col, c''.data.writer.buffer.read row col = c'.data.writer.buffer.read row col := by
  obtain ⟨c, hrun, hheld, hexecuted, hholds, hcolumn, hrow⟩ := echoPastRowEnd_returns
  obtain ⟨_, _, _, _, _, _, _, _, _, _, _, _, _, c', hfeed, _, hcells⟩ :=
    backspace_stays_on_line smallPlatform rfl hrun
  -- The first one does change a cell.
  obtain ⟨⟨e, he, _⟩, _⟩ := session_atPrompt smallPlatform rfl hrun
  obtain ⟨w, hw, ht⟩ := Writer.backspace_tracks he.tracks
  obtain ⟨l, hpop, hl⟩ := feed_pop_yields (globalsTrapRun smallPlatform) smallPlatform
    (b := c.ifl) (show c.data.line.Holds (List.replicate 70 0x61 ++ [0x61]) from hholds) hw
  obtain ⟨_, hdata, hheld', _⟩ := hpop.eq_of_run rfl hheld rfl hfeed
  have hblank := Writer.backspace_cells he.tracks.1.column_le hw (bufferHeight - 1) 0
  rw [if_pos ⟨by omega, rfl, by omega⟩] at hblank
  obtain ⟨s, x, hread, hread', herased, _⟩ := hcells.resolve_left fun hsame => by
    have hletter := hrow 0 (by decide)
    unfold Writer.character at hletter
    rw [← hsame, hdata, hblank] at hletter
    exact absurd hletter (by simp [Writer.blank])
  have hsplit : s ++ [x] = List.replicate 70 0x61 ++ [0x61] :=
    Option.some.inj (hread.symm.trans hholds.asStr)
  obtain ⟨rfl, hx⟩ := List.append_inj' hsplit rfl
  obtain rfl := List.singleton_inj.mp hx
  -- The second one meets the start of a row.
  have hrun' : (session smallPlatform (echoPastRowEnd ++ [0x08])).run
      (globalsTrapRun smallPlatform) ⟨(smallStart []).cfg.data.globals, noLock, false, false⟩ =
        .done () c' := by
    rw [session_append, run_bind, hrun]
    exact (run_bind ..).trans (by rw [hfeed]; rfl)
  obtain ⟨_, _, _, _, _, _, _, _, _, _, _, _, _, c'', hfeed', _, hcells'⟩ :=
    backspace_stays_on_line smallPlatform rfl hrun'
  have hcolumn' : c'.data.writer.columnPosition = 0 := by
    have hlast : e.term.last.length = 1 := he.tracks.1.column.symm.trans hcolumn
    have herase : w.columnPosition = e.term.last.dropLast.length := ht.1.column
    rw [hdata, herase, List.length_dropLast, hlast]
  have hsame : ∀ row col, c''.data.writer.buffer.read row col =
      c'.data.writer.buffer.read row col := by
    refine hcells'.resolve_right ?_
    rintro ⟨_, _, _, _, herased', _⟩
    have := herased'.column
    omega
  obtain ⟨⟨e', he', _⟩, _⟩ := session_atPrompt smallPlatform rfl hrun'
  obtain ⟨w', hw', _⟩ := Writer.backspace_tracks he'.tracks
  obtain ⟨l', hpop', hl'⟩ := feed_pop_yields (globalsTrapRun smallPlatform) smallPlatform
    (b := c'.ifl) (show c'.data.line.Holds (List.replicate 69 0x61 ++ [0x61]) by
      rw [hdata]; exact hl) hw'
  obtain ⟨_, hdata', _⟩ := hpop'.eq_of_run rfl hheld' rfl hfeed'
  exact ⟨c, c', c'', hrun, hexecuted, hcolumn, hfeed, hread', herased, hfeed',
    by rw [hdata']; exact hl'.asStr, hsame⟩

end ProtoOs.Ref
