import ProtoOs.Proofs.Console

/-!
# Looking for a text on the screen

`screen_contains` reads the screen and nothing else: it answers whether the
needle stands somewhere on one row, and every window it looks at is on the
screen, the last column included.

A text that fits on the rest of the row being written stands there once it
is printed. What is printed later goes to its right or below it, and each
row that is started moves it up by one, so it is found until it leaves at
the top.
-/

namespace ProtoOs.Ref

open ProtoOs.Lib ProtoOs.Lib.Prog

namespace Writer

variable {w : Writer} {s : List UInt8} {row start : Nat}

/-- The bytes of a text stand in the cells of a row, from `start` on. -/
def HasAt (w : Writer) (s : List UInt8) (row start : Nat) : Prop :=
  ∀ i x, s[i]? = some x → w.character row (start + i) = some x

/-! ## The search -/

theorem windowMatches_decides (hrow : row < bufferHeight)
    (hstart : start + s.length ≤ bufferWidth) :
    ∃ r, w.buffer.windowMatches s row start = some r ∧ (r = true ↔ w.HasAt s row start) := by
  have hbody : ∀ p ∈ s.zipIdx, ∃ r, (do
      let character ← w.buffer.read row (start + p.2)
      pure (decide (character.asciiCharacter = p.1))) = some r ∧
        (r = true ↔ w.character row (start + p.2) = some p.1) := by
    intro p hmem
    have hi := List.snd_lt_of_mem_zipIdx hmem
    obtain ⟨x, hx⟩ := w.buffer.read_eq_some hrow (show start + p.2 < bufferWidth by omega)
    refine ⟨decide (x.asciiCharacter = p.1), ?_, ?_⟩
    · rw [hx]
      rfl
    · simp [character, hx]
  obtain ⟨r, hr, hall⟩ := allM_decides s.zipIdx hbody
  refine ⟨r, hr, hall.trans ⟨fun h i x hx => h (x, i) ?_, fun h p hmem => ?_⟩⟩
  · exact List.mk_mem_zipIdx_iff_getElem?.mpr hx
  · exact h p.2 p.1 (List.mem_zipIdx_iff_getElem?.mp hmem)

/-- Every window that fits on the row is looked at. -/
theorem contains_decides (hs : s.length ≤ bufferWidth) :
    ∃ r, w.buffer.contains s = some r ∧
      (r = true ↔ ∃ row start, row < bufferHeight ∧ start + s.length ≤ bufferWidth ∧
        w.HasAt s row start) := by
  obtain ⟨r, hr, hany⟩ := anyM_decides (List.range bufferHeight)
    (f := fun row => (List.range (bufferWidth - s.length + 1)).anyM fun start =>
      w.buffer.windowMatches s row start)
    (P := fun row => ∃ start ∈ List.range (bufferWidth - s.length + 1), w.HasAt s row start)
    (fun row hrow => anyM_decides _ fun start hstart => by
      rw [List.mem_range] at hrow hstart
      exact windowMatches_decides hrow (by omega))
  refine ⟨r, hr, hany.trans ⟨?_, ?_⟩⟩
  · rintro ⟨row, hrow, start, hstart, h⟩
    rw [List.mem_range] at hrow hstart
    exact ⟨row, start, hrow, by omega, h⟩
  · rintro ⟨row, start, hrow, hstart, h⟩
    exact ⟨row, List.mem_range.mpr hrow, start, List.mem_range.mpr (by omega), h⟩

/-! ## Following a text -/

/-- The rows `write_string` starts, each of which scrolls the screen by one:
at a line break, and for a byte that finds the row full. -/
def scrolls (w : Writer) : List UInt8 → Nat
  | [] => 0
  | byte :: s =>
      (if byte = 0x0A ∨ bufferWidth ≤ w.columnPosition then 1 else 0) +
        match w.writeByte (shownByte byte) with
        | some w' => w'.scrolls s
        | none => 0

/-- A byte starts one row at most. -/
theorem scrolls_le_length (text : List UInt8) : ∀ w : Writer, w.scrolls text ≤ text.length := by
  induction text with
  | nil => exact fun _ => Nat.le_refl 0
  | cons byte text ih =>
      intro w
      rw [scrolls, List.length_cons, Nat.add_comm]
      refine Nat.add_le_add ?_ (by split <;> decide)
      split
      · exact ih _
      · exact Nat.zero_le _

/-- The text stands `n` rows over the bottom one, and nothing can be written
over it: if it is on the bottom row, it is left of the column. -/
structure Carries (w : Writer) (s : List UInt8) (start n : Nat) : Prop where
  text : w.HasAt s (bufferHeight - 1 - n) start
  column : n = 0 → start + s.length ≤ w.columnPosition

variable {n : Nat}

theorem Carries.newLine (h : w.Carries s start n) (hs : start + s.length ≤ bufferWidth)
    (hn : n + 1 < bufferHeight) :
    ∃ w', w.newLine = some w' ∧ w'.Carries s start (n + 1) := by
  obtain ⟨b, hb, hread⟩ := w.newLine_spec
  refine ⟨_, hb, fun i x hx => ?_, fun h => absurd h (Nat.succ_ne_zero n)⟩
  have hi := (List.getElem?_eq_some_iff.mp hx).1
  rw [← h.text i x hx]
  unfold character
  rw [hread _ _ (by omega) (by omega), if_neg (by omega)]
  congr 2
  omega

/-- A byte goes to a cell that is not the text's. -/
theorem Carries.put {b : Buffer} {x : UInt8} (h : w.Carries s start n) (hn : n < bufferHeight)
    (hread : w.Puts x b) :
    Carries (moveHardwareCursor { w with buffer := b, columnPosition := w.columnPosition + 1 })
      s start n := by
  refine ⟨fun i y hy => ?_, fun hz => Nat.le_succ_of_le (h.column hz)⟩
  have hi := (List.getElem?_eq_some_iff.mp hy).1
  rw [← h.text i y hy]
  show (b.read _ _).map ScreenChar.asciiCharacter = _
  rw [hread.elsewhere ?_, character]
  rintro ⟨hrow, hcol⟩
  have hz : n = 0 := by
    simp only [bufferHeight] at hrow hn
    omega
  have hcolumn := h.column hz
  omega

theorem Carries.writeShown (h : w.Carries s start n) (hs : start + s.length ≤ bufferWidth)
    (byte : UInt8)
    (hn : n + (if byte = 0x0A ∨ bufferWidth ≤ w.columnPosition then 1 else 0) < bufferHeight) :
    ∃ w', w.writeByte (shownByte byte) = some w' ∧ w'.Carries s start
      (n + if byte = 0x0A ∨ bufferWidth ≤ w.columnPosition then 1 else 0) := by
  by_cases hbreak : byte = 0x0A
  · rw [if_pos (.inl hbreak)] at hn ⊢
    obtain ⟨w', hw', h'⟩ := h.newLine hs hn
    rw [shownByte_eq_newLine_iff.mpr hbreak, writeByte, if_pos rfl, hw']
    exact ⟨w'.moveHardwareCursor, rfl, h'.text, h'.column⟩
  · obtain ⟨w₁, b, hw₁, _, hwrite, hread⟩ :=
      w.writeByte_spec fun hn => hbreak (shownByte_eq_newLine_iff.mp hn)
    refine ⟨_, hwrite, ?_⟩
    by_cases hfull : bufferWidth ≤ w.columnPosition
    · rw [if_pos (.inr hfull)] at hn ⊢
      obtain ⟨w', hw', h'⟩ := h.newLine hs hn
      rw [if_pos hfull, hw'] at hw₁
      obtain rfl := Option.some.inj hw₁
      exact h'.put hn hread
    · rw [if_neg (by simp [hbreak, hfull])] at hn ⊢
      rw [if_neg hfull] at hw₁
      obtain rfl := Option.some.inj hw₁
      exact h.put hn hread

/-- As long as the text is not scrolled off, it is carried along. -/
theorem Carries.writeString (hs : start + s.length ≤ bufferWidth) (text : List UInt8) :
    ∀ {w : Writer} {n : Nat}, w.Carries s start n → n + w.scrolls text < bufferHeight →
      ∃ w', w.writeString text = some w' ∧ w'.Carries s start (n + w.scrolls text) := by
  induction text with
  | nil => exact fun h _ => ⟨_, rfl, h⟩
  | cons byte text ih =>
      intro w n h hn
      rw [scrolls, ← Nat.add_assoc] at hn ⊢
      obtain ⟨w₁, hw₁, h₁⟩ := h.writeShown hs byte (by omega)
      rw [hw₁] at hn ⊢
      obtain ⟨w₂, hw₂, h₂⟩ := ih h₁ hn
      refine ⟨w₂, ?_, h₂⟩
      rw [Writer.writeString, List.foldlM_cons, hw₁]
      exact hw₂

/-- Written right after a text, a byte belongs to it. -/
theorem Carries.extend {b : Buffer} {x : UInt8} (h : w.Carries s start 0)
    (hcol : w.columnPosition = start + s.length)
    (hread : w.Puts x b) :
    Carries (moveHardwareCursor { w with buffer := b, columnPosition := w.columnPosition + 1 })
      (s ++ [x]) start 0 := by
  refine ⟨fun i y hy => ?_, fun _ => ?_⟩
  · by_cases hi : i < s.length
    · rw [List.getElem?_append_left hi] at hy
      exact (h.put (by decide) hread).text i y hy
    · have hlt := (List.getElem?_eq_some_iff.mp hy).1
      rw [List.length_append, List.length_singleton] at hlt
      obtain rfl : i = s.length := by omega
      rw [List.getElem?_concat_length] at hy
      show (b.read (bufferHeight - 1) _).map ScreenChar.asciiCharacter = _
      rw [← hcol, hread.here, ← hy]
      rfl
  · show start + (s ++ [x]).length ≤ w.columnPosition + 1
    rw [List.length_append, List.length_singleton, hcol]
    omega

/-- Printed where there is room for it, a text is on the bottom row. -/
theorem writeString_carries (hs : ∀ x ∈ s, Printable x)
    (hfits : w.columnPosition + s.length ≤ bufferWidth) :
    ∃ w', w.writeString s = some w' ∧ w'.Carries s w.columnPosition 0 ∧
      w'.columnPosition = w.columnPosition + s.length := by
  induction s using List.reverseRecOn with
  | nil => exact ⟨w, rfl, ⟨fun i x hx => by simp at hx, fun _ => Nat.le_refl _⟩, rfl⟩
  | append_singleton s x ih =>
      rw [List.length_append, List.length_singleton, ← Nat.add_assoc] at hfits ⊢
      obtain ⟨w₁, hw₁, h₁, hcol⟩ := ih (fun y hy => hs y (by simp [hy])) (by omega)
      have hx : Printable x := hs x (by simp)
      have hshown : shownByte x = x := if_pos (.inl hx)
      obtain ⟨w₂, b, hw₂, _, hwrite, hread⟩ := w₁.writeByte_spec hx.ne_newLine
      rw [if_neg (by omega)] at hw₂
      obtain rfl := Option.some.inj hw₂
      refine ⟨_, ?_, h₁.extend hcol hread, congrArg (· + 1) hcol⟩
      rw [writeString_append, hw₁, Option.bind_some, writeString_singleton, hshown]
      exact hwrite

theorem Carries.contains (h : w.Carries s start n) (hs : start + s.length ≤ bufferWidth) :
    w.buffer.contains s = some true := by
  obtain ⟨r, hr, hiff⟩ := contains_decides (w := w) (s := s) (by omega)
  have hrow : bufferHeight - 1 - n < bufferHeight := by
    simp only [bufferHeight]
    omega
  obtain rfl : r = true := hiff.mpr ⟨bufferHeight - 1 - n, start, hrow, hs, h.text⟩
  exact hr

end Writer

/-! ## The code -/

section Code

variable {H : Type} {trap : Cfg LockId (Globals H) → Outcome LockId (Globals H) Fatal Unit}
  {g : Globals H} {h : LockId → Bool} {b : Bool}

theorem screenContains_yields {needle : List UInt8} {found : Bool} (hh : WriterFree h)
    (hne : needle ≠ []) (hlen : needle.length ≤ bufferWidth)
    (hfound : g.writer.buffer.contains needle = some found) :
    (screenContains needle).Yields trap g h b found { g with writerReady := true } := by
  rw [screenContains, if_neg (by simp [hne]; omega)]
  refine withWriter_yields hh (Yields.attempt ?_)
  show (g.writer.buffer.contains needle).map _ = _
  rw [hfound]
  rfl

/-- Any printing: one `print!` after the other. -/
def printAll : List (List UInt8) → Code H Unit
  | [] => pure ()
  | text :: texts => do
      print text
      printAll texts

theorem printAll_yields (hh : WriterFree h) (texts : List (List UInt8)) :
    ∀ {g : Globals H} {w : Writer}, g.writerReady = true →
      g.writer.writeString texts.flatten = some w →
      (printAll texts).Yields trap g h b () { g with writer := w } := by
  induction texts with
  | nil =>
      intro g w _ hw
      obtain rfl := Option.some.inj hw
      exact Yields.ret
  | cons text texts ih =>
      intro g w hready hw
      obtain ⟨w₁, hw₁⟩ := g.writer.writeString_total text
      rw [List.flatten_cons, Writer.writeString_append, hw₁] at hw
      have hprint : (print text).Yields trap g h b () { g with writer := w₁ } := by
        rw [hready]
        exact print_yields hh hw₁
      exact Yields.bind hprint (ih (g := { g with writer := w₁ }) hready hw)

/-- For every screen and every needle that is not empty, the search returns,
changes nothing but that `WRITER` is then initialised, and answers whether
the needle stands on one row. And from any writer state, a printable text
for which there is room on the row being written is found after it is
printed and after any more printing that starts at most 24 rows. -/
theorem screen_contains_exact (g : Globals H) (b : Bool) :
    (∀ needle, needle ≠ [] → ∃ found ready,
      (screenContains needle).Yields trap g noLock b found { g with writerReady := ready } ∧
      (found = true ↔ ∃ row start, row < bufferHeight ∧ start + needle.length ≤ bufferWidth ∧
        ∀ i x, needle[i]? = some x → g.writer.character row (start + i) = some x)) ∧
    ∀ s, (∀ x ∈ s, 0x20 ≤ x ∧ x ≤ 0x7e) → 1 ≤ s.length →
      g.writer.columnPosition + s.length ≤ bufferWidth →
      ∃ g₁, (print s).Yields trap g noLock b () g₁ ∧
        ∀ texts : List (List UInt8), g₁.writer.scrolls texts.flatten ≤ 24 →
          ∃ g₂, (printAll texts).Yields trap g₁ noLock b () g₂ ∧
            (screenContains s).Yields trap g₂ noLock b true g₂ := by
  constructor
  · intro needle hne
    by_cases hlen : needle.length ≤ bufferWidth
    · obtain ⟨found, hfound, hiff⟩ := Writer.contains_decides (w := g.writer) hlen
      exact ⟨found, true, screenContains_yields noLock_writerFree hne hlen hfound, hiff⟩
    · refine ⟨false, g.writerReady, ?_, iff_of_false Bool.false_ne_true ?_⟩
      · rw [screenContains, if_pos (.inr (Nat.lt_of_not_le hlen))]
        exact Yields.ret
      · rintro ⟨row, start, _, hfits, _⟩
        omega
  · intro s hs hlen hfits
    obtain ⟨w₁, hw₁, hcarries, _⟩ := Writer.writeString_carries hs hfits
    refine ⟨_, print_yields noLock_writerFree hw₁, fun texts htexts => ?_⟩
    obtain ⟨w₂, hw₂, hcarries⟩ := hcarries.writeString hfits texts.flatten
      (by rw [Nat.zero_add]; exact Nat.lt_succ_of_le htexts)
    refine ⟨_, printAll_yields noLock_writerFree texts rfl hw₂, ?_⟩
    refine screenContains_yields noLock_writerFree ?_ (by omega) (hcarries.contains hfits)
    rintro rfl
    exact absurd hlen (by decide)

end Code

/-- A full row of `x`, and then 24 line breaks: it is on the top row. -/
theorem screen_contains_exact_top_row :
    ∃ g₁ g₂ : Globals Nat,
      (print (List.replicate 80 0x78)).Yields (globalsTrapRun smallPlatform)
        (smallStart []).cfg.data.globals noLock false () g₁ ∧
      (printAll [List.replicate 24 0x0A]).Yields (globalsTrapRun smallPlatform)
        g₁ noLock false () g₂ ∧
      (screenContains (List.replicate 80 0x78)).Yields (globalsTrapRun smallPlatform)
        g₂ noLock false true g₂ := by
  have hx : ∀ x ∈ List.replicate 80 (0x78 : UInt8), 0x20 ≤ x ∧ x ≤ 0x7e := by
    intro x hmem
    rw [List.eq_of_mem_replicate hmem]
    decide
  obtain ⟨g₁, hprint, hafter⟩ := (screen_contains_exact (smallStart []).cfg.data.globals false).2
    (List.replicate 80 0x78) hx (by decide) (by decide)
  obtain ⟨g₂, hbreaks, hfound⟩ := hafter [List.replicate 24 0x0A]
    (Writer.scrolls_le_length _ g₁.writer)
  exact ⟨g₁, g₂, hprint, hbreaks, hfound⟩

end ProtoOs.Ref
