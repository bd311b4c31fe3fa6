import ProtoOs.Lib.Loop
import ProtoOs.Lib.Terminal
import ProtoOs.Ref.Vga

/-!
# The screen refines the ideal terminal

`Writer` shows a `Terminal`: the 25 rows of its buffer are the last 25 rows
of the terminal, padded with blanks in the writer's colour, and its column
is the length of the last one. The relation survives every operation of
the writer, and from any state it describes no operation panics, so the
whole refinement follows by folding one step at a time.

The two invariants it rests on are both in the relation: the column never
passes 80, and everything at or right of it on the bottom row is blank,
which is what lets a backspace be a blank written over one cell and a new
row be the scroll of the old ones.
-/

namespace ProtoOs.Ref

open ProtoOs.Lib

/-! ## Cells -/

namespace Buffer

theorem read_eq_some {b : Buffer} {r c : Nat} (hr : r < bufferHeight)
    (hc : c < bufferWidth) : ∃ x, b.read r c = some x := by
  simp [read, Vector.getElem?_eq_getElem hr, Vector.getElem?_eq_getElem hc]

/-- A write inside the buffer changes the one cell it names. -/
theorem write_spec (b : Buffer) {r c : Nat} (hr : r < bufferHeight)
    (hc : c < bufferWidth) (x : ScreenChar) :
    ∃ b', b.write r c x = some b' ∧
      ∀ r' c', b'.read r' c' =
        if r' = r ∧ c' = c then some x else b.read r' c' := by
  refine ⟨_, dif_pos ⟨hr, hc⟩, fun r' c' => ?_⟩
  simp only [read, Fin.getElem_fin, Vector.getElem?_set]
  by_cases hrr : r = r'
  · subst hrr
    by_cases hcc : c = c'
    · subst hcc; simp [hc]
    · simp [hr, hcc, Ne.symm hcc]
  · simp [hrr, Ne.symm hrr]

end Buffer

namespace Writer

/-- What a cell displays. -/
def character (w : Writer) (r c : Nat) : Option UInt8 :=
  (w.buffer.read r c).map ScreenChar.asciiCharacter

/-! ## The loops, cell by cell -/

/-- `clear_row` blanks the row it is given and touches nothing else. -/
theorem clearRow_spec (w : Writer) {row : Nat} (hrow : row < bufferHeight) :
    ∃ b, w.clearRow row = some { w with buffer := b } ∧
      ∀ r c, b.read r c =
        if r = row ∧ c < bufferWidth then some w.blank
        else w.buffer.read r c := by
  obtain ⟨b, hb, hread⟩ := foldlM_range_inv
    (f := fun b col => b.write row col w.blank)
    (P := fun n b => ∀ r c, b.read r c =
      if r = row ∧ c < n then some w.blank else w.buffer.read r c)
    (n := bufferWidth) (s := w.buffer) (by simp)
    (fun k b hk hb => by
      obtain ⟨b', hb', hread⟩ := b.write_spec hrow hk w.blank
      refine ⟨b', hb', fun r c => ?_⟩
      rw [hread, hb]
      by_cases hr : r = row
      · by_cases hc : c = k
        · simp [hr, hc]
        · by_cases hlt : c < k
          · simp [hr, hc, hlt, Nat.lt_succ_of_lt hlt]
          · simp [hr, hc, hlt, show ¬c < k + 1 by omega]
      · simp [hr])
  exact ⟨b, by simp [clearRow, hb], hread⟩

/-- One row of the scroll lands on the row above and leaves the rest. -/
theorem copyRowUp_spec (b : Buffer) {row : Nat} (hpos : 1 ≤ row)
    (hrow : row < bufferHeight) :
    ∃ b', copyRowUp b row = some b' ∧
      ∀ r c, b'.read r c =
        if r = row - 1 ∧ c < bufferWidth then b.read row c
        else b.read r c := by
  obtain ⟨b', hb', hread⟩ := foldlM_range_inv
    (f := fun b col => do
      let character ← b.read row col
      b.write (row - 1) col character)
    (P := fun n b' => ∀ r c, b'.read r c =
      if r = row - 1 ∧ c < n then b.read row c else b.read r c)
    (n := bufferWidth) (s := b) (by simp)
    (fun k b' hk hb' => by
      obtain ⟨x, hx⟩ := b'.read_eq_some hrow hk
      obtain ⟨b'', hb'', hread⟩ :=
        b'.write_spec (show row - 1 < bufferHeight by omega) hk x
      refine ⟨b'', by simp [hx, hb''], fun r c => ?_⟩
      -- The row being read is not the one being overwritten.
      have hxold : b.read row k = some x := by
        rw [← hx, hb' row k, if_neg (by omega)]
      rw [hread, hb']
      by_cases hr : r = row - 1
      · by_cases hc : c = k
        · simp [hr, hc, hxold]
        · by_cases hlt : c < k
          · simp [hr, hc, hlt, Nat.lt_succ_of_lt hlt]
          · simp [hr, hc, hlt, show ¬c < k + 1 by omega]
      · simp [hr])
  exact ⟨b', hb', hread⟩

/-- A line break scrolls: every row takes the one below it and the bottom
row is blank. -/
theorem newLine_spec (w : Writer) :
    ∃ b, w.newLine = some { w with buffer := b, columnPosition := 0 } ∧
      ∀ r c, r < bufferHeight → c < bufferWidth → b.read r c =
        if r = bufferHeight - 1 then some w.blank
        else w.buffer.read (r + 1) c := by
  obtain ⟨b₁, hb₁, hread₁⟩ := foldlM_range'_inv (f := copyRowUp) (a := 1)
    (n := bufferHeight - 1) (s := w.buffer)
    (P := fun k b => ∀ r c, c < bufferWidth → b.read r c =
      if r + 1 < k then w.buffer.read (r + 1) c else w.buffer.read r c)
    (by simp)
    (fun k b hk hlt hb => by
      have hkh : k < bufferHeight := by
        simp only [bufferHeight] at hlt ⊢; omega
      obtain ⟨b', hb', hread⟩ := copyRowUp_spec b hk hkh
      refine ⟨b', hb', fun r c hc => ?_⟩
      rw [hread, hb r c hc, hb k c hc]
      by_cases hr : r = k - 1
      · rw [if_pos ⟨hr, hc⟩, if_neg (by omega), if_pos (by omega), hr,
          Nat.sub_add_cancel hk]
      · by_cases hlt' : r + 1 < k
        · simp [hr, hlt', Nat.lt_succ_of_lt hlt']
        · simp [hr, hlt', show ¬r + 1 < k + 1 by omega])
  obtain ⟨b₂, hb₂, hread₂⟩ := clearRow_spec { w with buffer := b₁ }
    (show bufferHeight - 1 < bufferHeight by decide)
  refine ⟨b₂, ?_, fun r c hr hc => ?_⟩
  · rw [newLine, hb₁]
    simp only [Option.bind_eq_bind, Option.bind_some]
    rw [hb₂]
    rfl
  rw [hread₂]
  by_cases hlast : r = bufferHeight - 1
  · simp [hlast, hc, blank]
  · have hlt : r + 1 < 1 + (bufferHeight - 1) := by
      simp only [bufferHeight] at hr hlast ⊢; omega
    simp only [hlast, false_and, if_false]
    rw [hread₁ r c hc, if_pos hlt]

/-- The buffer is the writer's, with a byte in the cell at the column. -/
def Puts (w : Writer) (x : UInt8) (b : Buffer) : Prop :=
  ∀ r c, b.read r c =
    if r = bufferHeight - 1 ∧ c = w.columnPosition then some ⟨x, w.colorCode⟩
    else w.buffer.read r c

theorem Puts.here {w : Writer} {x : UInt8} {b : Buffer} (h : w.Puts x b) :
    b.read (bufferHeight - 1) w.columnPosition = some ⟨x, w.colorCode⟩ := by
  rw [h _ _, if_pos ⟨rfl, rfl⟩]

theorem Puts.elsewhere {w : Writer} {x : UInt8} {b : Buffer} (h : w.Puts x b) {r c : Nat}
    (hne : ¬(r = bufferHeight - 1 ∧ c = w.columnPosition)) : b.read r c = w.buffer.read r c := by
  rw [h r c, if_neg hne]

/-- Anything but a line break changes one cell of the bottom row, once there
is room on it. -/
theorem writeByte_spec (w : Writer) {x : UInt8} (hx : x ≠ 0x0A) :
    ∃ w₁ b, (if bufferWidth ≤ w.columnPosition then w.newLine else some w) = some w₁ ∧
      w₁.columnPosition < bufferWidth ∧
      w.writeByte x = some (moveHardwareCursor
        { w₁ with buffer := b, columnPosition := w₁.columnPosition + 1 }) ∧ w₁.Puts x b := by
  obtain ⟨w₁, hw₁, hcol⟩ : ∃ w₁,
      (if bufferWidth ≤ w.columnPosition then w.newLine else some w) = some w₁ ∧
      w₁.columnPosition < bufferWidth := by
    obtain ⟨b, hb, _⟩ := w.newLine_spec
    by_cases hfull : bufferWidth ≤ w.columnPosition
    · exact ⟨_, by rw [if_pos hfull, hb], by simp⟩
    · exact ⟨w, if_neg hfull, Nat.lt_of_not_le hfull⟩
  obtain ⟨b, hb, hread⟩ := w₁.buffer.write_spec
    (show bufferHeight - 1 < bufferHeight by decide) hcol ⟨x, w₁.colorCode⟩
  refine ⟨w₁, b, hw₁, hcol, ?_, hread⟩
  rw [writeByte, if_neg hx, putByte, hw₁]
  simp only [Option.bind_eq_bind, Option.bind_some]
  rw [hb]
  rfl

/-! ## What the screen shows -/

/-- The writer shows the terminal: its rows are the last ones of the
terminal, padded with blanks in the writer's colour, and its column is the
length of the row being written. -/
structure Shows (w : Writer) (t : Terminal UInt8) : Prop where
  cells : ∀ r c, r < bufferHeight → c < bufferWidth →
    w.buffer.read r c =
      some ⟨((t.row bufferHeight r)[c]?).getD 0x20, w.colorCode⟩
  column : w.columnPosition = t.last.length
  width : t.last.length ≤ bufferWidth
  rows : bufferHeight ≤ t.rows.length

theorem Shows.column_le {w : Writer} {t : Terminal UInt8} (h : w.Shows t) :
    w.columnPosition ≤ bufferWidth := by rw [h.column]; exact h.width

/-- The two bytes last programmed into the CRTC, read as one position. -/
def hardwareCursor (w : Writer) : Nat :=
  (w.crtc.registers cursorLocationHigh).toNat * 256 +
    (w.crtc.registers cursorLocationLow).toNat

/-- The hardware cursor agrees with the column. -/
def Synced (w : Writer) : Prop :=
  w.hardwareCursor = (bufferHeight - 1) * bufferWidth + w.columnPosition

theorem moveHardwareCursor_synced {w : Writer}
    (h : w.columnPosition ≤ bufferWidth) : w.moveHardwareCursor.Synced := by
  have hpos : (bufferHeight - 1) * bufferWidth + w.columnPosition < 65536 := by
    simp only [bufferHeight, bufferWidth] at h ⊢; omega
  unfold Synced hardwareCursor moveHardwareCursor
  generalize (bufferHeight - 1) * bufferWidth + w.columnPosition = p at hpos
  have hhigh : (UInt8.ofNat ((p >>> 8) &&& 0xff)).toNat = p / 256 := by
    rw [UInt8.toNat_ofNat', Nat.shiftRight_eq_div_pow,
      show (0xff : Nat) = 2 ^ 8 - 1 from rfl, Nat.and_two_pow_sub_one_eq_mod]
    omega
  have hlow : (UInt8.ofNat (p &&& 0xff)).toNat = p % 256 := by
    rw [UInt8.toNat_ofNat', show (0xff : Nat) = 2 ^ 8 - 1 from rfl,
      Nat.and_two_pow_sub_one_eq_mod]
    omega
  simp only [Crtc.writeData, Crtc.writeIndex, Function.update_self,
    Function.update_of_ne (show cursorLocationHigh ≠ cursorLocationLow by decide),
    hhigh, hlow]
  omega

theorem Shows.moveHardwareCursor {w : Writer} {t : Terminal UInt8}
    (h : w.Shows t) : w.moveHardwareCursor.Shows t :=
  ⟨h.cells, h.column, h.width, h.rows⟩

theorem newLine_shows {w : Writer} {t : Terminal UInt8} (h : w.Shows t) :
    ∃ w', w.newLine = some w' ∧ w'.Shows t.newLine := by
  obtain ⟨b, hb, hread⟩ := w.newLine_spec
  refine ⟨_, hb, ?_, rfl, by simp, Nat.le_trans h.rows t.newLine_rows_length⟩
  intro r c hr hc
  rw [hread r c hr hc]
  by_cases hlast : r = bufferHeight - 1
  · rw [if_pos hlast, hlast, Terminal.row_bottom (by decide)
      (Nat.le_trans h.rows t.newLine_rows_length)]
    rfl
  · have hr' : r + 1 < bufferHeight := by
      simp only [bufferHeight] at hr hlast ⊢; omega
    rw [if_neg hlast, h.cells (r + 1) c hr' hc, Terminal.row_newLine h.rows hr']

/-- Whatever relation of writers to terminals a line break keeps, making room
for a character is what putting one does first. -/
theorem makeRoom {R : Writer → Terminal UInt8 → Prop} {w w₁ : Writer} {t : Terminal UInt8}
    (hnew : ∃ w', w.newLine = some w' ∧ R w' t.newLine) (h : R w t)
    (hcol : w.columnPosition = t.last.length) (hwidth : t.last.length ≤ bufferWidth) (x : UInt8)
    (hw₁ : (if bufferWidth ≤ w.columnPosition then w.newLine else some w) = some w₁) :
    ∃ t₁, R w₁ t₁ ∧ t₁.last.length < bufferWidth ∧
      t.put bufferWidth x = { t₁ with last := t₁.last ++ [x] } := by
  by_cases hfull : bufferWidth ≤ w.columnPosition
  · obtain ⟨w', hw', h'⟩ := hnew
    rw [if_pos hfull, hw'] at hw₁
    obtain rfl := Option.some.inj hw₁
    exact ⟨t.newLine, h', by simp, Terminal.put_of_full (by omega)⟩
  · rw [if_neg hfull] at hw₁
    obtain rfl := Option.some.inj hw₁
    exact ⟨t, h, by omega, Terminal.put_of_lt (by omega)⟩

/-- A write at the column extends the row that is shown there; a full row
is left behind first. -/
theorem writeByte_put {w : Writer} {t : Terminal UInt8} (h : w.Shows t)
    {x : UInt8} (hx : x ≠ 0x0A) :
    ∃ w', w.writeByte x = some w' ∧ w'.Shows (t.put bufferWidth x) ∧
      w'.Synced := by
  obtain ⟨w₁, b, hw₁, hcol, hwrite, hread⟩ := w.writeByte_spec hx
  obtain ⟨t₁, h₁, hroom, hput⟩ := makeRoom (newLine_shows h) h h.column h.width x hw₁
  refine ⟨_, hwrite, ?_, moveHardwareCursor_synced hcol⟩
  rw [hput]
  refine Shows.moveHardwareCursor ⟨?_, ?_, ?_, ?_⟩
  · intro r c hr hc
    simp only
    rw [hread r c]
    by_cases hlast : r = bufferHeight - 1
    · subst hlast
      rw [Terminal.row_bottom (by decide) (by simpa using h₁.rows)]
      by_cases hcc : c = w₁.columnPosition
      · simp [hcc, h₁.column]
      · rw [if_neg (fun hn => hcc hn.2), h₁.cells _ c hr hc,
          Terminal.row_bottom (by decide) h₁.rows]
        rw [h₁.column] at hcc
        rcases Nat.lt_or_gt_of_ne hcc with hlt | hgt
        · rw [List.getElem?_append_left hlt]
        · rw [List.getElem?_eq_none (Nat.le_of_lt hgt),
            List.getElem?_eq_none (by simp; omega)]
    · have hr' : r + 1 < bufferHeight := by
        simp only [bufferHeight] at hr hlast ⊢; omega
      rw [if_neg (fun hn => hlast hn.1), h₁.cells r c hr hc,
        ← Terminal.row_above hr' h₁.rows (t₁.last ++ [x])]
  · simp [h₁.column]
  · simp; omega
  · simpa using h₁.rows

theorem writeByte_newLine {w : Writer} {t : Terminal UInt8} (h : w.Shows t) :
    ∃ w', w.writeByte 0x0A = some w' ∧ w'.Shows t.newLine ∧ w'.Synced := by
  obtain ⟨w₁, hw₁, h₁⟩ := newLine_shows h
  refine ⟨w₁.moveHardwareCursor, ?_, h₁.moveHardwareCursor,
    moveHardwareCursor_synced h₁.column_le⟩
  rw [writeByte, if_pos rfl, hw₁]
  rfl

theorem backspace_shows {w : Writer} {t : Terminal UInt8} (h : w.Shows t)
    (hs : w.Synced) :
    ∃ w', w.backspace = some w' ∧ w'.Shows t.erase ∧ w'.Synced := by
  by_cases hz : w.columnPosition = 0
  · have hnil : t.last = [] := by
      rw [← List.length_eq_zero_iff, ← h.column, hz]
    refine ⟨w, if_pos hz, ?_, hs⟩
    have herase : t.erase = t := by
      cases t; simp only [Terminal.erase]; simp_all
    rw [herase]
    exact h
  · have hcol : w.columnPosition - 1 < bufferWidth := by
      have := h.column_le; omega
    have hpos : t.last ≠ [] := by
      rw [← List.length_pos_iff, ← h.column]; omega
    obtain ⟨b, hb, hread⟩ := w.buffer.write_spec
      (show bufferHeight - 1 < bufferHeight by decide) hcol w.blank
    refine ⟨moveHardwareCursor
      { w with buffer := b, columnPosition := w.columnPosition - 1 }, ?_, ?_,
      moveHardwareCursor_synced (Nat.le_of_lt hcol)⟩
    · rw [backspace, if_neg hz]
      simp only [blank] at hb ⊢
      rw [hb]
      rfl
    · refine Shows.moveHardwareCursor ⟨?_, ?_, ?_, ?_⟩
      · intro r c hr hc
        simp only
        rw [hread]
        by_cases hlast : r = bufferHeight - 1
        · subst hlast
          rw [Terminal.row_bottom (by decide)
            (by rw [Terminal.erase_rows_length]; exact h.rows)]
          simp only [Terminal.erase]
          by_cases hcc : c = w.columnPosition - 1
          · rw [if_pos ⟨trivial, hcc⟩, hcc, h.column,
              List.getElem?_eq_none (by simp)]
            rfl
          · rw [if_neg (fun hn => hcc hn.2), h.cells _ c hr hc,
              Terminal.row_bottom (by decide) h.rows, List.dropLast_eq_take]
            rw [h.column] at hcc hz
            by_cases hlt : c < t.last.length - 1
            · rw [List.getElem?_take_of_lt hlt]
            · rw [List.getElem?_eq_none (by omega),
                List.getElem?_eq_none (by simp; omega)]
        · have hr' : r + 1 < bufferHeight := by
            simp only [bufferHeight] at hr hlast ⊢; omega
          rw [if_neg (fun hn => hlast hn.1), h.cells r c hr hc]
          exact congrArg (fun l => some (ScreenChar.mk ((l[c]?).getD 0x20) _))
            (Terminal.row_above hr' h.rows _).symm
      · simp [Terminal.erase, h.column]
      · exact Terminal.erase_last_length_le h.width
      · rw [Terminal.erase_rows_length]; exact h.rows

/-- Clearing answers a blank screen, whatever was there and wherever the
column was. -/
theorem clearScreen_shows (w : Writer) :
    ∃ w', w.clearScreen = some w' ∧ w'.Shows (Terminal.blank bufferHeight) ∧
      w'.Synced ∧ w'.colorCode = w.colorCode := by
  obtain ⟨w₁, hw₁, hcolor, hread⟩ := foldlM_range_inv (f := clearRow)
    (P := fun n (w' : Writer) => w'.colorCode = w.colorCode ∧
      ∀ r c, r < n → c < bufferWidth → w'.buffer.read r c = some w.blank)
    (n := bufferHeight) (s := w) (by simp)
    (fun k w' hk ⟨hcolor, hrows⟩ => by
      obtain ⟨b, hb, hread⟩ := w'.clearRow_spec hk
      refine ⟨_, hb, hcolor, fun r c hr hc => ?_⟩
      rw [hread]
      by_cases hrk : r = k
      · rw [if_pos ⟨hrk, hc⟩]
        simp [blank, hcolor]
      · rw [if_neg (fun hn => hrk hn.1)]
        exact hrows r c (by omega) hc)
  refine ⟨moveHardwareCursor { w₁ with columnPosition := 0 }, ?_, ?_,
    moveHardwareCursor_synced (Nat.zero_le _), hcolor⟩
  · rw [clearScreen, hw₁]
    rfl
  · refine Shows.moveHardwareCursor ⟨fun r c hr hc => ?_, rfl, by simp, ?_⟩
    · simp only
      rw [hread r c hr hc, Terminal.blank_row]
      simp [blank, hcolor]
    · exact Nat.le_of_eq (Terminal.blank_rows_length (by decide)).symm

end Writer

/-! ## Whole sequences of operations

The ideal side of each operation, in the terms of the terminal alone: a
line break starts a row, any other byte is put as the glyph the screen has
for it, and pieces of a formatted text are only ever seen joined. -/

/-- The glyph of a byte: itself if printable, else the unknown square. -/
def glyph (byte : UInt8) : UInt8 :=
  if 0x20 ≤ byte ∧ byte ≤ 0x7e then byte else 0xfe

def printByte (t : Terminal UInt8) (byte : UInt8) : Terminal UInt8 :=
  if byte = 0x0A then t.newLine else t.put bufferWidth (glyph byte)

def printBytes (t : Terminal UInt8) (s : List UInt8) : Terminal UInt8 :=
  s.foldl printByte t

inductive ScreenOp where
  | print (args : List (List UInt8))
  | backspace
  | clearScreen

/-- The operation as the source runs it on the global writer. -/
def ScreenOp.run (w : Writer) : ScreenOp → Option Writer
  | .print args => w.writeFmt args
  | .backspace => w.backspace
  | .clearScreen => w.clearScreen

def ScreenOp.ideal (t : Terminal UInt8) : ScreenOp → Terminal UInt8
  | .print args => printBytes t args.flatten
  | .backspace => t.erase
  | .clearScreen => Terminal.blank bufferHeight

/-- `clear_screen`, then the operations in order. -/
def screenSession (w : Writer) (ops : List ScreenOp) : Option Writer := do
  let w ← w.clearScreen
  ops.foldlM ScreenOp.run w

def idealSession (ops : List ScreenOp) : Terminal UInt8 :=
  ops.foldl ScreenOp.ideal (Terminal.blank bufferHeight)

/-- Printable text: what `feed` accepts, and what needs no substitution. -/
def Printable (byte : UInt8) : Prop := 0x20 ≤ byte ∧ byte ≤ 0x7e

instance (byte : UInt8) : Decidable (Printable byte) :=
  inferInstanceAs (Decidable (_ ∧ _))

theorem Printable.ne_newLine {byte : UInt8} (h : Printable byte) :
    byte ≠ 0x0A := by
  rintro rfl
  exact absurd h.1 (by decide)

theorem Printable.printByte {byte : UInt8} (h : Printable byte)
    (t : Terminal UInt8) : printByte t byte = t.put bufferWidth byte := by
  have hglyph : glyph byte = byte := if_pos h
  rw [Ref.printByte, if_neg h.ne_newLine, hglyph]

/-- Printable text that fits on the row being written just extends it. -/
theorem printBytes_of_fits {s : List UInt8} (hs : ∀ b ∈ s, Printable b) :
    ∀ {t : Terminal UInt8}, t.last.length + s.length ≤ bufferWidth →
      printBytes t s = { t with last := t.last ++ s } := by
  induction s with
  | nil => intro t _; simp [printBytes]
  | cons b s ih =>
      intro t hfit
      rw [List.length_cons] at hfit
      have hput : printByte t b = { t with last := t.last ++ [b] } := by
        rw [(hs b (by simp)).printByte, Terminal.put_of_lt (by omega)]
      rw [printBytes, List.foldl_cons, hput, ← printBytes,
        ih (fun x hx => hs x (by simp [hx])) (by simp; omega)]
      simp

theorem shownByte_eq_newLine_iff {byte : UInt8} :
    Writer.shownByte byte = 0x0A ↔ byte = 0x0A := by
  unfold Writer.shownByte
  split <;> rename_i h
  · rfl
  · simp only [not_or] at h
    exact ⟨fun hn => absurd hn (by decide), fun hn => absurd hn h.2⟩

theorem shownByte_eq_glyph {byte : UInt8} (h : byte ≠ 0x0A) :
    Writer.shownByte byte = glyph byte := by
  simp [Writer.shownByte, glyph, h]

namespace Writer

/-- What every operation keeps: the screen shows the terminal and the
hardware cursor agrees with the column. -/
def Tracks (w : Writer) (t : Terminal UInt8) : Prop := w.Shows t ∧ w.Synced

theorem writeShown_tracks {w : Writer} {t : Terminal UInt8} (h : w.Tracks t)
    (byte : UInt8) :
    ∃ w', w.writeByte (shownByte byte) = some w' ∧
      w'.Tracks (printByte t byte) := by
  by_cases hb : byte = 0x0A
  · rw [shownByte_eq_newLine_iff.mpr hb, printByte, if_pos hb]
    exact writeByte_newLine h.1
  · have hx : shownByte byte ≠ 0x0A := fun hn => hb (shownByte_eq_newLine_iff.mp hn)
    rw [printByte, if_neg hb, ← shownByte_eq_glyph hb]
    exact writeByte_put h.1 hx

theorem writeString_tracks {w : Writer} {t : Terminal UInt8} (h : w.Tracks t)
    (s : List UInt8) :
    ∃ w', w.writeString s = some w' ∧ w'.Tracks (printBytes t s) :=
  foldlM_refines (R := Tracks) (g := printByte)
    (fun _ _ byte hr => writeShown_tracks hr byte) s h

/-- However the formatter cuts the text, the screen sees it joined. -/
theorem writeFmt_tracks {w : Writer} {t : Terminal UInt8} (h : w.Tracks t)
    (args : List (List UInt8)) :
    ∃ w', w.writeFmt args = some w' ∧ w'.Tracks (printBytes t args.flatten) := by
  obtain ⟨w', hw', hr⟩ := foldlM_refines (R := Tracks) (g := printBytes)
    (fun _ _ s hr => writeString_tracks hr s) args h
  refine ⟨w', hw', ?_⟩
  rw [printBytes, List.foldl_flatten]
  exact hr

theorem backspace_tracks {w : Writer} {t : Terminal UInt8} (h : w.Tracks t) :
    ∃ w', w.backspace = some w' ∧ w'.Tracks t.erase :=
  backspace_shows h.1 h.2

theorem clearScreen_tracks (w : Writer) :
    ∃ w', w.clearScreen = some w' ∧
      w'.Tracks (Terminal.blank bufferHeight) := by
  obtain ⟨w', hw', hshows, hsynced, _⟩ := clearScreen_shows w
  exact ⟨w', hw', hshows, hsynced⟩

end Writer

theorem ScreenOp.run_tracks {w : Writer} {t : Terminal UInt8}
    (h : w.Tracks t) (op : ScreenOp) :
    ∃ w', op.run w = some w' ∧ w'.Tracks (op.ideal t) := by
  cases op with
  | print args => exact Writer.writeFmt_tracks h args
  | backspace => exact Writer.backspace_tracks h
  | clearScreen => exact Writer.clearScreen_tracks w

theorem screenSession_tracks (w : Writer) (ops : List ScreenOp) :
    ∃ w', screenSession w ops = some w' ∧ w'.Tracks (idealSession ops) := by
  obtain ⟨w₁, hw₁, h₁⟩ := Writer.clearScreen_tracks w
  obtain ⟨w₂, hw₂, h₂⟩ := foldlM_refines (R := Writer.Tracks)
    (g := ScreenOp.ideal) (fun _ _ op hr => ScreenOp.run_tracks hr op) ops h₁
  exact ⟨w₂, by rw [screenSession, hw₁]; exact hw₂, h₂⟩

/-- The screen refines the ideal scrolling terminal: after `clear_screen`
and any sequence of prints, backspaces and clears, with any texts cut into
any pieces, no buffer access was out of bounds, every cell is that of the
last 25 rows padded with blanks in the writer's colour, and the column is
the length of the last row, at most 80. -/
theorem screen_refines_terminal (w : Writer) (ops : List ScreenOp) :
    ∃ w', screenSession w ops = some w' ∧
      (∀ r c, r < bufferHeight → c < bufferWidth →
        w'.buffer.read r c = some
          ⟨((((idealSession ops).visible bufferHeight)[r]?.getD [])[c]?).getD 0x20,
            w'.colorCode⟩) ∧
      bufferHeight ≤ (idealSession ops).rows.length ∧
      w'.columnPosition = (idealSession ops).last.length ∧
      w'.columnPosition ≤ bufferWidth := by
  obtain ⟨w', hw', hshows, _⟩ := screenSession_tracks w ops
  exact ⟨w', hw', hshows.cells, hshows.rows, hshows.column, hshows.column_le⟩

/-! ## The hardware cursor

The position programmed into the CRTC is always the one the column names,
but a row that is exactly full leaves the column at 80, one cell past the
bottom row. -/

/-- The cursor agrees with the column and sits on the bottom row. -/
def Writer.CursorOnLastRow (w : Writer) : Prop :=
  w.hardwareCursor = (bufferHeight - 1) * bufferWidth + w.columnPosition ∧
    (bufferHeight - 1) * bufferWidth ≤ w.hardwareCursor ∧
    w.hardwareCursor ≤ (bufferHeight - 1) * bufferWidth + (bufferWidth - 1)

theorem Writer.Tracks.cursorOnLastRow_iff {w : Writer} {t : Terminal UInt8}
    (h : w.Tracks t) : w.CursorOnLastRow ↔ t.last.length ≠ bufferWidth := by
  obtain ⟨hshows, hsynced⟩ := h
  have hcol := hshows.column
  have hwidth := hshows.width
  unfold Writer.CursorOnLastRow
  unfold Writer.Synced at hsynced
  rw [hsynced, hcol]
  constructor
  · rintro ⟨-, -, hle⟩ hfull
    have hlt : t.last.length < bufferWidth :=
      Nat.lt_of_le_of_lt (Nat.le_of_add_le_add_left hle) (by decide)
    exact absurd hfull (Nat.ne_of_lt hlt)
  · intro hne
    exact ⟨rfl, by omega, by omega⟩

/-- Exactly when the cursor stays on the bottom row: after every operation
of a sequence it does if and only if no operation leaves the row being
written exactly full. -/
theorem cursor_on_last_row_iff (w : Writer) (ops : List ScreenOp) :
    (∀ pre, pre <+: ops → ∃ w', screenSession w pre = some w' ∧
        w'.CursorOnLastRow) ↔
      ∀ pre, pre <+: ops → (idealSession pre).last.length ≠ bufferWidth := by
  constructor
  · intro hall pre hpre
    obtain ⟨w', hw', hcursor⟩ := hall pre hpre
    obtain ⟨w'', hw'', htracks⟩ := screenSession_tracks w pre
    rw [hw'] at hw''
    obtain rfl := Option.some.inj hw''
    exact htracks.cursorOnLastRow_iff.mp hcursor
  · intro hall pre hpre
    obtain ⟨w', hw', htracks⟩ := screenSession_tracks w pre
    exact ⟨w', hw', htracks.cursorOnLastRow_iff.mpr (hall pre hpre)⟩

/-- The writer as the kernel's statics set it up, over an empty buffer. -/
def Writer.boot : Writer where
  columnPosition := 0
  colorCode := ColorCode.new .yellow .black
  buffer := ⟨Vector.replicate bufferHeight
    (Vector.replicate bufferWidth ⟨0, ColorCode.new .black .black⟩)⟩
  crtc := ⟨0, fun _ => 0⟩

/-- Eighty characters on a cleared screen put the cursor at 2000, past the
last cell. -/
theorem cursor_past_screen_after_full_row :
    ∃ w', screenSession Writer.boot
        [.print [List.replicate bufferWidth 0x78]] = some w' ∧
      w'.hardwareCursor = 2000 ∧ ¬w'.CursorOnLastRow := by
  obtain ⟨w', hw', htracks⟩ := screenSession_tracks Writer.boot
    [.print [List.replicate bufferWidth 0x78]]
  have hfull : (idealSession [.print [List.replicate bufferWidth 0x78]]).last.length
      = bufferWidth := by
    simp only [idealSession, List.foldl_cons, List.foldl_nil, ScreenOp.ideal,
      List.flatten_cons, List.flatten_nil, List.append_nil]
    rw [printBytes_of_fits (by simp only [List.mem_replicate]; rintro b ⟨_, rfl⟩; decide)
      (by simp)]
    simp
  refine ⟨w', hw', ?_, fun h => htracks.cursorOnLastRow_iff.mp h hfull⟩
  obtain ⟨hshows, hsynced⟩ := htracks
  unfold Writer.Synced at hsynced
  rw [hsynced, hshows.column, hfull]
  rfl

end ProtoOs.Ref
