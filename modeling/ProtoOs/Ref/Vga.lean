import Mathlib.Data.List.Basic
import Mathlib.Logic.Function.Basic

/-!
# The text screen

`vga_buffer.rs`: a 25 by 80 buffer of coloured characters that is only
ever written on its bottom row, and a `Writer` that keeps the column it
writes at. A line break scrolls the whole buffer up in place, cell by cell;
a row that is exactly full stays where it is until the next character needs
room, so the column rests at 80 in between.

The buffer lives in memory shared with the display and the cursor in the
CRTC behind ports 0x3D4 and 0x3D5. Both belong to the writer and to nothing
else, so the model keeps them as its fields. An index past the buffer is a
panic in the source and `none` here.
-/

namespace ProtoOs.Ref

/-- The bytes of a text: what a `&str` is to everything in this kernel. -/
def bytes (s : String) : List UInt8 := s.toUTF8.data.toList

/-! The CRTC registers that hold the position of the hardware cursor. -/

def cursorLocationHigh : UInt8 := 0x0E
def cursorLocationLow : UInt8 := 0x0F

inductive Color where
  | black | blue | green | cyan | red | magenta | brown | lightGray
  | darkGray | lightBlue | lightGreen | lightCyan | lightRed | pink
  | yellow | white
  deriving DecidableEq, Repr

def Color.toByte : Color → UInt8
  | .black => 0 | .blue => 1 | .green => 2 | .cyan => 3
  | .red => 4 | .magenta => 5 | .brown => 6 | .lightGray => 7
  | .darkGray => 8 | .lightBlue => 9 | .lightGreen => 10 | .lightCyan => 11
  | .lightRed => 12 | .pink => 13 | .yellow => 14 | .white => 15

structure ColorCode where
  code : UInt8
  deriving DecidableEq, Repr

def ColorCode.new (foreground background : Color) : ColorCode :=
  ⟨background.toByte <<< 4 ||| foreground.toByte⟩

structure ScreenChar where
  asciiCharacter : UInt8
  colorCode : ColorCode
  deriving DecidableEq, Repr

abbrev bufferHeight : Nat := 25
abbrev bufferWidth : Nat := 80

structure Buffer where
  chars : Vector (Vector ScreenChar bufferWidth) bufferHeight
  deriving DecidableEq, Repr

namespace Buffer

def read (b : Buffer) (row col : Nat) : Option ScreenChar := do
  let cells ← b.chars[row]?
  cells[col]?

def write (b : Buffer) (row col : Nat) (c : ScreenChar) : Option Buffer :=
  if h : row < bufferHeight ∧ col < bufferWidth then
    some ⟨b.chars.set row (b.chars[(⟨row, h.1⟩ : Fin bufferHeight)].set col c h.2) h.1⟩
  else none

/-- The inner loop of `screen_contains`: a window is left at the first byte
that is another one. -/
def windowMatches (b : Buffer) (needle : List UInt8) (row start : Nat) : Option Bool :=
  needle.zipIdx.allM fun (byte, i) => do
    let character ← b.read row (start + i)
    pure (character.asciiCharacter = byte)

/-- The loops over the rows and over the windows of a row, which the first
match ends. -/
def contains (b : Buffer) (needle : List UInt8) : Option Bool :=
  (List.range bufferHeight).anyM fun row =>
    (List.range (bufferWidth - needle.length + 1)).anyM fun start =>
      b.windowMatches needle row start

end Buffer

/-- The CRTC as the cursor code drives it: a write to the data port lands
in the register the index port selected last. -/
structure Crtc where
  index : UInt8
  registers : UInt8 → UInt8

namespace Crtc

def writeIndex (c : Crtc) (value : UInt8) : Crtc := { c with index := value }

def writeData (c : Crtc) (value : UInt8) : Crtc :=
  { c with registers := Function.update c.registers c.index value }

end Crtc

structure Writer where
  columnPosition : Nat
  colorCode : ColorCode
  buffer : Buffer
  crtc : Crtc

namespace Writer

def blank (w : Writer) : ScreenChar := ⟨0x20, w.colorCode⟩

def moveHardwareCursor (w : Writer) : Writer :=
  let position := (bufferHeight - 1) * bufferWidth + w.columnPosition
  { w with crtc :=
      (((w.crtc.writeIndex cursorLocationHigh).writeData
          (UInt8.ofNat ((position >>> 8) &&& 0xff))).writeIndex
        cursorLocationLow).writeData (UInt8.ofNat (position &&& 0xff)) }

def clearRow (w : Writer) (row : Nat) : Option Writer := do
  let buffer ← (List.range bufferWidth).foldlM
    (fun b col => b.write row col w.blank) w.buffer
  pure { w with buffer }

/-- One row of the scroll: the cells of `row` copied onto the row above. -/
def copyRowUp (b : Buffer) (row : Nat) : Option Buffer :=
  (List.range bufferWidth).foldlM (fun b col => do
    let character ← b.read row col
    b.write (row - 1) col character) b

def newLine (w : Writer) : Option Writer := do
  let buffer ← (List.range' 1 (bufferHeight - 1)).foldlM copyRowUp w.buffer
  let w ← { w with buffer }.clearRow (bufferHeight - 1)
  pure { w with columnPosition := 0 }

/-- The arm of `write_byte` for anything but a line break: a row that is
already full is left behind first. -/
def putByte (w : Writer) (byte : UInt8) : Option Writer := do
  let w ← (if bufferWidth ≤ w.columnPosition then w.newLine else some w)
  let buffer ← w.buffer.write (bufferHeight - 1) w.columnPosition
    ⟨byte, w.colorCode⟩
  pure { w with buffer, columnPosition := w.columnPosition + 1 }

def writeByte (w : Writer) (byte : UInt8) : Option Writer := do
  let w ← (if byte = 0x0A then w.newLine else w.putByte byte)
  pure w.moveHardwareCursor

/-- What `write_string` sends for a byte: printable ASCII and the line break
as they are, anything else as the unknown-character square. -/
def shownByte (byte : UInt8) : UInt8 :=
  if (0x20 ≤ byte ∧ byte ≤ 0x7e) ∨ byte = 0x0A then byte else 0xfe

def writeString (w : Writer) (s : List UInt8) : Option Writer :=
  s.foldlM (fun w byte => w.writeByte (shownByte byte)) w

/-- `write_fmt`: the formatter hands the text over in pieces. -/
def writeFmt (w : Writer) (args : List (List UInt8)) : Option Writer :=
  args.foldlM writeString w

def clearScreen (w : Writer) : Option Writer := do
  let w ← (List.range bufferHeight).foldlM clearRow w
  pure { w with columnPosition := 0 }.moveHardwareCursor

def backspace (w : Writer) : Option Writer :=
  if w.columnPosition = 0 then some w
  else do
    let w := { w with columnPosition := w.columnPosition - 1 }
    let buffer ← w.buffer.write (bufferHeight - 1) w.columnPosition w.blank
    pure { w with buffer }.moveHardwareCursor

end Writer

/-! ## One access at a time

A `Writer` method is a sequence of accesses to volatile cells, to the column
and to ports, and an exception can strike between any two of them. Above is
what a method comes to when none does; below is the sequence itself. The
guard of `WRITER` keeps everybody else off the column meanwhile, so a method
that looks at it does so where it starts. -/

inductive Access where
  /-- A cell read and written to the row above it. -/
  | copyUp (row col : Nat)
  | put (row col : Nat) (byte : UInt8)
  | setColumn (col : Nat)
  | writeIndex (value : UInt8)
  | writeData (value : UInt8)
  deriving DecidableEq, Repr

def Access.perform (w : Writer) : Access → Option Writer
  | copyUp row col => do
      let character ← w.buffer.read row col
      let buffer ← w.buffer.write (row - 1) col character
      pure { w with buffer }
  | put row col byte => do
      let buffer ← w.buffer.write row col ⟨byte, w.colorCode⟩
      pure { w with buffer }
  | setColumn columnPosition => some { w with columnPosition }
  | writeIndex value => some { w with crtc := w.crtc.writeIndex value }
  | writeData value => some { w with crtc := w.crtc.writeData value }

namespace Writer

def perform (w : Writer) (accesses : List Access) : Option Writer :=
  accesses.foldlM Access.perform w

/-- `move_hardware_cursor` at column `col`. -/
def cursorAccesses (col : Nat) : List Access :=
  let position := (bufferHeight - 1) * bufferWidth + col
  [.writeIndex cursorLocationHigh, .writeData (UInt8.ofNat ((position >>> 8) &&& 0xff)),
    .writeIndex cursorLocationLow, .writeData (UInt8.ofNat (position &&& 0xff))]

def clearRowAccesses (row : Nat) : List Access :=
  (List.range bufferWidth).map fun col => .put row col 0x20

def copyRowUpAccesses (row : Nat) : List Access := (List.range bufferWidth).map (.copyUp row)

def newLineAccesses : List Access :=
  (List.range' 1 (bufferHeight - 1)).flatMap copyRowUpAccesses ++
    clearRowAccesses (bufferHeight - 1) ++ [.setColumn 0]

/-- A character in the last row, and the column after it. -/
def putAccesses (col : Nat) (byte : UInt8) : List Access :=
  [.put (bufferHeight - 1) col byte, .setColumn (col + 1)]

def writeByteAccesses (w : Writer) (byte : UInt8) : List Access :=
  if byte = 0x0A then newLineAccesses ++ cursorAccesses 0
  else if bufferWidth ≤ w.columnPosition then
    newLineAccesses ++ putAccesses 0 byte ++ cursorAccesses 1
  else putAccesses w.columnPosition byte ++ cursorAccesses (w.columnPosition + 1)

def clearScreenAccesses (_ : Writer) : List Access :=
  (List.range bufferHeight).flatMap clearRowAccesses ++ [.setColumn 0] ++ cursorAccesses 0

def backspaceAccesses (w : Writer) : List Access :=
  if w.columnPosition = 0 then []
  else
    let col := w.columnPosition - 1
    [.setColumn col, .put (bufferHeight - 1) col 0x20] ++ cursorAccesses col

end Writer

end ProtoOs.Ref
