import Mathlib.Data.List.Basic

/-!
# Scancodes

`keyboard.rs`: Scan Code Set 1 on a US layout. The only state is which of
the two Shift keys is held; everything else is a table. A code with bit 7
set is the release of a key, or the prefix of an extended one, and means
nothing unless it releases a Shift.
-/

namespace ProtoOs.Ref

def leftShiftMake : UInt8 := 0x2A
def leftShiftBreak : UInt8 := 0xAA
def rightShiftMake : UInt8 := 0x36
def rightShiftBreak : UInt8 := 0xB6

structure ShiftState where
  leftHeld : Bool
  rightHeld : Bool
  deriving DecidableEq, Repr

namespace ShiftState

def new : ShiftState := ⟨false, false⟩

def isActive (s : ShiftState) : Bool := s.leftHeld || s.rightHeld

end ShiftState

/-- The keys of the table, each with its byte without and with Shift. -/
def keyTable : List (UInt8 × UInt8 × UInt8) :=
  [ (0x02, 0x31, 0x21), (0x03, 0x32, 0x40), (0x04, 0x33, 0x23),
    (0x05, 0x34, 0x24), (0x06, 0x35, 0x25), (0x07, 0x36, 0x5E),
    (0x08, 0x37, 0x26), (0x09, 0x38, 0x2A), (0x0A, 0x39, 0x28),
    (0x0B, 0x30, 0x29), (0x0C, 0x2D, 0x5F), (0x0D, 0x3D, 0x2B),
    -- q w e r t y u i o p [ ]
    (0x10, 0x71, 0x51), (0x11, 0x77, 0x57), (0x12, 0x65, 0x45),
    (0x13, 0x72, 0x52), (0x14, 0x74, 0x54), (0x15, 0x79, 0x59),
    (0x16, 0x75, 0x55), (0x17, 0x69, 0x49), (0x18, 0x6F, 0x4F),
    (0x19, 0x70, 0x50), (0x1A, 0x5B, 0x7B), (0x1B, 0x5D, 0x7D),
    -- a s d f g h j k l ; ' ` \
    (0x1E, 0x61, 0x41), (0x1F, 0x73, 0x53), (0x20, 0x64, 0x44),
    (0x21, 0x66, 0x46), (0x22, 0x67, 0x47), (0x23, 0x68, 0x48),
    (0x24, 0x6A, 0x4A), (0x25, 0x6B, 0x4B), (0x26, 0x6C, 0x4C),
    (0x27, 0x3B, 0x3A), (0x28, 0x27, 0x22), (0x29, 0x60, 0x7E),
    (0x2B, 0x5C, 0x7C),
    -- z x c v b n m , . /
    (0x2C, 0x7A, 0x5A), (0x2D, 0x78, 0x58), (0x2E, 0x63, 0x43),
    (0x2F, 0x76, 0x56), (0x30, 0x62, 0x42), (0x31, 0x6E, 0x4E),
    (0x32, 0x6D, 0x4D), (0x33, 0x2C, 0x3C), (0x34, 0x2E, 0x3E),
    (0x35, 0x2F, 0x3F) ]

def asciiForMakeCode (code : UInt8) (shift : Bool) : Option UInt8 :=
  if code = 0x0E then some 0x08
  else if code = 0x1C then some 0x0A
  else if code = 0x39 then some 0x20
  else (keyTable.lookup code).map fun (lower, upper) =>
    if shift then upper else lower

end ProtoOs.Ref
