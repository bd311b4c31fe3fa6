import ProtoOs.Proofs.Shift
import ProtoOs.Proofs.Typing

/-!
# Every printable line can be typed

The table read backwards. `stroke` is a way to type one printable byte from
any Shift state: it puts both Shift keys where they are needed, whatever
they were, and then strikes the key. A line is typed stroke by stroke.

The table lists no byte twice, so there is no other key for a byte and,
unless it is the space, no other Shift: whatever else a stream holds, the
keys in it that type something are those of the bytes it types.
-/

namespace ProtoOs.Ref

open ProtoOs.Lib ProtoOs.Lib.Prog

/-! ## The table, backwards -/

/-- The rows of the table, one entry for each of the two bytes of a key. -/
def tableEntries : List ((UInt8 × Bool) × UInt8) :=
  keyTable.flatMap fun (code, lower, upper) => [((code, false), lower), ((code, true), upper)]

/-- The key of a printable byte, and whether Shift goes with it. -/
def strokeFor (byte : UInt8) : UInt8 × Bool :=
  ((tableEntries.find? fun e => e.2 = byte).map Prod.fst).getD (0x39, false)

theorem strokeFor_row {code lower upper : UInt8} (hrow : (code, lower, upper) ∈ keyTable) :
    strokeFor lower = (code, false) ∧ strokeFor upper = (code, true) := by
  have htable : keyTable.all (fun e => decide (strokeFor e.2.1 = (e.1, false) ∧
      strokeFor e.2.2 = (e.1, true))) = true := by
    decide +kernel
  exact of_decide_eq_true (List.all_eq_true.mp htable (code, lower, upper) hrow)

/-- No byte is missing. -/
theorem strokeFor_types {byte : UInt8} (hb : Printable byte) :
    asciiForMakeCode (strokeFor byte).1 (strokeFor byte).2 = some byte := by
  have hall : ∀ n : Fin 95, asciiForMakeCode (strokeFor (UInt8.ofNat (0x20 + n))).1
      (strokeFor (UInt8.ofNat (0x20 + n))).2 = some (UInt8.ofNat (0x20 + n)) := by
    decide +kernel
  have hlow : 0x20 ≤ byte.toNat := UInt8.le_iff_toNat_le.mp hb.1
  have hhigh : byte.toNat ≤ 0x7e := UInt8.le_iff_toNat_le.mp hb.2
  have hbyte : UInt8.ofNat (0x20 + (byte.toNat - 0x20)) = byte := by
    rw [Nat.add_sub_cancel' hlow, UInt8.ofNat_toNat]
  have hhere := hall ⟨byte.toNat - 0x20, by omega⟩
  simp only [hbyte] at hhere
  exact hhere

/-- And none is there twice. -/
theorem strokeFor_unique {code byte : UInt8} {shift : Bool} (hb : Printable byte)
    (hcode : asciiForMakeCode code shift = some byte) :
    code = (strokeFor byte).1 ∧ (byte ≠ 0x20 → shift = (strokeFor byte).2) := by
  rcases asciiForMakeCode_cases hcode with ⟨_, rfl⟩ | ⟨_, rfl⟩ | ⟨hspace, rfl⟩ |
    ⟨lower, upper, hrow, rfl⟩
  · exact absurd hb (by decide)
  · exact absurd hb (by decide)
  · exact ⟨hspace, fun hne => absurd rfl hne⟩
  · obtain ⟨hlower, hupper⟩ := strokeFor_row hrow
    cases shift with
    | false => exact ⟨(congrArg Prod.fst hlower).symm, fun _ => (congrArg Prod.snd hlower).symm⟩
    | true => exact ⟨(congrArg Prod.fst hupper).symm, fun _ => (congrArg Prod.snd hupper).symm⟩

/-! ## Streams of keystrokes -/

def isShift (code : UInt8) : Bool :=
  code = leftShiftMake || code = leftShiftBreak || code = rightShiftMake || code = rightShiftBreak

/-- The make code of a key that types something. -/
def isKey (code : UInt8) : Bool := (asciiForMakeCode code false).isSome

theorem isKey_eq (code : UInt8) (s : ShiftState) :
    isKey code = (keyboard.emit s code).isSome :=
  asciiForMakeCode_isSome code false s.isActive

/-- The code a key sends when it is let go. -/
def breakCode (code : UInt8) : UInt8 := code ||| 0x80

/-- Shift codes, and keys that are pressed and let go. -/
inductive Keystrokes : List UInt8 → Prop
  | nil : Keystrokes []
  | shift {code : UInt8} {stream : List UInt8} (hcode : isShift code = true)
      (rest : Keystrokes stream) : Keystrokes (code :: stream)
  | key {code : UInt8} {stream : List UInt8} (hcode : isKey code = true)
      (rest : Keystrokes stream) : Keystrokes (code :: breakCode code :: stream)

theorem Keystrokes.append {u v : List UInt8} (hu : Keystrokes u) (hv : Keystrokes v) :
    Keystrokes (u ++ v) := by
  induction hu with
  | nil => exact hv
  | shift hcode _ ih => exact .shift hcode ih
  | key hcode _ ih => exact .key hcode ih

/-- A key that types something is no Shift, and letting it go is neither. -/
theorem isKey_facts {code : UInt8} (h : isKey code = true) :
    isShift code = false ∧ isShift (breakCode code) = false ∧ isKey (breakCode code) = false := by
  have htable : (0x0E :: 0x1C :: 0x39 :: keyTable.map Prod.fst).all (fun c => decide
      (isShift c = false ∧ isShift (breakCode c) = false ∧ isKey (breakCode c) = false)) =
        true := by
    decide +kernel
  refine of_decide_eq_true (List.all_eq_true.mp htable code ?_)
  obtain ⟨byte, hbyte⟩ := Option.isSome_iff_exists.mp h
  rcases asciiForMakeCode_cases hbyte with ⟨rfl, _⟩ | ⟨rfl, _⟩ | ⟨rfl, _⟩ |
    ⟨lower, upper, hrow, _⟩
  · simp
  · simp
  · simp
  · simp only [List.mem_cons]
    exact .inr (.inr (.inr (List.mem_map.mpr ⟨_, hrow, rfl⟩)))

theorem isShift_not_isKey {code : UInt8} (h : isShift code = true) : isKey code = false := by
  cases hkey : isKey code with
  | false => rfl
  | true => exact absurd h (by rw [(isKey_facts hkey).1]; decide)

/-- Up to Shift codes, a stream of keystrokes is its keys. -/
theorem Keystrokes.keys {stream : List UInt8} (h : Keystrokes stream) :
    stream.filter (fun code => !isShift code) =
      (stream.filter isKey).flatMap fun code => [code, breakCode code] := by
  induction h with
  | nil => rfl
  | shift hcode _ ih => simp [hcode, isShift_not_isKey hcode, ih]
  | key hcode _ ih =>
      obtain ⟨hshift, hshift', hkey⟩ := isKey_facts hcode
      simp [hcode, hshift, hshift', hkey, ih]

/-- The keys that type something are those of the bytes typed. -/
theorem filter_isKey (stream : List UInt8) :
    ∀ s, (∀ byte ∈ keyboard.out s stream, Printable byte) →
      stream.filter isKey = (keyboard.out s stream).map fun byte => (strokeFor byte).1 := by
  induction stream with
  | nil => exact fun _ _ => rfl
  | cons code stream ih =>
      intro s hout
      rw [Mealy.out] at hout ⊢
      have hrest := ih (keyboard.step s code) fun byte hmem => hout byte (by simp [hmem])
      have hkey := isKey_eq code s
      cases hemit : keyboard.emit s code with
      | none =>
          rw [hemit] at hkey
          rw [List.filter_cons_of_neg (by simp [hkey])]
          exact hrest
      | some byte =>
          rw [hemit] at hkey hout
          have hcode := (strokeFor_unique (hout byte (by simp)) hemit).1
          rw [List.filter_cons_of_pos (by simp [hkey]), hrest, hcode]
          rfl

/-! ## Typing a text -/

/-- Shift as it is wanted, whatever it was. -/
def setShift : Bool → List UInt8
  | true => [leftShiftMake]
  | false => [leftShiftBreak, rightShiftBreak]

def stroke (byte : UInt8) : List UInt8 :=
  setShift (strokeFor byte).2 ++ [(strokeFor byte).1, breakCode (strokeFor byte).1]

def encode (text : List UInt8) : List UInt8 := text.flatMap stroke

theorem setShift_isActive (s : ShiftState) (shift : Bool) :
    keyboard.out s (setShift shift) = [] ∧
      (keyboard.after s (setShift shift)).isActive = shift := by
  cases shift with
  | true => exact ⟨rfl, rfl⟩
  | false => exact ⟨rfl, rfl⟩

section Printable

variable {byte : UInt8} {text : List UInt8}

theorem isKey_strokeFor (hb : Printable byte) : isKey (strokeFor byte).1 = true := by
  rw [isKey, asciiForMakeCode_isSome _ false (strokeFor byte).2, strokeFor_types hb]
  rfl

theorem stroke_keystrokes (hb : Printable byte) : Keystrokes (stroke byte) := by
  refine Keystrokes.append ?_ (.key (isKey_strokeFor hb) .nil)
  cases (strokeFor byte).2 with
  | true => exact .shift rfl .nil
  | false => exact .shift rfl (.shift rfl .nil)

theorem out_stroke (hb : Printable byte) (s : ShiftState) :
    keyboard.out s (stroke byte) = [byte] := by
  obtain ⟨hout, hactive⟩ := setShift_isActive s (strokeFor byte).2
  have htype : keyboard.emit (keyboard.after s (setShift (strokeFor byte).2)) (strokeFor byte).1 =
      some byte := by
    show asciiForMakeCode _ (keyboard.after s (setShift (strokeFor byte).2)).isActive = some byte
    rw [hactive]
    exact strokeFor_types hb
  have hrelease : ∀ s, keyboard.emit s (breakCode (strokeFor byte).1) = none := by
    intro s
    rw [← Option.isNone_iff_eq_none, ← Option.isSome_eq_false_iff, ← isKey_eq]
    exact (isKey_facts (isKey_strokeFor hb)).2.2
  rw [stroke, Mealy.out_append, hout, Mealy.out, Mealy.out, htype, hrelease]
  rfl

theorem encode_keystrokes (ht : ∀ byte ∈ text, Printable byte) : Keystrokes (encode text) := by
  induction text with
  | nil => exact .nil
  | cons byte text ih =>
      exact (stroke_keystrokes (ht byte (by simp))).append (ih fun x hx => ht x (by simp [hx]))

/-- What is encoded comes out again, from any Shift state. -/
theorem out_encode (ht : ∀ byte ∈ text, Printable byte) :
    ∀ s, keyboard.out s (encode text) = text := by
  induction text with
  | nil => exact fun _ => rfl
  | cons byte text ih =>
      intro s
      have hrest := ih fun x hx => ht x (by simp [hx])
      rw [encode, List.flatMap_cons, Mealy.out_append, out_stroke (ht byte (by simp)), ← encode,
        hrest]
      rfl

example : encode [0x4F, 0x69] = [0x2A, 0x18, 0x98, 0xAA, 0xB6, 0x17, 0x97] := by decide

end Printable

/-! ## Through the code -/

section Code

variable {H : Type} {trap : Cfg LockId (Globals H) → Outcome LockId (Globals H) Fatal Unit}
  (pf : Platform H) {g : Globals H} {b : Bool} {t : List UInt8}

variable (trap) in
/-- Printable bytes that fit end up on the line. -/
theorem processAll_push (stream : List UInt8) :
    ∀ {g : Globals H} {l : List UInt8}, g.line.Holds l →
      (∀ byte ∈ keyboard.out g.shift stream, Printable byte) →
      l.length + (keyboard.out g.shift stream).length ≤ lineCapacity →
      ∃ g', (processAll pf stream).Yields trap g noLock b () g' ∧
        g'.line.Holds (l ++ keyboard.out g.shift stream) := by
  induction stream with
  | nil => exact fun hl _ _ => ⟨_, Yields.ret, by simpa [Mealy.out] using hl⟩
  | cons code stream ih =>
      intro g l hl hout hlen
      rw [Mealy.out] at hout hlen ⊢
      have htranslate : (translate code).Yields trap g noLock b (keyboard.emit g.shift code)
          { g with shift := keyboard.step g.shift code } := translate_yields code rfl
      cases hemit : keyboard.emit g.shift code with
      | none =>
          rw [hemit] at htranslate hout hlen
          obtain ⟨g', hrest, hl'⟩ := ih (g := { g with shift := keyboard.step g.shift code }) hl
            hout hlen
          exact ⟨g', Yields.bind (Yields.bind htranslate Yields.ret) hrest, hl'⟩
      | some byte =>
          rw [hemit] at htranslate hout hlen
          rw [List.length_append, Option.toList_some, List.length_singleton] at hlen
          obtain ⟨w, hw⟩ := g.writer.writeString_total [byte]
          obtain ⟨line, hfeed, hline⟩ := feed_push_yields trap pf (b := b)
            (g := { g with shift := keyboard.step g.shift code }) (hout byte (by simp)) hl
            (by omega) hw
          obtain ⟨g', hrest, hl'⟩ := ih (g := { g with
              shift := keyboard.step g.shift code, fed := g.fed ++ [byte], line := line,
              writer := w, writerReady := true }) hline (fun x hx => hout x (by simp [hx]))
            (by simp; omega)
          refine ⟨g', Yields.bind (Yields.bind htranslate hfeed) hrest, ?_⟩
          rw [Option.toList_some, ← List.append_assoc]
          exact hl'

/-- What `translate` gives for a scancode is the machine's answer, and
nothing else. -/
theorem translate_yields_iff {code byte : UInt8} :
    (∃ g', (translate code).Yields trap g noLock b (some byte) g') ↔
      asciiForMakeCode code g.shift.isActive = some byte := by
  constructor
  · rintro ⟨g', h⟩
    exact ((translate_yields code rfl).unique h).1
  · intro h
    have hyields : (translate code).Yields trap g noLock b
        (asciiForMakeCode code g.shift.isActive)
        { g with shift := keyboard.step g.shift code } := translate_yields code rfl
    rw [h] at hyields
    exact ⟨_, hyields⟩

variable (trap) in
/-- From any Shift state and with the line empty, any printable text of at
most 128 bytes can be typed with keystrokes alone, and is then what `LINE`
reads. Each byte of it but the space comes from one make code and with Shift
either held or not. So the keys in any stream that types the text are always
the same, and two streams of keystrokes for it differ in Shift codes only. -/
theorem printable_line_typed (hline : g.line.len = 0) (hlen : t.length ≤ 128)
    (ht : ∀ byte ∈ t, 0x20 ≤ byte ∧ byte ≤ 0x7e) (b : Bool) :
    (∃ stream, Keystrokes stream ∧
      (∃ g', (translateAll stream).Yields trap g noLock b t g') ∧
      ∃ g', (processAll pf stream).Yields trap g noLock b () g' ∧ g'.line.asStr = some t) ∧
    (∀ byte ∈ t, byte ≠ 0x20 → ∃ code shift, ∀ (g₁ : Globals H) (scancode : UInt8),
      (∃ g₂, (translate scancode).Yields trap g₁ noLock b (some byte) g₂) ↔
        scancode = code ∧ g₁.shift.isActive = shift) ∧
    ∃ keys : List UInt8, ∀ (g₁ g₂ : Globals H) (stream : List UInt8),
      (translateAll stream).Yields trap g₁ noLock b t g₂ →
        stream.filter isKey = keys ∧
        (Keystrokes stream → stream.filter (fun code => !isShift code) =
          keys.flatMap fun code => [code, breakCode code]) := by
  refine ⟨⟨encode t, encode_keystrokes ht, ?_, ?_⟩, fun byte hmem hne => ?_,
    t.map fun byte => (strokeFor byte).1, fun g₁ g₂ stream hstream => ?_⟩
  · have hyields : (translateAll (encode t)).Yields trap g noLock b
        (keyboard.out g.shift (encode t))
        { g with shift := keyboard.after g.shift (encode t) } := translateAll_yields rfl _
    rw [out_encode ht] at hyields
    exact ⟨_, hyields⟩
  · have hout := out_encode ht g.shift
    obtain ⟨g', hrun, hl⟩ := processAll_push trap pf (b := b) (encode t)
      (LineBuffer.holds_nil hline) (by rw [hout]; exact ht)
      (by rw [hout, List.length_nil, Nat.zero_add]; exact hlen)
    rw [hout, List.nil_append] at hl
    exact ⟨g', hrun, hl.asStr⟩
  · refine ⟨(strokeFor byte).1, (strokeFor byte).2, fun g₁ scancode => ?_⟩
    rw [translate_yields_iff]
    constructor
    · intro h
      obtain ⟨hcode, hshift⟩ := strokeFor_unique (ht byte hmem) h
      exact ⟨hcode, hshift hne⟩
    · rintro ⟨rfl, hshift⟩
      rw [hshift]
      exact strokeFor_types (ht byte hmem)
  · have hout := ((translateAll_yields rfl stream).unique hstream).1
    have hkeys : stream.filter isKey = t.map fun byte => (strokeFor byte).1 := by
      rw [← hout]
      exact filter_isKey stream _ (by rw [hout]; exact ht)
    exact ⟨hkeys, fun h => hkeys ▸ h.keys⟩

end Code

/-- `Oi ~`, with both Shift keys down to begin with. -/
theorem printable_line_typed_mixed :
    ∃ stream, Keystrokes stream ∧ ∃ g',
      (processAll smallPlatform stream).Yields (globalsTrapRun smallPlatform)
        { (smallStart []).cfg.data.globals with shift := ⟨true, true⟩ } noLock false () g' ∧
      g'.line.asStr = some [0x4F, 0x69, 0x20, 0x7E] := by
  obtain ⟨stream, hstream, _, htyped⟩ := (printable_line_typed (globalsTrapRun smallPlatform)
    smallPlatform (g := { (smallStart []).cfg.data.globals with shift := ⟨true, true⟩ })
    (t := [0x4F, 0x69, 0x20, 0x7E]) rfl (by decide) (by simp) false).1
  exact ⟨stream, hstream, htyped⟩

end ProtoOs.Ref
