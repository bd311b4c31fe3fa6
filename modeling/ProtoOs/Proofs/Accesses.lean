import ProtoOs.Proofs.Screen

/-!
# A method is its accesses

`Ref.Vga` has every method of the `Writer` twice: as the sequence of its
accesses, which an exception may cut short, and as what the whole of them
comes to. Both are the same function where nothing strikes. No access of
printing or clearing is out of range, whatever state the writer is in, so
these panic nowhere in between either.
-/

namespace ProtoOs.Ref

/-! ## Accesses in range -/

/-- An access to a cell names one of the screen. -/
def Access.InRange : Access → Prop
  | .copyUp row col => row < bufferHeight ∧ col < bufferWidth
  | .put row col _ => row < bufferHeight ∧ col < bufferWidth
  | .setColumn _ => True
  | .writeIndex _ => True
  | .writeData _ => True

/-- It does not panic. -/
theorem Access.perform_total {a : Access} (h : a.InRange) (w : Writer) :
    ∃ w', a.perform w = some w' := by
  cases a with
  | copyUp row col =>
      obtain ⟨c, hc⟩ := Buffer.read_eq_some (b := w.buffer) h.1 h.2
      obtain ⟨b, hb, _⟩ := w.buffer.write_spec (r := row - 1) (Nat.lt_of_le_of_lt
        (Nat.sub_le row 1) h.1) h.2 c
      exact ⟨{ w with buffer := b }, by simp [perform, hc, hb]⟩
  | put row col byte =>
      obtain ⟨b, hb, _⟩ := w.buffer.write_spec h.1 h.2 ⟨byte, w.colorCode⟩
      exact ⟨{ w with buffer := b }, by simp [perform, hb]⟩
  | setColumn col => exact ⟨_, rfl⟩
  | writeIndex value => exact ⟨_, rfl⟩
  | writeData value => exact ⟨_, rfl⟩

namespace Writer

theorem cursorAccesses_inRange (col : Nat) : ∀ a ∈ cursorAccesses col, a.InRange := by
  intro a ha
  simp only [cursorAccesses, List.mem_cons, List.not_mem_nil, or_false] at ha
  rcases ha with rfl | rfl | rfl | rfl <;> trivial

theorem clearRowAccesses_inRange {row : Nat} (hrow : row < bufferHeight) :
    ∀ a ∈ clearRowAccesses row, a.InRange := by
  intro a ha
  obtain ⟨col, hcol, rfl⟩ := List.mem_map.mp ha
  exact ⟨hrow, List.mem_range.mp hcol⟩

theorem newLineAccesses_inRange : ∀ a ∈ newLineAccesses, a.InRange := by
  intro a ha
  rcases List.mem_append.mp ha with ha | ha
  · rcases List.mem_append.mp ha with ha | ha
    · obtain ⟨row, hrow, ha⟩ := List.mem_flatMap.mp ha
      obtain ⟨col, hcol, rfl⟩ := List.mem_map.mp ha
      exact ⟨by have := (List.mem_range'_1.mp hrow).2; omega, List.mem_range.mp hcol⟩
    · exact clearRowAccesses_inRange (by decide) a ha
  · rw [List.mem_singleton.mp ha]
    trivial

theorem putAccesses_inRange {col : Nat} (hcol : col < bufferWidth) (byte : UInt8) :
    ∀ a ∈ putAccesses col byte, a.InRange := by
  intro a ha
  simp only [putAccesses, List.mem_cons, List.not_mem_nil, or_false] at ha
  rcases ha with rfl | rfl
  · exact ⟨by decide, hcol⟩
  · trivial

theorem writeByteAccesses_inRange (w : Writer) (byte : UInt8) :
    ∀ a ∈ w.writeByteAccesses byte, a.InRange := by
  intro a ha
  unfold writeByteAccesses at ha
  split at ha
  · rcases List.mem_append.mp ha with ha | ha
    · exact newLineAccesses_inRange a ha
    · exact cursorAccesses_inRange _ a ha
  · split at ha <;> rename_i hfull
    · rcases List.mem_append.mp ha with ha | ha
      · rcases List.mem_append.mp ha with ha | ha
        · exact newLineAccesses_inRange a ha
        · exact putAccesses_inRange (by decide) byte a ha
      · exact cursorAccesses_inRange _ a ha
    · rcases List.mem_append.mp ha with ha | ha
      · exact putAccesses_inRange (Nat.lt_of_not_le hfull) byte a ha
      · exact cursorAccesses_inRange _ a ha

/-! ## Accesses one after another -/

theorem perform_append (w : Writer) (as bs : List Access) :
    w.perform (as ++ bs) = (w.perform as).bind fun w => w.perform bs :=
  List.foldlM_append

theorem perform_flatMap {α : Type} (f : α → List Access) (xs : List α) :
    ∀ w : Writer, w.perform (xs.flatMap f) = xs.foldlM (fun w x => w.perform (f x)) w := by
  induction xs with
  | nil => intro w; rfl
  | cons x xs ih =>
      intro w
      rw [List.flatMap_cons, perform_append, List.foldlM_cons]
      exact Option.bind_congr fun w _ => ih w

/-- A loop that changes the buffer and nothing else. -/
theorem foldlM_buffer {α : Type} (f : ColorCode → Buffer → α → Option Buffer) (xs : List α) :
    ∀ w : Writer, xs.foldlM (fun w x => (f w.colorCode w.buffer x).bind fun buffer =>
        some ({ w with buffer } : Writer)) w =
      (xs.foldlM (f w.colorCode) w.buffer).bind fun buffer => some { w with buffer } := by
  induction xs with
  | nil => intro w; rfl
  | cons x xs ih =>
      intro w
      rw [List.foldlM_cons, List.foldlM_cons]
      cases f w.colorCode w.buffer x with
      | none => rfl
      | some b => exact ih { w with buffer := b }

theorem perform_clearRow (w : Writer) (row : Nat) :
    w.perform (clearRowAccesses row) = w.clearRow row := by
  rw [perform, clearRowAccesses, List.foldlM_map]
  exact foldlM_buffer (fun color b col => b.write row col ⟨0x20, color⟩) _ w

theorem perform_copyRowUp (w : Writer) (row : Nat) :
    w.perform (copyRowUpAccesses row) =
      (copyRowUp w.buffer row).bind fun buffer => some { w with buffer } := by
  rw [perform, copyRowUpAccesses, List.foldlM_map, copyRowUp]
  refine Eq.trans (congrArg (fun f => List.foldlM f w _) ?_) (foldlM_buffer
    (fun _ b col => do
      let character ← b.read row col
      b.write (row - 1) col character) _ w)
  funext w col
  simp only [Access.perform, Option.bind_eq_bind, Option.pure_def, Option.bind_assoc]

theorem perform_newLine (w : Writer) : w.perform newLineAccesses = w.newLine := by
  rw [newLineAccesses, perform_append, perform_append, perform_flatMap]
  simp only [perform_copyRowUp]
  rw [foldlM_buffer (fun _ b row => copyRowUp b row), newLine]
  simp only [Option.bind_eq_bind, Option.pure_def, Option.bind_assoc, Option.bind_some,
    perform_clearRow]
  rfl

theorem perform_cursor (w : Writer) :
    w.perform (cursorAccesses w.columnPosition) = some w.moveHardwareCursor := rfl

theorem perform_put (w : Writer) (byte : UInt8) :
    w.perform (putAccesses w.columnPosition byte) =
      (w.buffer.write (bufferHeight - 1) w.columnPosition ⟨byte, w.colorCode⟩).bind fun buffer =>
        some { w with buffer, columnPosition := w.columnPosition + 1 } := by
  rw [perform, putAccesses, List.foldlM_cons]
  simp only [Access.perform, Option.bind_eq_bind, Option.pure_def, Option.bind_assoc,
    Option.bind_some]
  rfl

theorem newLine_column {w w' : Writer} (h : w.newLine = some w') : w'.columnPosition = 0 := by
  obtain ⟨b, hb, _⟩ := w.newLine_spec
  obtain rfl := Option.some.inj (hb.symm.trans h)
  rfl

/-- The accesses of `write_byte` are `write_byte`. -/
theorem perform_writeByte (w : Writer) (byte : UInt8) :
    w.perform (w.writeByteAccesses byte) = w.writeByte byte := by
  unfold writeByteAccesses writeByte putByte
  split
  · rw [perform_append, perform_newLine]
    refine Option.bind_congr fun w' hw' => ?_
    rw [← newLine_column hw', perform_cursor]
    rfl
  · split
    · rw [perform_append, perform_append, perform_newLine]
      simp only [Option.bind_eq_bind, Option.bind_assoc]
      refine Option.bind_congr fun w' hw' => ?_
      have hput := perform_put w' byte
      rw [newLine_column hw'] at hput
      rw [hput, newLine_column hw']
      simp only [Option.bind_assoc]
      exact Option.bind_congr fun b _ => rfl
    · rw [perform_append, perform_put]
      simp only [Option.bind_eq_bind, Option.bind_assoc]
      exact Option.bind_congr fun b _ => rfl

theorem perform_clearScreen (w : Writer) : w.perform w.clearScreenAccesses = w.clearScreen := by
  rw [clearScreenAccesses, perform_append, perform_append, perform_flatMap, clearScreen]
  simp only [perform_clearRow, Option.bind_assoc]
  exact Option.bind_congr fun w _ => rfl

theorem perform_backspace (w : Writer) : w.perform w.backspaceAccesses = w.backspace := by
  unfold backspaceAccesses backspace
  split
  · rfl
  · simp only [perform, List.cons_append, List.foldlM_cons, Access.perform,
      Option.bind_eq_bind, Option.bind_assoc, Option.bind_some]
    exact Option.bind_congr fun b _ => rfl

end Writer

end ProtoOs.Ref
