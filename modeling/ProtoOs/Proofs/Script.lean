import ProtoOs.Proofs.Settle
import ProtoOs.Proofs.Strokes

/-!
# What is typed is what is run

From the keyboard's port to the commands, in one statement. A script of
printable lines is typed key by key, and through the interrupts, the queue,
the drain, the Shift keys, the table and the editor of the line it comes out
again as the lines that were run.

The ideal machine reads a stream as two machines one after the other, the
keyboard and the line editor, whatever the commands do (`Reaches.typed`).
The rest is to run the two on the keystrokes of a script.
-/

namespace ProtoOs.Ref

open ProtoOs.Lib ProtoOs.Lib.Prog

variable {H : Type} (pf : Platform H)

/-! ## What a scancode does to the line -/

/-- The editor on a terminal keeps the line that `edit` keeps. -/
theorem key_line (t : Terminal UInt8) (line : List UInt8) (n : Nat) (byte : UInt8) :
    (Editor.key bufferWidth lineCapacity ⟨t, line, n⟩ (keyOf byte)).line = edit line byte := by
  by_cases he : byte = 0x08
  · rw [keyOf, edit, if_pos he, if_pos he]
    simp only [Editor.key, Editor.erase]
    split
    next hl => exact hl ▸ rfl
    · rfl
  · by_cases hb : 0x20 ≤ byte ∧ byte ≤ 0x7e
    · rw [keyOf, edit, if_neg he, if_neg he, if_pos hb]
      simp only [Editor.key, Editor.type]
      by_cases hlen : line.length < lineCapacity
      · have hroom : Printable byte ∧ line.length < 128 := ⟨hb, hlen⟩
        rw [if_pos hlen, if_pos hroom]
      · rw [if_neg hlen, if_neg fun h => hlen h.2]
    · rw [keyOf, edit, if_neg he, if_neg he, if_neg hb, if_neg fun h => hb h.1]
      rfl

namespace Ideal

/-- The Shift keys, the line being typed and the lines run. -/
def Input (shift : ShiftState) (line : List UInt8) (ran : List (List UInt8)) (i : Ideal H) : Prop :=
  i.shift = shift ∧ i.line = line ∧ i.ran = ran

section Input

variable {shift : ShiftState} {line : List UInt8} {ran : List (List UInt8)}

theorem input_kept : Kept (Input shift line ran : Ideal H → Prop) where
  term _ _ h := h
  heap _ _ h := h

theorem runLine_input :
    Obeys (Input shift line ran) (runLine pf) (fun _ => Input shift [] (ran ++ [line]))
      fun _ => True := by
  refine (input_kept.say []).bind fun _ => ?_
  refine Obeys.bind (Q := fun l i => l = line ∧ Input shift line ran i)
    (Obeys.modify fun i h => ⟨h.2.1, h⟩) fun l => ?_
  refine Obeys.bind (Q := fun _ => Input shift line (ran ++ [line])) ?_ fun _ =>
    Obeys.modify fun i h => ⟨h.1, rfl, h.2.2⟩
  refine Obeys.bind (Q := fun _ => Input shift line (ran ++ [line]))
    (Obeys.modify fun i h => ?_) fun _ => input_kept.answer pf (fun _ _ h => h) l
  obtain ⟨rfl, hshift, hline, hran⟩ := h
  exact ⟨hshift, hline, congrArg (· ++ [l]) hran⟩

theorem strike_input (byte : UInt8) :
    Obeys (Input shift line ran) (strike pf byte)
      (fun _ => Input shift (lineEditor.step line byte)
        (ran ++ (lineEditor.emit line byte).toList)) fun _ => True := by
  unfold strike
  split
  next hn =>
    have hstep : lineEditor.step line byte = [] := if_pos hn
    have hemit : lineEditor.emit line byte = some line := if_pos hn
    rw [hstep, hemit]
    exact (runLine_input pf).bind fun _ => input_kept.write prompt
  next hn =>
    have hstep : lineEditor.step line byte = edit line byte := if_neg hn
    have hemit : lineEditor.emit line byte = none := if_neg hn
    rw [hstep, hemit, Option.toList_none, List.append_nil]
    refine Obeys.modify fun i h => ?_
    obtain ⟨hshift, rfl, hran⟩ := h
    exact ⟨hshift, key_line i.term i.line 0 byte, hran⟩

theorem press_input (scancode : UInt8) :
    Obeys (Input shift line ran) (press pf scancode)
      (fun _ => Input (keyboard.step shift scancode)
        (lineEditor.after line (keyboard.emit shift scancode).toList)
        (ran ++ lineEditor.out line (keyboard.emit shift scancode).toList)) fun _ => True := by
  refine Obeys.bind (Q := fun byte i => byte = keyboard.emit shift scancode ∧
      Input (keyboard.step shift scancode) line ran i) (Obeys.modify fun i h => ?_) fun byte => ?_
  · obtain ⟨rfl, hline, hran⟩ := h
    exact ⟨rfl, rfl, hline, hran⟩
  · cases byte with
    | none =>
        refine Obeys.ret fun i h => ?_
        obtain ⟨hemit, hi⟩ := h
        rw [← hemit, Option.toList_none, Mealy.out, List.append_nil]
        exact hi
    | some byte =>
        intro i h
        obtain ⟨hemit, hi⟩ := h
        rw [← hemit, Option.toList_some, Mealy.out, Mealy.out, List.append_nil]
        exact strike_input pf byte i hi

/-- Over a stream, the keyboard and then the editor. -/
theorem presses_input (stream : List UInt8) : ∀ {shift line ran},
    Obeys (Input shift line ran) (presses pf stream : Act H Unit)
      (fun _ => Input (keyboard.after shift stream)
        (lineEditor.after line (keyboard.out shift stream))
        (ran ++ lineEditor.out line (keyboard.out shift stream))) fun _ => True := by
  induction stream with
  | nil =>
      intro shift line ran
      refine Obeys.ret fun i h => ?_
      rw [Mealy.out, Mealy.out, List.append_nil]
      exact h
  | cons scancode stream ih =>
      intro shift line ran
      refine (press_input pf scancode).bind fun _ => ?_
      rw [Mealy.out, Mealy.out_append, Mealy.after_append, ← List.append_assoc]
      exact ih

end Input

theorem Reaches.typed {mem : Paging.Mem} {heap : H} {stream : List UInt8} {i : Ideal H}
    (h : Reaches pf mem heap stream i) :
    i.line = lineEditor.after [] (keyboard.out ShiftState.new stream) ∧
      i.ran = lineEditor.out [] (keyboard.out ShiftState.new stream) := by
  obtain ⟨mi, _, hstream⟩ := h
  have hstart : Input ShiftState.new [] []
      (Ideal.start mi.info (pf.heapInit heapStart heapSize heap)) := ⟨rfl, rfl, rfl⟩
  obtain ⟨_, hline, hran⟩ := (presses_input pf stream _ hstart).1 () i hstream
  exact ⟨hline, hran⟩

end Ideal

/-! ## A script -/

/-- The make code of Enter. -/
def enterKey : UInt8 := 0x1C

/-- A line typed, and Enter pressed and let go. -/
def typeLine (line : List UInt8) : List UInt8 := encode line ++ [enterKey, breakCode enterKey]

def typeScript (lines : List (List UInt8)) : List UInt8 := lines.flatMap typeLine

/-- A line someone can type: printable, and as long as `LINE` holds. -/
def Typable (line : List UInt8) : Prop :=
  line.length ≤ lineCapacity ∧ ∀ byte ∈ line, Printable byte

section Script

variable {line : List UInt8} {lines : List (List UInt8)}

theorem typeLine_keystrokes (hline : Typable line) : Keystrokes (typeLine line) :=
  (encode_keystrokes hline.2).append (.key rfl .nil)

theorem typeScript_keystrokes (hlines : ∀ line ∈ lines, Typable line) :
    Keystrokes (typeScript lines) := by
  induction lines with
  | nil => exact .nil
  | cons line lines ih =>
      obtain ⟨hline, hrest⟩ := List.forall_mem_cons.mp hlines
      exact (typeLine_keystrokes hline).append (ih hrest)

theorem out_typeLine (hline : Typable line) (s : ShiftState) :
    keyboard.out s (typeLine line) = line ++ [0x0A] := by
  rw [typeLine, Mealy.out_append, out_encode hline.2]
  rfl

theorem out_typeScript (hlines : ∀ line ∈ lines, Typable line) :
    ∀ s, keyboard.out s (typeScript lines) = lines.flatMap (· ++ [0x0A]) := by
  induction lines with
  | nil => exact fun _ => rfl
  | cons line lines ih =>
      intro s
      obtain ⟨hline, hrest⟩ := List.forall_mem_cons.mp hlines
      rw [typeScript, List.flatMap_cons, Mealy.out_append, out_typeLine hline, ← typeScript,
        ih hrest, List.flatMap_cons]

/-- Printable bytes that fit are put on the line one after the other. -/
theorem lineEditor_text (text : List UInt8) :
    ∀ line : List UInt8, line.length + text.length ≤ lineCapacity →
      (∀ byte ∈ text, Printable byte) →
      lineEditor.out line text = [] ∧ lineEditor.after line text = line ++ text := by
  induction text with
  | nil => exact fun line _ _ => ⟨rfl, (List.append_nil line).symm⟩
  | cons byte text ih =>
      intro line hlen htext
      obtain ⟨hbyte, hrest⟩ := List.forall_mem_cons.mp htext
      have hn : byte ≠ 0x0A := by
        rintro rfl
        exact absurd hbyte.1 (by decide)
      have he : byte ≠ 0x08 := by
        rintro rfl
        exact absurd hbyte.1 (by decide)
      have hroom : line.length < 128 := by
        rw [List.length_cons] at hlen
        exact Nat.lt_of_lt_of_le (by omega) hlen
      have hstep : lineEditor.step line byte = line ++ [byte] := by
        have hput : Printable byte ∧ line.length < 128 := ⟨hbyte, hroom⟩
        simp only [lineEditor, edit, if_neg hn, if_neg he, if_pos hput]
      have hemit : lineEditor.emit line byte = none := if_neg hn
      obtain ⟨hout, hafter⟩ := ih (line ++ [byte]) (by simp at hlen ⊢; omega) hrest
      rw [Mealy.out, Mealy.after_cons, hemit, hstep, hout, hafter, List.append_assoc]
      exact ⟨rfl, rfl⟩

/-- The editor gives back the lines of a script. -/
theorem lineEditor_script (hlines : ∀ line ∈ lines, Typable line) :
    lineEditor.out [] (lines.flatMap (· ++ [0x0A])) = lines ∧
      lineEditor.after [] (lines.flatMap (· ++ [0x0A])) = [] := by
  induction lines with
  | nil => exact ⟨rfl, rfl⟩
  | cons line lines ih =>
      obtain ⟨hline, hrest⟩ := List.forall_mem_cons.mp hlines
      obtain ⟨hout, hafter⟩ := ih hrest
      obtain ⟨hout', hafter'⟩ := lineEditor_text line [] (by simpa using hline.1) hline.2
      rw [List.flatMap_cons, List.append_assoc, Mealy.out_append, Mealy.after_append, hout',
        hafter', List.nil_append, List.nil_append, List.singleton_append, Mealy.out,
        Mealy.after_cons]
      exact ⟨congrArg (List.cons line) hout, hafter⟩

end Script

/-! ## Through the whole kernel -/

section Runs

variable {buffer : Buffer} {crtc : Crtc} {heap : H} {mem : Paging.Mem} {later : List UInt8}
  {lines : List (List UInt8)} {ls : List (Label Fatal Unit)} {m : Machine H}

/-- Any script of printable lines of at most 128 bytes can be typed with
keystrokes alone; and in every run without fatal events and without overflow
in which these keystrokes, and no more, have been delivered, however the
interrupts fell, a drained kernel has run exactly the lines of the script,
in order, and holds an empty line. -/
theorem typed_script_runs (hlines : ∀ line ∈ lines, Typable line) :
    Keystrokes (typeScript lines) ∧
      (Run (system pf).step NoOverflow (Machine.start pf
          (Kernel.start buffer crtc heap mem (typeScript lines ++ later))) ls m →
        Drained m → m.cfg.data.port = later →
        m.cfg.data.globals.executed = lines ∧ m.cfg.data.globals.line.asStr = some []) := by
  refine ⟨typeScript_keystrokes hlines, fun hrun hd hport => ?_⟩
  obtain ⟨hf, hpc, hempty⟩ := hd
  obtain ⟨_, delivered, i, hsplit, hreach, hr⟩ :=
    loop_between pf (loop_inv pf (noOverflow_loopInv pf) hrun) hf hpc
  have hdelivered : typeScript lines = delivered := by
    have h := hsplit rfl
    rw [hempty, hport, List.append_nil] at h
    exact List.append_cancel_right h
  obtain ⟨hline, hran⟩ := hreach.typed pf
  rw [← hdelivered, out_typeScript hlines] at hline hran
  obtain ⟨hout, hafter⟩ := lineEditor_script hlines
  have hholds := hr.holds
  rw [hline, hafter] at hholds
  exact ⟨hr.ran.trans (hran.trans hout), hholds.asStr⟩

end Runs

/-- A line that is no command, and an empty one. -/
def smallScript : List (List UInt8) := [[0x4F, 0x69], []]

theorem smallScript_reaches :
    ∃ i, Ideal.Reaches smallPlatform (fun _ _ => .unused) 0 (typeScript smallScript) i := by
  have hinfo : (memoryInit smallPlatform.memoryMap smallPlatform.root fun _ _ => .unused).map
      (·.info) = some ⟨63 * 4096, heapStart, heapSize⟩ := by decide +kernel
  obtain ⟨mi, hmi, hmi'⟩ := Option.map_eq_some_iff.mp hinfo
  have hok : (match Ideal.presses smallPlatform (typeScript smallScript)
      (Ideal.start ⟨63 * 4096, heapStart, heapSize⟩
        (smallPlatform.heapInit heapStart heapSize 0)) with
    | .ok _ => true
    | .error _ => false) = true := by decide +kernel
  split at hok
  next r hr => exact ⟨r.2, mi, hmi, by rw [hmi']; exact hr⟩
  · cases hok

/-- Asleep after the script, with a key still to come. -/
theorem typed_script_runs_small :
    ∃ ls m, Run (system smallPlatform).step NoOverflow
        (smallStart (typeScript smallScript ++ [0x1E])) ls m ∧
      m.halted = true ∧ m.cfg.data.globals.executed = smallScript := by
  obtain ⟨i, hi⟩ := smallScript_reaches
  obtain ⟨ls, m, hrun, hrest, hport, _⟩ : ∃ ls m, Run (system smallPlatform).step NoOverflow
      (smallStart (typeScript smallScript ++ [0x1E])) ls m ∧ Rested m ∧ _ :=
    rested_realised smallPlatform hi [0x1E]
  have hpc := (loop_asleep smallPlatform (loop_inv smallPlatform
    (noOverflow_loopInv smallPlatform) hrun) hrest.halted).2
  have htyped : ∀ line ∈ smallScript, line.length ≤ lineCapacity ∧
      ∀ byte ∈ line, Printable byte := by decide +kernel
  obtain ⟨hran, _⟩ := (typed_script_runs smallPlatform htyped).2 hrun
    ⟨hrest.frames, .inr hpc, hrest.empty⟩ hport
  exact ⟨ls, m, hrun, hrest.halted, hran⟩

end ProtoOs.Ref
