import ProtoOs.Lib.Frame
import ProtoOs.Proofs.Serving

/-!
# From scancodes to commands

`translate` and `feed` over a stream of scancodes, as far as the input side
goes: what is typed, what `LINE` holds, and what `execute` is called with.
The specification is two machines one after the other. The keyboard turns
scancodes into bytes; the line editor turns bytes into lines, one for each
Enter, edited from the bytes since the one before.

A command may end the run, by a panic or by an exception it was asked for,
so the statement covers every way a run can end: the calls made so far are
the first of the edited lines, and all of them where the run came through.
-/

namespace ProtoOs.Ref

open ProtoOs.Lib ProtoOs.Lib.Prog

/-! ## The line editor -/

/-- What a byte does to the line, as a list. -/
def edit (line : List UInt8) (byte : UInt8) : List UInt8 :=
  if byte = 0x08 then line.dropLast
  else if Printable byte ∧ line.length < 128 then line ++ [byte]
  else line

/-- An Enter gives the line away and starts an empty one. -/
def lineEditor : Mealy (List UInt8) UInt8 (List UInt8) where
  step line byte := if byte = 0x0A then [] else edit line byte
  emit line byte := if byte = 0x0A then some line else none

/-- Each line edited on its own from the bytes between two Enters, the last
one not ended yet. -/
def editedLines (typed : List UInt8) : List (List UInt8) :=
  (typed.splitOn 0x0A).map fun piece => piece.foldl edit []

/-- The same with something on the line already. -/
def editedFrom (line : List UInt8) : List (List UInt8) → List (List UInt8)
  | [] => []
  | piece :: pieces => piece.foldl edit line :: pieces.map fun piece => piece.foldl edit []

theorem lineEditor_out_after (typed : List UInt8) :
    ∀ line, lineEditor.out line typed ++ [lineEditor.after line typed] =
      editedFrom line (typed.splitOn 0x0A) := by
  induction typed with
  | nil => intro line; rfl
  | cons byte typed ih =>
      intro line
      obtain ⟨piece, pieces, hsplit⟩ :=
        List.exists_cons_of_ne_nil (List.splitOn_ne_nil (0x0A : UInt8) typed)
      rw [List.splitOn_cons_eq_if_modifyHead, Mealy.out, Mealy.after_cons, List.append_assoc, ih,
        hsplit]
      by_cases hn : byte = 0x0A
      · simp [lineEditor, hn, editedFrom]
      · simp [lineEditor, hn, editedFrom]

theorem lineEditor_lines (typed : List UInt8) :
    lineEditor.out [] typed = (editedLines typed).dropLast ∧
      (editedLines typed).getLast? = some (lineEditor.after [] typed) := by
  have hlines : lineEditor.out [] typed ++ [lineEditor.after [] typed] = editedLines typed := by
    rw [lineEditor_out_after, editedLines]
    obtain ⟨piece, pieces, hsplit⟩ :=
      List.exists_cons_of_ne_nil (List.splitOn_ne_nil (0x0A : UInt8) typed)
    rw [hsplit]
    rfl
  rw [← hlines]
  simp

namespace LineBuffer

variable {l : LineBuffer} {s : List UInt8}

theorem Holds.pop (h : l.Holds s) : l.pop.2.Holds (edit s 0x08) := by
  rw [edit, if_pos rfl]
  rcases List.eq_nil_or_concat s with rfl | ⟨s, x, rfl⟩
  · rw [pop_nil h]
    exact h
  · rw [List.concat_eq_append] at h ⊢
    obtain ⟨l', hpop, hl'⟩ := pop_snoc h
    rw [hpop, List.dropLast_concat]
    exact hl'

theorem Holds.push (h : l.Holds s) {byte : UInt8} (hb : Printable byte) :
    ∃ ok l', l.push byte = some (ok, l') ∧ l'.Holds (edit s byte) := by
  have he : byte ≠ 0x08 := by
    rintro rfl
    exact absurd hb.1 (by decide)
  rw [edit, if_neg he]
  by_cases hlen : s.length < 128
  · obtain ⟨l', hpush, hl'⟩ := push_of_lt h hlen hb
    rw [if_pos ⟨hb, hlen⟩]
    exact ⟨true, l', hpush, hl'⟩
  · have hfull : s.length = lineCapacity := Nat.le_antisymm h.length_le (Nat.le_of_not_lt hlen)
    rw [if_neg fun hc => hlen hc.2]
    exact ⟨false, l, push_of_full h hfull byte, h⟩

end LineBuffer

/-! ## Commands leave the input alone -/

section Commands

variable {H : Type} (pf : Platform H)

/-- The part of the globals that only the keyboard and `feed` change. -/
def Globals.input (g : Globals H) : LineBuffer × ShiftState × List UInt8 × List (List UInt8) :=
  (g.line, g.shift, g.fed, g.executed)

theorem input_commandFree : CommandFree (Globals.input : Globals H → _) where
  writer _ _ := rfl
  writerReady _ _ := rfl
  serial1 _ _ := rfl
  heap _ _ := rfl

/-- The breakpoint handler leaves it alone, however it ends. -/
theorem globalsTrapRun_input (c : Cfg LockId (Globals H)) :
    (globalsTrapRun pf c).cfg.data.input = c.data.input := by
  have hfixes := input_commandFree.breakpointHandler pf
  have hrun : ((breakpointHandler pf).run Outcome.halt c.closeIf).cfg.data.input =
      c.data.input := hfixes.run (fun _ => rfl) c.closeIf
  unfold globalsTrapRun runGated
  cases hout : (breakpointHandler pf).run Outcome.halt c.closeIf with
  | done a c' => rw [hout] at hrun; exact hrun
  | fault e c' => rw [hout] at hrun; exact hrun
  | spin l c' => rw [hout] at hrun; exact hrun
  | halt c' => rw [hout] at hrun; exact hrun

end Commands

/-! ## One scancode -/

section Input

variable {H : Type} (pf : Platform H) {g : Globals H} {s : ShiftState} {u : List UInt8}

/-- Since `g`: the Shift keys are now `s`, `fed` has been fed, `execute` has
been called with `calls`, and the line is `line`. -/
structure Input (g : Globals H) (s : ShiftState) (fed : List UInt8)
    (calls : List (List UInt8)) (line : List UInt8) (g' : Globals H) : Prop where
  shift : g'.shift = s
  fed : g'.fed = g.fed ++ fed
  executed : g'.executed = g.executed ++ calls
  line : g'.line.Holds line

/-- The bytes `u` have been typed, all the way. -/
abbrev Entered (g : Globals H) (s : ShiftState) (u : List UInt8) : Globals H → Prop :=
  Input g s u (lineEditor.out [] u) (lineEditor.after [] u)

/-- Some of them have. -/
def Within (g : Globals H) (u : List UInt8) (g' : Globals H) : Prop :=
  ∃ s fed calls line, fed <+: u ∧ calls <+: lineEditor.out [] u ∧ Input g s fed calls line g'

theorem Within.extend {g' : Globals H} (h : Within g u g') (v : List UInt8) :
    Within g (u ++ v) g' := by
  obtain ⟨s, fed, calls, line, hfed, hcalls, hinput⟩ := h
  refine ⟨s, fed, calls, line, hfed.trans (List.prefix_append u v), hcalls.trans ?_, hinput⟩
  rw [Mealy.out_append]
  exact List.prefix_append _ _

theorem Entered.within {g' : Globals H} (h : Entered g s u g') : Within g u g' :=
  ⟨s, _, _, _, List.prefix_rfl, List.prefix_rfl, h⟩

section Fixed

variable {fed : List UInt8} {calls : List (List UInt8)} {line : List UInt8} {α : Type}

theorem Input.congr {g₁ g₂ : Globals H} (heq : g₂.input = g₁.input)
    (h : Input g s fed calls line g₁) : Input g s fed calls line g₂ := by
  simp only [Globals.input, Prod.mk.injEq] at heq
  obtain ⟨hline, hshift, hfed, hexecuted⟩ := heq
  exact ⟨hshift ▸ h.shift, hfed ▸ h.fed, hexecuted ▸ h.executed, hline ▸ h.line⟩

/-- Code that leaves the input side alone. -/
theorem input_meets {p : Code H α} (hp : p.Fixes Globals.input) (hfed : fed <+: u)
    (hcalls : calls <+: lineEditor.out [] u) :
    Meets (globalsTrapRun pf) (Input g s fed calls line) p
      (fun _ => Input g s fed calls line) (Within g u) :=
  (hp.meets (globalsTrapRun_input pf) Input.congr).mono (fun _ _ h => h)
    fun _ h => ⟨s, fed, calls, line, hfed, hcalls, h⟩

end Fixed

/-- `translate`, with the machine's answer. -/
theorem translate_meets (scancode : UInt8) :
    Meets (globalsTrapRun pf) (Entered g s u) (translate scancode)
      (fun byte g' => byte = keyboard.emit s scancode ∧
        Entered g (keyboard.step s scancode) u g') (Within g u) := by
  rcases translate_cases (H := H) scancode with ⟨f, hcode, hkey⟩ | ⟨hcode, hkey⟩ | ⟨hcode, hstep⟩
  · rw [hcode, (hkey s).1, (hkey s).2]
    refine Meets.bind (Meets.withLock (fun _ h => h.within) (Meets.modify fun g' h => ?_))
      fun _ => Meets.ret fun _ h => ⟨rfl, h⟩
    exact ⟨congrArg f h.shift, h.fed, h.executed, h.line⟩
  · rw [hcode, (hkey s).1, (hkey s).2]
    exact Meets.ret fun _ h => ⟨rfl, h⟩
  · rw [hcode, hstep]
    refine Meets.bind (Q := fun seen g' => seen.shift = s ∧ Entered g s u g')
      (Meets.withLock (fun _ h => h.within) (Meets.act fun g' h => Meets.ret ?_))
      fun seen => Meets.ret ?_
    · rintro _ rfl
      exact ⟨h.shift, h⟩
    · rintro _ ⟨hseen, h⟩
      exact ⟨by rw [hseen]; rfl, h⟩

/-- The line-break arm: the line runs and is forgotten. A command that does
not return has been called all the same. -/
theorem feed_enter_meets :
    Meets (globalsTrapRun pf) (Input g s (u ++ [0x0A]) (lineEditor.out [] u)
        (lineEditor.after [] u))
      (do runLine pf; printPrompt) (fun _ => Entered g s (u ++ [0x0A]))
      (Within g (u ++ [0x0A])) := by
  have hout : lineEditor.out [] (u ++ [0x0A]) =
      lineEditor.out [] u ++ [lineEditor.after [] u] := by
    rw [Mealy.out_append]
    rfl
  have hafter : lineEditor.after [] (u ++ [0x0A]) = [] := by
    rw [Mealy.after_append]
    rfl
  have hcalls : lineEditor.out [] u <+: lineEditor.out [] (u ++ [0x0A]) := by
    rw [hout]
    exact List.prefix_append _ _
  unfold Entered
  rw [hafter]
  have hprompt : Meets (globalsTrapRun pf)
      (Input g s (u ++ [0x0A]) (lineEditor.out [] (u ++ [0x0A])) []) printPrompt
      (fun _ => Input g s (u ++ [0x0A]) (lineEditor.out [] (u ++ [0x0A])) [])
      (Within g (u ++ [0x0A])) :=
    input_meets pf (input_commandFree.print _) List.prefix_rfl List.prefix_rfl
  refine Meets.bind (Meets.bind (input_meets pf (input_commandFree.print _) List.prefix_rfl hcalls)
    fun _ => Meets.withLock (fun _ h => ⟨_, _, _, _, List.prefix_rfl, hcalls, h⟩) ?_)
    fun _ => hprompt
  refine Meets.bind (Q := fun line g' => line = lineEditor.after [] u ∧
    Input g s (u ++ [0x0A]) (lineEditor.out [] u) (lineEditor.after [] u) g')
    (Meets.attempt fun g' h => ⟨_, _, by rw [h.line.asStr]; rfl, rfl, h⟩) fun line => ?_
  refine Meets.bind (Q := fun _ => Input g s (u ++ [0x0A])
    (lineEditor.out [] (u ++ [0x0A])) (lineEditor.after [] u)) ?_ fun _ =>
    Meets.modify fun g' h => ⟨h.shift, h.fed, h.executed, LineBuffer.holds_nil rfl⟩
  refine Meets.bind (Q := fun _ => Input g s (u ++ [0x0A])
    (lineEditor.out [] (u ++ [0x0A])) (lineEditor.after [] u)) (Meets.modify ?_) fun _ => ?_
  · rintro g' ⟨rfl, h⟩
    refine ⟨h.shift, h.fed, ?_, h.line⟩
    show g'.executed ++ [lineEditor.after [] u] = _
    rw [hout, h.executed, List.append_assoc]
  · dsimp only
    split
    · exact Meets.ret fun _ h => h
    · exact input_meets pf ((input_commandFree.commands pf).dispatch _ _) List.prefix_rfl
        List.prefix_rfl

/-- A byte the keyboard can give. -/
def Typeable (byte : UInt8) : Prop := byte = 0x08 ∨ byte = 0x0A ∨ Printable byte

theorem feed_meets {byte : UInt8} (hb : Typeable byte) :
    Meets (globalsTrapRun pf) (Entered g s u) (feed pf byte)
      (fun _ => Entered g s (u ++ [byte])) (Within g (u ++ [byte])) := by
  refine Meets.bind (Q := fun _ => Input g s (u ++ [byte]) (lineEditor.out [] u)
    (lineEditor.after [] u)) (Meets.modify fun g' h => ?_) fun _ => ?_
  · refine ⟨h.shift, ?_, h.executed, h.line⟩
    show g'.fed ++ [byte] = _
    rw [h.fed, List.append_assoc]
  · by_cases hn : byte = 0x0A
    · subst hn
      exact feed_enter_meets pf
    · have hout : lineEditor.out [] (u ++ [byte]) = lineEditor.out [] u := by
        rw [Mealy.out_append]
        simp [Mealy.out, lineEditor, hn]
      have hafter : lineEditor.after [] (u ++ [byte]) = edit (lineEditor.after [] u) byte := by
        rw [Mealy.after_append]
        simp [Mealy.after, lineEditor, hn]
      unfold Entered
      rw [if_neg hn, hout, hafter]
      have hcalls : lineEditor.out [] u <+: lineEditor.out [] (u ++ [byte]) :=
        ⟨[], by rw [List.append_nil, hout]⟩
      have hR : ∀ {line : List UInt8} (g' : Globals H),
          Input g s (u ++ [byte]) (lineEditor.out [] u) line g' → Within g (u ++ [byte]) g' :=
        fun g' h => ⟨_, _, _, _, List.prefix_rfl, hcalls, h⟩
      rcases hb with rfl | hb | hb
      · rw [if_pos rfl]
        refine Meets.bind (Q := fun _ => Input g s (u ++ [0x08]) (lineEditor.out [] u)
          (edit (lineEditor.after [] u) 0x08))
          (Meets.withLock hR (Meets.act fun g' h => Meets.ret ?_)) fun popped => ?_
        · rintro _ rfl
          exact ⟨h.shift, h.fed, h.executed, h.line.pop⟩
        · split
          · exact input_meets pf input_commandFree.backspace List.prefix_rfl hcalls
          · exact Meets.ret fun _ h => h
      · exact absurd hb hn
      · have he : byte ≠ 0x08 := by
          rintro rfl
          exact absurd hb.1 (by decide)
        rw [if_neg he, if_pos (show 0x20 ≤ byte ∧ byte ≤ 0x7e from hb)]
        refine Meets.bind (Q := fun _ => Input g s (u ++ [byte]) (lineEditor.out [] u)
          (edit (lineEditor.after [] u) byte))
          (Meets.withLock hR (Meets.attempt fun g' h => ?_)) fun pushed => ?_
        · obtain ⟨ok, l, hpush, hl⟩ := h.line.push hb
          exact ⟨ok, { g' with line := l }, by rw [hpush]; rfl, h.shift, h.fed, h.executed, hl⟩
        · split
          · exact input_meets pf (input_commandFree.print _) List.prefix_rfl hcalls
          · exact Meets.ret fun _ h => h

/-! ## A stream of scancodes -/

/-- All that the keyboard gives is typeable. -/
theorem keyboard_typeable {scancode byte : UInt8} (h : keyboard.emit s scancode = some byte) :
    Typeable byte :=
  (asciiForMakeCode_some h).2

theorem keyboard_out_typeable (stream : List UInt8) :
    ∀ s, ∀ byte ∈ keyboard.out s stream, Typeable byte := by
  induction stream with
  | nil => intro s byte hmem; cases hmem
  | cons scancode stream ih =>
      intro s byte hmem
      rcases List.mem_append.mp hmem with hmem | hmem
      · exact keyboard_typeable (Option.mem_toList.mp hmem)
      · exact ih _ byte hmem

theorem process_meets (scancode : UInt8) :
    Meets (globalsTrapRun pf) (Entered g s u) (process pf scancode)
      (fun _ => Entered g (keyboard.step s scancode) (u ++ (keyboard.emit s scancode).toList))
      (Within g (u ++ (keyboard.emit s scancode).toList)) := by
  refine Meets.bind ((translate_meets pf scancode).mono (fun _ _ h => h)
    fun _ h => h.extend _) fun byte => ?_
  cases hemit : keyboard.emit s scancode with
  | none =>
      rw [Option.toList_none, List.append_nil]
      cases byte with
      | none => exact Meets.ret fun _ h => h.2
      | some byte => exact fun c hc => absurd hc.1 (by simp)
  | some b =>
      cases byte with
      | none => exact fun c hc => absurd hc.1 (by simp)
      | some byte =>
          rintro c ⟨heq, hc⟩
          obtain rfl := Option.some.inj heq
          exact feed_meets pf (keyboard_typeable hemit) c hc

def processAll : List UInt8 → Code H Unit
  | [] => pure ()
  | scancode :: stream => do
      process pf scancode
      processAll stream

theorem processAll_meets (stream : List UInt8) :
    ∀ {s : ShiftState} {u : List UInt8},
      Meets (globalsTrapRun pf) (Entered g s u) (processAll pf stream)
        (fun _ => Entered g (keyboard.after s stream) (u ++ keyboard.out s stream))
        (Within g (u ++ keyboard.out s stream)) := by
  induction stream with
  | nil =>
      intro s u
      refine Meets.ret fun _ h => ?_
      rw [Mealy.out, List.append_nil]
      exact h
  | cons scancode stream ih =>
      intro s u
      rw [Mealy.out, Mealy.after_cons, ← List.append_assoc]
      exact Meets.bind ((process_meets pf scancode).mono (fun _ _ h => h)
        fun _ h => h.extend _) fun _ => ih

/-- It is so many steps of the ideal machine. -/
theorem processAll_mirrors {b : Bool} (stream : List UInt8) :
    Mirrors (globalsTrapRun pf) Globals.Renders noLock b (processAll pf stream)
      (Ideal.presses pf stream) := by
  induction stream with
  | nil => exact Mirrors.ret
  | cons scancode stream ih => exact Mirrors.bind (process_mirrors pf scancode) fun _ => ih

/-- A stream of scancodes through `translate` and `feed`, with nothing in the
way, up to its end or to wherever it stops. -/
def typing (g : Globals H) (stream : List UInt8) (b shadow : Bool) :
    Outcome LockId (Globals H) Fatal Unit :=
  (processAll pf stream).run (globalsTrapRun pf) ⟨g, noLock, b, shadow⟩

/-- From an empty line, all that is typed is a backspace, a newline or
printable. However the run ends, the calls to `execute` are the first of the
edited lines, what `feed` was given is the first of what was typed, and
`LINE` is within its bounds and reads as the text it holds. If the run comes
through, the calls are all of the lines that an Enter ended, and the bytes
since the last one are on the line. -/
theorem execute_gets_edited_lines (hline : g.line.len = 0) (stream : List UInt8)
    (b shadow : Bool) :
    (∀ byte ∈ keyboard.out g.shift stream,
      byte = 0x08 ∨ byte = 0x0A ∨ (0x20 ≤ byte ∧ byte ≤ 0x7e)) ∧
    (∃ calls fed,
      calls <+: (editedLines (keyboard.out g.shift stream)).dropLast ∧
      fed <+: keyboard.out g.shift stream ∧
      (typing pf g stream b shadow).cfg.data.executed = g.executed ++ calls ∧
      (typing pf g stream b shadow).cfg.data.fed = g.fed ++ fed) ∧
    (typing pf g stream b shadow).cfg.data.line.len ≤ 128 ∧
    (typing pf g stream b shadow).cfg.data.line.asStr =
      some ((typing pf g stream b shadow).cfg.data.line.bytes.toList.take
        (typing pf g stream b shadow).cfg.data.line.len) ∧
    ∀ c, typing pf g stream b shadow = .done () c →
      c.data.executed = g.executed ++ (editedLines (keyboard.out g.shift stream)).dropLast ∧
      c.data.fed = g.fed ++ keyboard.out g.shift stream ∧
      c.data.line.asStr = (editedLines (keyboard.out g.shift stream)).getLast? := by
  obtain ⟨hcalls, hlast⟩ := lineEditor_lines (keyboard.out g.shift stream)
  have hstart : Entered g g.shift [] g :=
    ⟨rfl, (List.append_nil _).symm, (List.append_nil _).symm, LineBuffer.holds_nil hline⟩
  have hmeets := processAll_meets pf stream (g := g) (s := g.shift) (u := [])
  rw [List.nil_append] at hmeets
  obtain ⟨s, fed, calls, line, hfed, hpre, hinput⟩ :=
    hmeets.any (fun _ _ h => h.within) ⟨g, noLock, b, shadow⟩ hstart
  rw [hcalls] at hpre
  refine ⟨keyboard_out_typeable stream g.shift, ⟨calls, fed, hpre, hfed, hinput.executed,
    hinput.fed⟩, ?_, ?_, fun c hrun => ?_⟩
  · rw [typing, hinput.line.len]
    exact hinput.line.length_le
  · rw [typing, hinput.line.asStr, hinput.line.slice]
  · have hend := hmeets.done _ () c hstart hrun
    rw [← hcalls, hlast]
    exact ⟨hend.executed, hend.fed, hend.line.asStr⟩

end Input

/-- At the first prompt, an `a` typed and erased, a `b`, Enter, and an `i` that
stays on the line. -/
theorem execute_gets_edited_lines_erased :
    ∃ ls k c, Run (system smallPlatform).step (fun _ l => l = .tick) (smallStart []) ls
        (asleep k false) ∧
      typing smallPlatform k.globals [0x1E, 0x0E, 0x30, 0x1C, 0x17] false false = .done () c ∧
      c.data.executed = [bytes "b"] ∧ c.data.fed = k.globals.fed ++ [0x61, 0x08, 0x62, 0x0A, 0x69] ∧
      c.data.line.asStr = some (bytes "i") := by
  obtain ⟨ls, k, hsleep, hk⟩ := smallStart_sleeps (G := fun _ l => l = .tick) (fun _ => rfl) []
  obtain ⟨i, hpresses, _⟩ := presses_ok [0x1E, 0x0E, 0x30, 0x1C, 0x17]
    (fun i => i.ran) (x := [bytes "b"]) (by decide +kernel)
  obtain ⟨g', hy, _⟩ := Mirrors.ok (processAll_mirrors smallPlatform (b := false) _) hk.renders
    hpresses
  obtain ⟨c, hrun, _⟩ := hy.run_eq (c := ⟨k.globals, noLock, false, false⟩) rfl rfl rfl
  have hline : k.globals.line.len = 0 := hk.renders.holds.len
  have hshift : k.globals.shift = ShiftState.new := hk.renders.shift
  have hnone : k.globals.executed = [] := hk.renders.ran
  obtain ⟨hexecuted, hfed, hread⟩ :=
    (execute_gets_edited_lines smallPlatform hline _ _ _).2.2.2.2 c hrun
  rw [hshift] at hexecuted hfed hread
  rw [hnone] at hexecuted
  exact ⟨ls, k, c, hsleep, hrun, hexecuted, hfed, hread⟩

end ProtoOs.Ref
