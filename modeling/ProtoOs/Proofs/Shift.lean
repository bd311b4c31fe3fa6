import ProtoOs.Proofs.Keyboard

/-!
# Shift over whole streams

Each Shift key is down exactly if the latest code it sent is its make code,
whatever else was typed in between and whatever the other one did. So the
byte for a key is read off the stream before it: the shifted one if either
Shift was last pressed and not released, the plain one otherwise.

What changes no Shift and types nothing can be left out of a stream without
a trace. That is every release but those of the Shift keys, and every make
code a held Shift repeats.
-/

namespace ProtoOs.Ref

open ProtoOs.Lib ProtoOs.Lib.Prog

namespace ShiftKey

variable {k : ShiftKey} {code : UInt8} {before : List UInt8}

/-- The latest event of the key, in what came before, is its make code. -/
def LatestMake (k : ShiftKey) (before : List UInt8) : Prop :=
  ∃ u v, before = u ++ k.make :: v ∧ ∀ code ∈ v, ¬k.Event code

theorem latestMake_snoc :
    k.LatestMake (before ++ [code]) ↔ code = k.make ∨ (¬k.Event code ∧ k.LatestMake before) := by
  constructor
  · rintro ⟨u, v, hsplit, hv⟩
    rcases List.eq_nil_or_concat' v with rfl | ⟨v, x, rfl⟩
    · exact .inl (List.cons.inj (List.append_inj' hsplit rfl).2).1
    · rw [← List.cons_append, ← List.append_assoc] at hsplit
      obtain ⟨hbefore, hlast⟩ := List.append_inj' hsplit rfl
      obtain rfl := (List.cons.inj hlast).1
      exact .inr ⟨hv code (by simp), u, v, hbefore, fun c hc => hv c (by simp [hc])⟩
  · rintro (rfl | ⟨hcode, u, v, rfl, hv⟩)
    · exact ⟨before, [], rfl, by simp⟩
    · refine ⟨u, v ++ [code], by simp, fun c hc => ?_⟩
      rcases List.mem_append.mp hc with hc | hc
      · exact hv c hc
      · rw [List.mem_singleton.mp hc]
        exact hcode

/-- From a released key on, being down is having been pressed last. -/
theorem down_iff (k : ShiftKey) (before : List UInt8) :
    k.down false before = true ↔ k.LatestMake before := by
  induction before using List.reverseRecOn with
  | nil => simp [down, LatestMake]
  | append_singleton before code ih =>
      have hsnoc : k.down false (before ++ [code]) =
          if code = k.make then true else if code = k.brk then false else k.down false before := by
        simp only [down, List.foldl_append, List.foldl_cons, List.foldl_nil]
      rw [hsnoc, latestMake_snoc, ← ih]
      by_cases hmake : code = k.make
      · simp [hmake]
      · by_cases hbrk : code = k.brk
        · simp [hbrk, Event]
        · simp [hmake, hbrk, Event]

end ShiftKey

theorem isActive_after_iff (before : List UInt8) :
    (keyboard.after ShiftState.new before).isActive = true ↔
      ShiftKey.left.LatestMake before ∨ ShiftKey.right.LatestMake before := by
  rw [ShiftKey.isActive_eq .left, Bool.or_eq_true, ShiftKey.held_after, ShiftKey.held_after,
    ← ShiftKey.down_iff, ← ShiftKey.down_iff]
  rfl

/-! ## What can be left out -/

/-- The release of a key that is no Shift, or the prefix of an extended
key. -/
def OtherBreak (code : UInt8) : Prop := code &&& 0x80 ≠ 0 ∧ ∀ k : ShiftKey, code ≠ k.brk

theorem OtherBreak.idle {code : UInt8} (h : OtherBreak code) (s : ShiftState) :
    keyboard.Idle s code := by
  have hevent : ∀ k : ShiftKey, ¬k.Event code := by
    rintro k (rfl | hbrk)
    · exact h.1 (by cases k <;> rfl)
    · exact h.2 k hbrk
  exact ⟨asciiForMakeCode_none _ fun hcode => h.1 hcode.1, ShiftKey.press_of_not hevent s⟩

/-- A held Shift that sends its make code again. -/
theorem ShiftKey.LatestMake.idle {k : ShiftKey} {before : List UInt8} (h : k.LatestMake before) :
    keyboard.Idle (keyboard.after ShiftState.new before) k.make := by
  have hevent : k.Event k.make := .inl rfl
  have hheld : k.held (keyboard.after ShiftState.new before) = true := by
    rw [k.held_after]
    have hnew : k.held ShiftState.new = false := by cases k <;> rfl
    rw [hnew]
    exact (k.down_iff before).mpr h
  refine ⟨hevent.silent.1 _, ShiftKey.eq_of_held (k := k) ?_ ?_⟩
  · show k.held (press _ k.make) = _
    rw [ShiftKey.held_press_event hevent, hheld, decide_eq_true rfl]
  · exact ShiftKey.held_press_of_not hevent.silent.2 _

/-! ## The code, call by call -/

section Code

variable {H : Type} {trap : Cfg LockId (Globals H) → Outcome LockId (Globals H) Fatal Unit}

/-- A stream through `translate`, with the answer of every call. -/
def translateEach : List UInt8 → Code H (List (Option UInt8))
  | [] => pure []
  | scancode :: stream => do
      let byte ← translate scancode
      let answers ← translateEach stream
      pure (byte :: answers)

theorem translateEach_yields {h : LockId → Bool} {b : Bool} (hh : h .shift = false) :
    ∀ (stream : List UInt8) {g : Globals H},
      (translateEach stream).Yields trap g h b (keyboard.answers g.shift stream)
        { g with shift := keyboard.after g.shift stream } := by
  intro stream
  induction stream with
  | nil => intro g; exact Yields.ret
  | cons scancode stream ih =>
      intro g
      exact Yields.bind (translate_yields scancode hh) (Yields.bind ih Yields.ret)

/-- From the initial state, and over every stream: a code with bit 7 clear
gets its shifted entry if the latest event of either Shift key before it is a
make code, and its plain entry if not. A Shift event or a code with bit 7 set
gets nothing. Without any of the releases of other keys, and without any of
the make codes that a held Shift repeats, the same bytes come out. -/
theorem shift_tracked_per_key (g : Globals H) (b : Bool) (stream : List UInt8) :
    ∃ answers g',
      (translateEach stream).Yields trap { g with shift := ShiftState.new } noLock b answers g' ∧
      answers.length = stream.length ∧
      (∀ (i : Nat) code, stream[i]? = some code → code &&& 0x80 = 0 →
        (ShiftKey.left.LatestMake (stream.take i) ∨ ShiftKey.right.LatestMake (stream.take i) →
          answers[i]? = some (asciiForMakeCode code true)) ∧
        (¬(ShiftKey.left.LatestMake (stream.take i) ∨ ShiftKey.right.LatestMake (stream.take i)) →
          answers[i]? = some (asciiForMakeCode code false))) ∧
      (∀ (i : Nat) code, stream[i]? = some code →
        (∃ k : ShiftKey, k.Event code) ∨ code &&& 0x80 ≠ 0 → answers[i]? = some none) ∧
      ∀ dropped : Nat → Bool,
        (∀ (i : Nat) code, stream[i]? = some code → dropped i = true →
          OtherBreak code ∨
          ∃ k : ShiftKey, code = k.make ∧ k.LatestMake (stream.take i)) →
        ∃ answers' g'', (translateEach (Mealy.without dropped stream)).Yields trap
            { g with shift := ShiftState.new } noLock b answers' g'' ∧
          answers'.reduceOption = answers.reduceOption := by
  have hanswer : ∀ (i : Nat) code, stream[i]? = some code →
      (keyboard.answers ShiftState.new stream)[i]? =
        some (asciiForMakeCode code (keyboard.after ShiftState.new (stream.take i)).isActive) := by
    intro i code hcode
    rw [Mealy.getElem?_answers, hcode]
    rfl
  refine ⟨_, _, translateEach_yields rfl stream, keyboard.length_answers stream _, ?_, ?_, ?_⟩
  · intro i code hcode _
    refine ⟨fun hdown => ?_, fun hup => ?_⟩
    · rw [hanswer i code hcode, (isActive_after_iff _).mpr hdown]
    · rw [hanswer i code hcode, Bool.eq_false_iff.mpr fun h => hup ((isActive_after_iff _).mp h)]
  · intro i code hcode hsilent
    rw [hanswer i code hcode]
    rcases hsilent with ⟨k, hk⟩ | hbit
    · rw [hk.silent.1]
    · rw [asciiForMakeCode_none _ fun h => hbit h.1]
  · intro dropped hdropped
    refine ⟨_, _, translateEach_yields rfl _, ?_⟩
    rw [Mealy.reduceOption_answers, Mealy.reduceOption_answers]
    refine (keyboard.alike_without fun i code hcode hi => ?_).1
    rcases hdropped i code hcode hi with hbreak | ⟨k, rfl, hk⟩
    · exact hbreak.idle _
    · exact hk.idle

end Code

end ProtoOs.Ref
