import ProtoOs.Lib.Mealy
import ProtoOs.Proofs.Console

/-!
# What the keyboard types

`translate` over a stream of scancodes is a machine with two bits of state,
one for each Shift key. It has none for the prefix of an extended key, so
the code after a prefix is read as that of an ordinary key. For most of the
extended keys that is nothing. It types a character where the code is in
the table, and where it is one of the Shift codes it moves that Shift, until
the key itself is next heard of.

`extended_key_harmless_iff` says when an extended key leaves no trace. The
induction is over what is typed after it, with two states that differ in
one Shift.
-/

namespace ProtoOs.Ref

open ProtoOs.Lib ProtoOs.Lib.Prog

/-! ## The table -/

/-- Where a byte can come from: one of the three keys that Shift does not
change, or a row of the table. -/
theorem asciiForMakeCode_cases {code byte : UInt8} {shift : Bool}
    (h : asciiForMakeCode code shift = some byte) :
    (code = 0x0E ∧ byte = 0x08) ∨ (code = 0x1C ∧ byte = 0x0A) ∨ (code = 0x39 ∧ byte = 0x20) ∨
      ∃ lower upper, (code, lower, upper) ∈ keyTable ∧
        byte = if shift then upper else lower := by
  unfold asciiForMakeCode at h
  split at h
  · next hcode => exact .inl ⟨hcode, (Option.some.inj h).symm⟩
  · split at h
    · next hcode => exact .inr (.inl ⟨hcode, (Option.some.inj h).symm⟩)
    · split at h
      · next hcode => exact .inr (.inr (.inl ⟨hcode, (Option.some.inj h).symm⟩))
      · obtain ⟨⟨lower, upper⟩, hlookup, rfl⟩ := Option.map_eq_some_iff.mp h
        obtain ⟨l₁, l₂, hsplit, _⟩ := List.lookup_eq_some_iff.mp hlookup
        exact .inr (.inr (.inr ⟨lower, upper, by rw [hsplit]; simp, rfl⟩))

/-- A byte of the table comes from a key that is no Shift, and its code has
bit 7 clear. It is a backspace, a newline or printable. -/
theorem asciiForMakeCode_some {code byte : UInt8} {shift : Bool}
    (h : asciiForMakeCode code shift = some byte) :
    (code &&& 0x80 = 0 ∧ code ≠ leftShiftMake ∧ code ≠ leftShiftBreak ∧
      code ≠ rightShiftMake ∧ code ≠ rightShiftBreak) ∧
    (byte = 0x08 ∨ byte = 0x0A ∨ (0x20 ≤ byte ∧ byte ≤ 0x7E)) := by
  have htable : keyTable.all (fun e => decide ((e.1 &&& 0x80 = 0 ∧ e.1 ≠ leftShiftMake ∧
      e.1 ≠ leftShiftBreak ∧ e.1 ≠ rightShiftMake ∧ e.1 ≠ rightShiftBreak) ∧
      ((0x20 ≤ e.2.1 ∧ e.2.1 ≤ 0x7E) ∧ 0x20 ≤ e.2.2 ∧ e.2.2 ≤ 0x7E))) = true := by
    decide
  rcases asciiForMakeCode_cases h with ⟨rfl, rfl⟩ | ⟨rfl, rfl⟩ | ⟨rfl, rfl⟩ |
    ⟨lower, upper, hrow, rfl⟩
  · decide
  · decide
  · decide
  · obtain ⟨hcode, hlower, hupper⟩ :=
      of_decide_eq_true (List.all_eq_true.mp htable (code, lower, upper) hrow)
    refine ⟨hcode, .inr (.inr ?_)⟩
    cases shift with
    | true => exact hupper
    | false => exact hlower

/-- Whether a key is in the table does not depend on Shift. -/
theorem asciiForMakeCode_isSome (code : UInt8) (shift shift' : Bool) :
    (asciiForMakeCode code shift).isSome = (asciiForMakeCode code shift').isSome := by
  unfold asciiForMakeCode
  split
  · rfl
  · split
    · rfl
    · split
      · rfl
      · rw [Option.isSome_map, Option.isSome_map]

/-! ## The machine -/

/-- The Shift keys after a scancode. -/
def press (s : ShiftState) (scancode : UInt8) : ShiftState :=
  if scancode = leftShiftMake then { s with leftHeld := true }
  else if scancode = leftShiftBreak then { s with leftHeld := false }
  else if scancode = rightShiftMake then { s with rightHeld := true }
  else if scancode = rightShiftBreak then { s with rightHeld := false }
  else s

def keyboard : Mealy ShiftState UInt8 UInt8 where
  step := press
  emit s scancode := asciiForMakeCode scancode s.isActive

section Code

variable {H : Type} {trap : Cfg LockId (Globals H) → Outcome LockId (Globals H) Fatal Unit}
  {g : Globals H} {h : LockId → Bool} {b : Bool}

theorem asciiForMakeCode_none {code : UInt8} (shift : Bool)
    (hcode : ¬(code &&& 0x80 = 0 ∧ code ≠ leftShiftMake ∧ code ≠ leftShiftBreak ∧
      code ≠ rightShiftMake ∧ code ≠ rightShiftBreak)) : asciiForMakeCode code shift = none := by
  cases hbyte : asciiForMakeCode code shift with
  | none => rfl
  | some byte => exact absurd (asciiForMakeCode_some hbyte).1 hcode

/-- What `translate` can do: move a Shift, nothing, or look a key up. -/
theorem translate_cases (scancode : UInt8) :
    (∃ f : ShiftState → ShiftState,
      (translate scancode : Code H (Option UInt8)) =
        (withLock .shift (Prog.modify fun g => { g with shift := f g.shift })).bind
          (fun _ => ret none) ∧
      ∀ s, keyboard.step s scancode = f s ∧ keyboard.emit s scancode = none) ∨
    ((translate scancode : Code H (Option UInt8)) = ret none ∧
      ∀ s, keyboard.step s scancode = s ∧ keyboard.emit s scancode = none) ∨
    ((translate scancode : Code H (Option UInt8)) =
        (withLock .shift Prog.get).bind
          (fun g => ret (asciiForMakeCode scancode g.shift.isActive)) ∧
      ∀ s, keyboard.step s scancode = s) := by
  simp only [keyboard, press]
  unfold translate
  split <;> rename_i hcode
  · exact .inl ⟨fun s => { s with leftHeld := true }, rfl,
      fun s => ⟨rfl, asciiForMakeCode_none _ (by simp [hcode])⟩⟩
  · split <;> rename_i hcode
    · exact .inl ⟨fun s => { s with leftHeld := false }, rfl,
        fun s => ⟨rfl, asciiForMakeCode_none _ (by simp [hcode])⟩⟩
    · split <;> rename_i hcode
      · exact .inl ⟨fun s => { s with rightHeld := true }, rfl,
          fun s => ⟨rfl, asciiForMakeCode_none _ (by simp [hcode])⟩⟩
      · split <;> rename_i hcode
        · exact .inl ⟨fun s => { s with rightHeld := false }, rfl,
            fun s => ⟨rfl, asciiForMakeCode_none _ (by simp [hcode])⟩⟩
        · split <;> rename_i hbit
          · exact .inr (.inl ⟨rfl, fun s => ⟨rfl, asciiForMakeCode_none _ fun hc => hbit hc.1⟩⟩)
          · exact .inr (.inr ⟨rfl, fun _ => rfl⟩)

theorem translate_yields (scancode : UInt8) (hh : h .shift = false) :
    (translate scancode).Yields trap g h b (keyboard.emit g.shift scancode)
      { g with shift := keyboard.step g.shift scancode } := by
  rcases translate_cases (H := H) scancode with ⟨f, hcode, hkey⟩ | ⟨hcode, hkey⟩ | ⟨hcode, hstep⟩
  · rw [hcode, (hkey g.shift).1, (hkey g.shift).2]
    exact Yields.bind (Yields.withLock hh Yields.modify) Yields.ret
  · rw [hcode, (hkey g.shift).1, (hkey g.shift).2]
    exact Yields.ret
  · rw [hcode, hstep]
    exact Yields.bind (Yields.withLock hh (Yields.act Yields.ret)) Yields.ret

/-- A stream through `translate`, and the bytes that come out. -/
def translateAll : List UInt8 → Code H (List UInt8)
  | [] => pure []
  | scancode :: stream => do
      let byte ← translate scancode
      let typed ← translateAll stream
      pure (byte.toList ++ typed)

theorem translateAll_yields (hh : h .shift = false) :
    ∀ (stream : List UInt8) {g : Globals H},
      (translateAll stream).Yields trap g h b (keyboard.out g.shift stream)
        { g with shift := keyboard.after g.shift stream } := by
  intro stream
  induction stream with
  | nil => intro g; exact Yields.ret
  | cons scancode stream ih =>
      intro g
      exact Yields.bind (translate_yields scancode hh) (Yields.bind ih Yields.ret)

end Code

/-! ## The two Shift keys -/

inductive ShiftKey where
  | left | right
  deriving DecidableEq, Repr

namespace ShiftKey

def make : ShiftKey → UInt8
  | left => leftShiftMake
  | right => rightShiftMake

def brk : ShiftKey → UInt8
  | left => leftShiftBreak
  | right => rightShiftBreak

def other : ShiftKey → ShiftKey
  | left => right
  | right => left

def held (s : ShiftState) : ShiftKey → Bool
  | left => s.leftHeld
  | right => s.rightHeld

/-- The scancode is one the key sends. -/
def Event (k : ShiftKey) (code : UInt8) : Prop := code = k.make ∨ code = k.brk

/-- The key is down after a stream if the last it sent was its make code. -/
def down (k : ShiftKey) (held : Bool) (stream : List UInt8) : Bool :=
  stream.foldl (fun d code => if code = k.make then true else if code = k.brk then false else d)
    held

variable {k : ShiftKey} {s s' : ShiftState} {code : UInt8}

theorem held_press (k : ShiftKey) (s : ShiftState) (code : UInt8) :
    k.held (press s code) =
      if code = k.make then true else if code = k.brk then false else k.held s := by
  cases k with
  | left =>
      show (press s code).leftHeld = if code = leftShiftMake then true
        else if code = leftShiftBreak then false else s.leftHeld
      unfold press
      by_cases hmake : code = leftShiftMake
      · rw [if_pos hmake, if_pos hmake]
      · rw [if_neg hmake, if_neg hmake]
        by_cases hbrk : code = leftShiftBreak
        · rw [if_pos hbrk, if_pos hbrk]
        · rw [if_neg hbrk, if_neg hbrk]
          split
          · rfl
          · split <;> rfl
  | right =>
      show (press s code).rightHeld = if code = rightShiftMake then true
        else if code = rightShiftBreak then false else s.rightHeld
      unfold press
      -- A code of the left key is none of the right one's.
      by_cases hmake : code = leftShiftMake
      · subst hmake; rfl
      · by_cases hbrk : code = leftShiftBreak
        · subst hbrk; rfl
        · rw [if_neg hmake, if_neg hbrk]
          by_cases hmake' : code = rightShiftMake
          · rw [if_pos hmake', if_pos hmake']
          · rw [if_neg hmake', if_neg hmake']
            split <;> rfl

theorem held_after (k : ShiftKey) (stream : List UInt8) :
    ∀ s, k.held (keyboard.after s stream) = k.down (k.held s) stream := by
  induction stream with
  | nil => intro s; rfl
  | cons code stream ih =>
      intro s
      rw [Mealy.after_cons, ih, down, down, List.foldl_cons, ← held_press]
      rfl

theorem eq_of_held (h : k.held s = k.held s') (h' : k.other.held s = k.other.held s') :
    s = s' := by
  obtain ⟨l, r⟩ := s
  obtain ⟨l', r'⟩ := s'
  cases k with
  | left => exact congrArg₂ ShiftState.mk h h'
  | right => exact congrArg₂ ShiftState.mk h' h

theorem isActive_eq (k : ShiftKey) (s : ShiftState) :
    s.isActive = (k.held s || k.other.held s) := by
  cases k with
  | left => rfl
  | right => exact Bool.or_comm _ _

/-- What a key sends types nothing and says nothing of the other one. -/
theorem Event.silent (h : k.Event code) :
    (∀ shift, asciiForMakeCode code shift = none) ∧ ¬k.other.Event code := by
  cases k with
  | left =>
      rcases h with rfl | rfl
      · exact ⟨by decide, by rintro (h | h) <;> exact absurd h (by decide)⟩
      · exact ⟨by decide, by rintro (h | h) <;> exact absurd h (by decide)⟩
  | right =>
      rcases h with rfl | rfl
      · exact ⟨by decide, by rintro (h | h) <;> exact absurd h (by decide)⟩
      · exact ⟨by decide, by rintro (h | h) <;> exact absurd h (by decide)⟩

theorem held_press_event (h : k.Event code) (s : ShiftState) :
    k.held (press s code) = decide (code = k.make) := by
  rw [held_press]
  by_cases hmake : code = k.make
  · simp [hmake]
  · rw [if_neg hmake, if_pos (h.resolve_left hmake)]
    simp [hmake]

theorem held_press_of_not (h : ¬k.Event code) (s : ShiftState) :
    k.held (press s code) = k.held s := by
  rw [held_press, if_neg fun heq => h (.inl heq), if_neg fun heq => h (.inr heq)]

theorem press_of_not (h : ∀ k : ShiftKey, ¬k.Event code) (s : ShiftState) : press s code = s :=
  eq_of_held (k := .left) (held_press_of_not (h _) s) (held_press_of_not (h _) s)

/-! ## Two states that differ in one Shift -/

/-- The states differ in this key and in nothing else. -/
def Differ (k : ShiftKey) (s s' : ShiftState) : Prop :=
  k.held s ≠ k.held s' ∧ k.other.held s = k.other.held s'

theorem Differ.press (h : k.Differ s s') (hcode : ¬k.Event code) :
    k.Differ (Ref.press s code) (Ref.press s' code) := by
  refine ⟨?_, ?_⟩
  · rw [held_press_of_not hcode, held_press_of_not hcode]
    exact h.1
  · rw [held_press, held_press, h.2]

/-- The key brings the two together. -/
theorem Differ.press_event (h : k.Differ s s') (hcode : k.Event code) :
    Ref.press s code = Ref.press s' code := by
  refine eq_of_held (k := k) ?_ ?_
  · rw [held_press_event hcode, held_press_event hcode]
  · rw [held_press, held_press, h.2]

/-- A key of the table types the same in both if Shift is nothing to it, or
the other Shift is held. -/
theorem Differ.emit_iff (h : k.Differ s s') :
    keyboard.emit s code = keyboard.emit s' code ↔
      asciiForMakeCode code true = asciiForMakeCode code false ∨ k.other.held s = true := by
  simp only [keyboard]
  rw [isActive_eq k s, isActive_eq k s', ← h.2]
  cases hother : k.other.held s with
  | true => simp
  | false =>
      have hne := h.1
      cases hs : k.held s with
      | true =>
          rw [hs] at hne
          rw [show k.held s' = false by simpa using hne.symm]
          simp
      | false =>
          rw [hs] at hne
          rw [show k.held s' = true by simpa using hne.symm]
          simp [eq_comm]

/-- What comes after brings the states together before it can tell them
apart: the key is heard of, and each key before that which types one thing
with Shift and another without is struck while the other Shift is down. -/
def Resync (k : ShiftKey) (otherHeld : Bool) (stream : List UInt8) : Prop :=
  ∃ w code rest, stream = w ++ code :: rest ∧ k.Event code ∧
    ∀ w₁ c w₂, w = w₁ ++ c :: w₂ →
      asciiForMakeCode c true = asciiForMakeCode c false ∨ k.other.down otherHeld w₁ = true

theorem resync_cons {b : Bool} {stream : List UInt8} (hcode : ¬k.Event code) :
    k.Resync b (code :: stream) ↔
      (asciiForMakeCode code true = asciiForMakeCode code false ∨ b = true) ∧
        k.Resync (k.other.down b [code]) stream := by
  constructor
  · rintro ⟨w, c, rest, hsplit, hc, hw⟩
    cases w with
    | nil =>
        obtain ⟨rfl, _⟩ := List.cons.inj hsplit
        exact absurd hc hcode
    | cons c' w =>
        obtain ⟨rfl, hrest⟩ := List.cons.inj hsplit
        refine ⟨hw [] code w rfl, w, c, rest, hrest, hc, fun w₁ c' w₂ heq => ?_⟩
        exact hw (code :: w₁) c' w₂ (by rw [heq]; rfl)
  · rintro ⟨hhere, w, c, rest, hsplit, hc, hw⟩
    refine ⟨code :: w, c, rest, by rw [hsplit]; rfl, hc, fun w₁ c' w₂ heq => ?_⟩
    cases w₁ with
    | nil =>
        obtain ⟨rfl, _⟩ := List.cons.inj heq
        exact hhere
    | cons c'' w₁ =>
        obtain ⟨rfl, hsame⟩ := List.cons.inj heq
        exact hw w₁ c' w₂ hsame

theorem Differ.alike_iff :
    ∀ {stream : List UInt8} {s s' : ShiftState}, k.Differ s s' →
      (keyboard.Alike s stream s' stream ↔ k.Resync (k.other.held s) stream) := by
  intro stream
  induction stream with
  | nil =>
      intro s s' h
      refine ⟨fun halike => absurd (congrArg k.held halike.2) h.1, ?_⟩
      rintro ⟨w, c, rest, hsplit, _⟩
      simp at hsplit
  | cons code stream ih =>
      intro s s' h
      by_cases hcode : k.Event code
      · refine ⟨fun _ => ⟨[], code, stream, rfl, hcode, by simp⟩, fun _ => ?_⟩
        have hemit : ∀ s, keyboard.emit s code = none := fun s => hcode.silent.1 _
        have hstep : keyboard.step s code = keyboard.step s' code := h.press_event hcode
        exact ⟨by rw [Mealy.out, Mealy.out, hemit, hemit, hstep],
          by rw [Mealy.after_cons, Mealy.after_cons, hstep]⟩
      · rw [resync_cons hcode, ← h.emit_iff]
        have hnext := ih (h.press hcode)
        rw [held_press] at hnext
        constructor
        · rintro ⟨hout, hafter⟩
          rw [Mealy.out, Mealy.out] at hout
          -- Both type a byte or neither does, so the first bytes are equal.
          have hsome : (keyboard.emit s code).isSome = (keyboard.emit s' code).isSome :=
            asciiForMakeCode_isSome _ _ _
          obtain ⟨hemit, hout⟩ := List.append_inj hout
            (by rw [Option.length_toList, Option.length_toList, hsome])
          have hsame := congrArg List.head? hemit
          rw [Option.head?_toList, Option.head?_toList] at hsame
          exact ⟨hsame, hnext.mp ⟨hout, hafter⟩⟩
        · rintro ⟨hemit, hrest⟩
          obtain ⟨hout, hafter⟩ := hnext.mpr hrest
          exact ⟨by rw [Mealy.out, Mealy.out, hemit]; exact congrArg _ hout, hafter⟩

end ShiftKey

/-! ## Extended keys -/

/-- The prefix of an extended key, as the keyboard sends it. -/
def extendedPrefix : UInt8 := 0xE0

section Insert

variable {s t : ShiftState} {x : UInt8} {u v : List UInt8}

/-- A Shift code before `v`: nothing is typed for it, and the other key has
no part in it. -/
theorem ShiftKey.Event.alike_iff {k : ShiftKey} (hk : k.Event x) :
    keyboard.Alike t (x :: v) t v ↔
      k.held t = decide (x = k.make) ∨ k.Resync (k.other.held t) v := by
  have hemit : keyboard.emit t x = none := hk.silent.1 _
  have hstep : keyboard.Alike t (x :: v) t v ↔ keyboard.Alike (press t x) v t v := by
    simp only [Mealy.Alike, Mealy.out, Mealy.after_cons, hemit, Option.toList_none,
      List.nil_append]
    rfl
  have hpress := ShiftKey.held_press_event hk t
  have hpress' := ShiftKey.held_press_of_not hk.silent.2 t
  rw [hstep, ← hpress]
  by_cases hsame : k.held t = k.held (press t x)
  · have heq : press t x = t := ShiftKey.eq_of_held hsame.symm hpress'
    rw [heq]
    simp [Mealy.Alike]
  · have hdiffer : k.Differ (press t x) t := ⟨fun h => hsame h.symm, hpress'⟩
    rw [hdiffer.alike_iff, hpress']
    simp [hsame]

/-- Any other code: it leaves the keys alone, and must not type a byte. -/
theorem alike_cons_iff_of_not_shift (hx : ∀ k : ShiftKey, ¬k.Event x) :
    keyboard.Alike t (x :: v) t v ↔ asciiForMakeCode x false = none := by
  have hstep : keyboard.step t x = t := ShiftKey.press_of_not hx t
  simp only [Mealy.Alike, Mealy.out, Mealy.after_cons, hstep, and_true]
  rw [List.append_left_eq_self]
  have hsome := asciiForMakeCode_isSome x t.isActive false
  show (asciiForMakeCode x t.isActive).toList = [] ↔ _
  rw [Option.toList_eq_nil_iff, ← Option.not_isSome_iff_eq_none,
    ← Option.not_isSome_iff_eq_none, hsome]

/-- A code is of one Shift key at most. -/
theorem ShiftKey.Event.unique {k k' : ShiftKey} (hk : k.Event x) (hk' : k'.Event x) : k' = k := by
  by_contra hne
  have hother : k' = k.other := by
    cases k <;> cases k' <;> first | rfl | exact absurd rfl hne
  exact hk.silent.2 (hother ▸ hk')

/-- One code put into a stream. -/
theorem insert_alike_iff :
    keyboard.Alike s (u ++ x :: v) s (u ++ v) ↔
      asciiForMakeCode x false = none ∧ ∀ k : ShiftKey, k.Event x →
        k.down (k.held s) u = decide (x = k.make) ∨
          k.Resync (k.other.down (k.other.held s) u) v := by
  rw [Mealy.alike_append_left]
  by_cases hshift : ∃ k : ShiftKey, k.Event x
  · obtain ⟨k, hk⟩ := hshift
    rw [hk.alike_iff, k.held_after, k.other.held_after, and_iff_right (hk.silent.1 false)]
    refine ⟨fun h k' hk' => ?_, fun h => h k hk⟩
    obtain rfl := hk.unique hk'
    exact h
  · have hnone : ∀ k : ShiftKey, ¬k.Event x := fun k hk => hshift ⟨k, hk⟩
    rw [alike_cons_iff_of_not_shift hnone, and_iff_left fun k hk => absurd hk (hnone k)]

end Insert

section Harmless

variable {H : Type} {trap : Cfg LockId (Globals H) → Outcome LockId (Globals H) Fatal Unit}

/-- The extended key leaves no trace: `translate` gives the same bytes and
leaves the same Shift state with it and without it. -/
def Harmless (trap : Cfg LockId (Globals H) → Outcome LockId (Globals H) Fatal Unit)
    (g : Globals H) (b : Bool) (u v : List UInt8) (x : UInt8) : Prop :=
  ∃ typed g₁ g₂,
    (translateAll (u ++ extendedPrefix :: x :: v)).Yields trap g noLock b typed g₁ ∧
    (translateAll (u ++ v)).Yields trap g noLock b typed g₂ ∧ g₁.shift = g₂.shift

theorem harmless_iff_alike (g : Globals H) (b : Bool) (u v : List UInt8) (x : UInt8) :
    Harmless trap g b u v x ↔
      keyboard.Alike g.shift (u ++ extendedPrefix :: x :: v) g.shift (u ++ v) := by
  constructor
  · rintro ⟨typed, g₁, g₂, h₁, h₂, hshift⟩
    obtain ⟨hout₁, rfl⟩ := (translateAll_yields rfl _).unique h₁
    obtain ⟨hout₂, rfl⟩ := (translateAll_yields rfl _).unique h₂
    exact ⟨hout₁.trans hout₂.symm, hshift⟩
  · rintro ⟨hout, hafter⟩
    refine ⟨_, _, { g with shift := keyboard.after g.shift (u ++ v) },
      translateAll_yields rfl _, ?_, hafter⟩
    rw [hout]
    exact translateAll_yields rfl _

/-- An extended key between `u` and `v` is harmless exactly if its second
byte is not in the table, and if it is a Shift code then that Shift was so
already, or it is heard of again before its state matters. -/
theorem extended_key_harmless_iff (g : Globals H) (b : Bool) (u v : List UInt8) (x : UInt8) :
    Harmless trap g b u v x ↔
      asciiForMakeCode x false = none ∧ ∀ k : ShiftKey, x = k.make ∨ x = k.brk →
        k.down (k.held g.shift) u = decide (x = k.make) ∨
          ∃ w code rest, v = w ++ code :: rest ∧ (code = k.make ∨ code = k.brk) ∧
            ∀ w₁ c w₂, w = w₁ ++ c :: w₂ →
              asciiForMakeCode c true = asciiForMakeCode c false ∨
                k.other.down (k.other.held g.shift) (u ++ w₁) = true := by
  have hdown : ∀ (k : ShiftKey) (d : Bool) (w : List UInt8),
      k.down (k.down d u) w = k.down d (u ++ w) :=
    fun k d w => List.foldl_append.symm
  have hcond := @insert_alike_iff g.shift x u v
  simp only [ShiftKey.Resync, ShiftKey.Event, hdown] at hcond
  rw [← hcond]
  -- The prefix itself is a release of no key.
  have hidle : keyboard.Alike g.shift (u ++ extendedPrefix :: x :: v) g.shift (u ++ v) ↔
      keyboard.Alike g.shift (u ++ x :: v) g.shift (u ++ v) := by
    rw [Mealy.alike_append_left, Mealy.alike_append_left]
    exact keyboard.alike_cons_idle (asciiForMakeCode_none _ (by decide)) rfl
  rw [← hidle]
  exact harmless_iff_alike g b u v x

/-- The Up arrow with Num Lock on is sent with a Shift in front, and an `a`
typed while it is down comes out as an `A`. The volume key types a `b`. -/
theorem extended_keys_type :
    ¬Harmless (globalsTrapRun smallPlatform) (smallStart []).cfg.data.globals false
      [] [0xE0, 0x48, 0x1E] 0x2A ∧
    ¬Harmless (globalsTrapRun smallPlatform) (smallStart []).cfg.data.globals false
      [] [] 0x30 := by
  rw [harmless_iff_alike, harmless_iff_alike]
  constructor
  · rintro ⟨hout, _⟩
    exact absurd hout (by decide)
  · rintro ⟨hout, _⟩
    exact absurd hout (by decide)

end Harmless

end ProtoOs.Ref
