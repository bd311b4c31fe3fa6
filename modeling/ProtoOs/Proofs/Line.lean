import Mathlib.Data.List.Induction
import ProtoOs.Proofs.Screen
import ProtoOs.Ref.Line

/-!
# The line buffer holds what was typed

`LineBuffer` keeps a fixed array and a length, and its operations only ever
move the length or write at it. `Holds` says which text it stands for. All
bytes that get in are printable, so `from_utf8` never fails and the text is
also what `as_str` reads.
-/

namespace ProtoOs.Ref

theorem Printable.toChar {b : UInt8} (h : Printable b) :
    (Char.ofUInt8 b).utf8Size = 1 ∧ (Char.ofUInt8 b).toUInt8 = b := by
  constructor
  · have hle : (Char.ofUInt8 b).val ≤ 127 := by
      show b.toUInt32 ≤ 127
      rw [UInt32.le_iff_toNat_le, UInt8.toNat_toUInt32]
      exact Nat.le_succ_of_le (UInt8.le_iff_toNat_le.mp h.2)
    exact if_pos hle
  · exact UInt8.toUInt8_toUInt32 b

/-- ASCII is UTF-8. -/
theorem validateUTF8_of_printable {s : List UInt8} (hs : ∀ b ∈ s, Printable b) :
    ByteArray.validateUTF8 ⟨s.toArray⟩ = true := by
  rw [ByteArray.validateUTF8_eq_true_iff]
  induction s using List.reverseRecOn with
  | nil => exact ByteArray.isValidUTF8_empty
  | append_singleton s b ih =>
      obtain ⟨hsize, hbyte⟩ := (hs b (by simp)).toChar
      have hpush := (ih fun x hx => hs x (by simp [hx])).push hsize
      have hmk : (ByteArray.mk s.toArray).push b = ⟨(s ++ [b]).toArray⟩ :=
        congrArg ByteArray.mk (List.push_toArray s b)
      rw [hbyte, hmk] at hpush
      exact hpush

namespace LineBuffer

/-- The text the buffer stands for. -/
structure Holds (l : LineBuffer) (s : List UInt8) : Prop where
  len : l.len = s.length
  slice : l.bytes.toList.take l.len = s
  printable : ∀ b ∈ s, Printable b

variable {l : LineBuffer} {s : List UInt8}

theorem Holds.length_le (h : l.Holds s) : s.length ≤ lineCapacity := by
  have hlen := congrArg List.length h.slice
  simp only [List.length_take, Vector.length_toList] at hlen
  omega

theorem holds_nil (h : l.len = 0) : l.Holds [] :=
  ⟨h, by simp [h], by simp⟩

theorem push_of_full (h : l.Holds s) (hs : s.length = lineCapacity) (b : UInt8) :
    l.push b = some (false, l) := by
  rw [push, if_pos (h.len.trans hs)]

theorem push_of_lt (h : l.Holds s) (hs : s.length < lineCapacity) {b : UInt8}
    (hb : Printable b) : ∃ l', l.push b = some (true, l') ∧ l'.Holds (s ++ [b]) := by
  have hlen : l.len < lineCapacity := h.len ▸ hs
  refine ⟨⟨l.bytes.set l.len b hlen, l.len + 1⟩, ?_, ?_, ?_, ?_⟩
  · rw [push, if_neg (Nat.ne_of_lt hlen), dif_pos hlen]
  · simp [h.len]
  · obtain ⟨x, hx⟩ : ∃ x, l.bytes.toList[l.len]? = some x :=
      ⟨_, List.getElem?_eq_getElem (by simpa using hlen)⟩
    simp only [Vector.toList_set, List.take_set]
    rw [List.take_add_one, h.slice, hx, h.len]
    simp
  · simp only [List.mem_append, List.mem_singleton]
    rintro x (hx | rfl)
    · exact h.printable x hx
    · exact hb

theorem pop_nil (h : l.Holds []) : l.pop = (false, l) := by
  rw [pop, if_pos (by simpa using h.len)]

theorem pop_snoc {x : UInt8} (h : l.Holds (s ++ [x])) :
    ∃ l', l.pop = (true, l') ∧ l'.Holds s := by
  have hlen : l.len = s.length + 1 := by simpa using h.len
  refine ⟨{ l with len := l.len - 1 }, ?_, ?_, ?_, fun b hb => ?_⟩
  · rw [pop, if_neg (by omega)]
  · simp [hlen]
  · have hslice := congrArg (List.take s.length) h.slice
    rw [hlen, List.take_take] at hslice
    simpa [hlen] using hslice
  · exact h.printable b (by simp [hb])

theorem Holds.asStr (h : l.Holds s) : l.asStr = some s := by
  rw [LineBuffer.asStr, if_pos (h.len ▸ h.length_le)]
  simp only [h.slice]
  rw [if_pos (validateUTF8_of_printable h.printable)]

end LineBuffer

end ProtoOs.Ref
