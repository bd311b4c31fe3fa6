import ProtoOs.Lib.Fifo
import ProtoOs.Ref.Queue

/-!
# The scancode ring is a bounded drop-oldest queue

`ScancodeQueue` keeps three counters where two would do, and its full and
empty states share `head = tail`. The invariant that makes the redundancy
harmless is the one tying the three together, `tail = (head + len) % 16`;
with it, push and pop are the list operations of `Fifo` on the ring's
contents, and no operation sequence from `new` panics.
-/

namespace ProtoOs.Ref

open ProtoOs.Lib

namespace ScancodeQueue

/-- The counters of a queue reached from `new`. -/
structure Valid (q : ScancodeQueue) : Prop where
  head_lt : q.head < scancodeQueueCapacity
  len_le : q.len ≤ scancodeQueueCapacity
  tail_eq : q.tail = (q.head + q.len) % scancodeQueueCapacity

theorem Valid.tail_lt {q : ScancodeQueue} (h : q.Valid) :
    q.tail < scancodeQueueCapacity := by
  rw [h.tail_eq]; exact Nat.mod_lt _ (by decide)

/-- What is pending, oldest first. -/
def contents (q : ScancodeQueue) : List UInt8 :=
  Ring.contents (by decide) q.buffer q.head q.len

@[simp] theorem contents_length (q : ScancodeQueue) :
    q.contents.length = q.len := by simp [contents]

theorem new_valid : new.Valid := ⟨by decide, by decide, by decide⟩

@[simp] theorem new_contents : new.contents = [] := rfl

/-- A queue with something pending gives up its head cell, and moving the
head on leaves the rest. -/
theorem Valid.contents_eq_cons {q : ScancodeQueue} (h : q.Valid)
    (hlen : q.len ≠ 0) :
    ∃ hhead : q.head < scancodeQueueCapacity,
      q.contents = q.buffer[q.head] ::
        { q with head := (q.head + 1) % scancodeQueueCapacity,
                 len := q.len - 1 : ScancodeQueue }.contents := by
  obtain ⟨n, hn⟩ : ∃ n, q.len = n + 1 := ⟨q.len - 1, by omega⟩
  refine ⟨h.head_lt, ?_⟩
  simp only [contents, hn, Nat.add_sub_cancel]
  exact Ring.contents_succ h.head_lt

theorem Valid.advance {q : ScancodeQueue} (h : q.Valid) (hlen : q.len ≠ 0) :
    { q with head := (q.head + 1) % scancodeQueueCapacity,
             len := q.len - 1 : ScancodeQueue }.Valid where
  head_lt := Nat.mod_lt _ (by decide)
  len_le := Nat.le_trans (Nat.sub_le _ _) h.len_le
  tail_eq := by
    have htail := h.tail_eq
    simp only [scancodeQueueCapacity] at htail ⊢
    omega

/-- A push with room appends. -/
theorem push_of_room {q : ScancodeQueue} (h : q.Valid)
    (hroom : q.len < scancodeQueueCapacity) (x : UInt8) :
    ∃ q', push q x = some q' ∧ q'.Valid ∧ q'.contents = q.contents ++ [x] := by
  refine ⟨{ q with
      buffer := q.buffer.set q.tail x h.tail_lt
      tail := (q.tail + 1) % scancodeQueueCapacity
      len := q.len + 1 }, ?_, ?_, ?_⟩
  · unfold push
    simp only [if_neg (Nat.ne_of_lt hroom), Option.pure_def,
      Option.bind_eq_bind, Option.bind_some]
    rw [dif_pos h.tail_lt]
  · refine ⟨h.head_lt, hroom, ?_⟩
    have htail := h.tail_eq
    simp only [scancodeQueueCapacity] at htail ⊢
    omega
  · have hset := Ring.contents_set (by decide) q.buffer q.head hroom x
    simp only [contents, h.tail_eq]
    exact hset

/-- Push is the list model's push, whatever the queue holds. -/
theorem push_spec {q : ScancodeQueue} (h : q.Valid) (x : UInt8) :
    ∃ q', push q x = some q' ∧ q'.Valid ∧
      q'.contents = Fifo.push scancodeQueueCapacity q.contents x := by
  by_cases hfull : q.len = scancodeQueueCapacity
  · -- The overflow branch: the head moves first, then the write finds room.
    have hlen : q.len ≠ 0 := by rw [hfull]; decide
    have hlt : q.len - 1 < scancodeQueueCapacity := by rw [hfull]; decide
    obtain ⟨_, hcons⟩ := h.contents_eq_cons hlen
    obtain ⟨q', hq', hv, hc⟩ := push_of_room (h.advance hlen) hlt x
    refine ⟨q', ?_, hv, ?_⟩
    · rw [← hq', push, push, if_pos hfull, if_neg (Nat.ne_of_lt hlt),
        checkedSub, if_pos (Nat.one_le_iff_ne_zero.mpr hlen)]
      rfl
    · rw [hc, Fifo.push, contents_length, if_pos hfull, hcons, List.tail_cons]
  · have hlt : q.len < scancodeQueueCapacity :=
      Nat.lt_of_le_of_ne h.len_le hfull
    obtain ⟨q', hq', hv, hc⟩ := push_of_room h hlt x
    refine ⟨q', hq', hv, ?_⟩
    rw [hc, Fifo.push_of_lt (by rw [contents_length]; exact hlt)]

/-- Pop is the list model's pop. -/
theorem pop_spec {q : ScancodeQueue} (h : q.Valid) :
    ∃ q', pop q = some (q.contents.head?, q') ∧ q'.Valid ∧
      q'.contents = q.contents.tail := by
  unfold pop
  by_cases hlen : q.len = 0
  · have hnil : q.contents = [] := by
      rw [← List.length_eq_zero_iff, contents_length, hlen]
    refine ⟨q, ?_, h, by rw [hnil]; rfl⟩
    rw [if_pos hlen, hnil]
    rfl
  · obtain ⟨hhead, hcons⟩ := h.contents_eq_cons hlen
    refine ⟨_, ?_, h.advance hlen, by rw [hcons, List.tail_cons]⟩
    rw [if_neg hlen, hcons, Vector.getElem?_eq_getElem hhead]
    simp [checkedSub, Nat.one_le_iff_ne_zero.mpr hlen]

/-! ## Whole runs -/

/-- A sequence of operations from a queue, with what the pops answered. -/
def run : ScancodeQueue → List (Fifo.Op UInt8) →
    Option (ScancodeQueue × List (Option UInt8))
  | q, [] => some (q, [])
  | q, .push x :: ops => do
      let q ← push q x
      run q ops
  | q, .pop :: ops => do
      let (answer, q) ← pop q
      let (q, answers) ← run q ops
      pure (q, answer :: answers)

theorem run_spec {q : ScancodeQueue} (h : q.Valid)
    (ops : List (Fifo.Op UInt8)) :
    ∃ q', run q ops =
        some (q', Fifo.outputs scancodeQueueCapacity q.contents ops) ∧
      q'.Valid ∧
      q'.contents = Fifo.pending scancodeQueueCapacity q.contents ops := by
  induction ops generalizing q with
  | nil => exact ⟨q, rfl, h, rfl⟩
  | cons op ops ih =>
      cases op with
      | push x =>
          obtain ⟨q₁, hq₁, hv₁, hc₁⟩ := push_spec h x
          obtain ⟨q₂, hq₂, hv₂, hc₂⟩ := ih hv₁
          refine ⟨q₂, ?_, hv₂, by rw [hc₂, hc₁]; rfl⟩
          rw [run, hq₁]
          simp only [Option.bind_eq_bind, Option.bind_some]
          rw [hq₂, hc₁]
          rfl
      | pop =>
          obtain ⟨q₁, hq₁, hv₁, hc₁⟩ := pop_spec h
          obtain ⟨q₂, hq₂, hv₂, hc₂⟩ := ih hv₁
          refine ⟨q₂, ?_, hv₂, by rw [hc₂, hc₁]; rfl⟩
          rw [run, hq₁]
          simp only [Option.bind_eq_bind, Option.bind_some]
          rw [hq₂, hc₁]
          rfl

/-- The scancode queue refines a bounded drop-oldest FIFO of capacity 16:
every sequence of pushes and pops from `new` runs without a panic, the pops
answer what the list model answers, and the counters stay tied together.
What came out is a subsequence of what went in, and what is neither out nor
pending was the oldest of 16 pending scancodes at some push. -/
theorem run_refines_fifo (ops : List (Fifo.Op UInt8)) :
    ∃ q answers, run new ops = some (q, answers) ∧
      answers = Fifo.outputs scancodeQueueCapacity [] ops ∧
      q.contents = Fifo.pending scancodeQueueCapacity [] ops ∧
      q.head < scancodeQueueCapacity ∧ q.tail < scancodeQueueCapacity ∧
      q.len ≤ scancodeQueueCapacity ∧
      q.tail = (q.head + q.len) % scancodeQueueCapacity ∧
      (answers.filterMap id).Sublist (Fifo.pushed ops) ∧
      (answers.filterMap id ++ Fifo.dropped scancodeQueueCapacity [] ops ++
        q.contents).Perm (Fifo.pushed ops) := by
  obtain ⟨q, hrun, hv, hc⟩ := run_spec new_valid ops
  rw [new_contents] at hrun hc
  refine ⟨q, _, hrun, rfl, hc, hv.head_lt, hv.tail_lt, hv.len_le, hv.tail_eq,
    ?_, ?_⟩
  · exact (List.sublist_append_left _ _).trans
      (Fifo.popped_append_pending_sublist scancodeQueueCapacity [] ops)
  · rw [hc]
    exact Fifo.conservation scancodeQueueCapacity (by decide) [] ops

end ScancodeQueue

end ProtoOs.Ref
