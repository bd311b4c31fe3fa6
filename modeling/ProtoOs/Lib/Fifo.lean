import Mathlib.Data.List.Perm.Basic
import Mathlib.Data.Nat.ModEq

/-!
# Bounded queues that drop their oldest element, and rings

`Fifo` is the list model: a push appends, first removing the head when the
queue is at capacity; a pop removes and returns the head. Losses are kept
apart from results, so that conservation can be said exactly: everything
ever pushed was popped, is pending, or was the oldest element of a full
queue at some later push, and what was popped or is pending is still in
the order it was pushed in.

`Ring` is the usual array representation, a backing vector read from
`head` for `len` cells, wrapping at the capacity. Its three lemmas say what
a write at the free cell and an advance of the head do to the contents.
-/

namespace ProtoOs.Lib

/-! ## The list model -/

namespace Fifo

variable {α : Type}

inductive Op (α : Type) where
  | push (x : α)
  | pop

def push (cap : Nat) (xs : List α) (x : α) : List α :=
  (if xs.length = cap then xs.tail else xs) ++ [x]

/-- What is pending after a sequence of operations. -/
def pending (cap : Nat) : List α → List (Op α) → List α
  | xs, [] => xs
  | xs, .push x :: ops => pending cap (push cap xs x) ops
  | xs, .pop :: ops => pending cap xs.tail ops

/-- What the pops answered, in order. -/
def outputs (cap : Nat) : List α → List (Op α) → List (Option α)
  | _, [] => []
  | xs, .push x :: ops => outputs cap (push cap xs x) ops
  | xs, .pop :: ops => xs.head? :: outputs cap xs.tail ops

/-- What was lost: the head of the queue, at each push that found it at
capacity. -/
def dropped (cap : Nat) : List α → List (Op α) → List α
  | _, [] => []
  | xs, .push x :: ops =>
      (if xs.length = cap then xs.head?.toList else []) ++
        dropped cap (push cap xs x) ops
  | xs, .pop :: ops => dropped cap xs.tail ops

def pushed : List (Op α) → List α
  | [] => []
  | .push x :: ops => x :: pushed ops
  | .pop :: ops => pushed ops

/-- The elements that came out, without the answers of the empty queue. -/
def popped (cap : Nat) (xs : List α) (ops : List (Op α)) : List α :=
  (outputs cap xs ops).filterMap id

theorem popped_push {cap : Nat} {xs : List α} {x : α} {ops : List (Op α)} :
    popped cap xs (.push x :: ops) = popped cap (push cap xs x) ops := rfl

theorem popped_pop {cap : Nat} {xs : List α} {ops : List (Op α)} :
    popped cap xs (.pop :: ops) =
      xs.head?.toList ++ popped cap xs.tail ops := by
  cases xs <;> rfl

/-- Order is kept: what came out followed by what is pending is a
subsequence of what was there followed by what was pushed. -/
theorem popped_append_pending_sublist (cap : Nat) (xs : List α)
    (ops : List (Op α)) :
    (popped cap xs ops ++ pending cap xs ops).Sublist (xs ++ pushed ops) := by
  induction ops generalizing xs with
  | nil => simp [popped, outputs, pending, pushed]
  | cons op ops ih =>
      cases op with
      | push x =>
          rw [popped_push]
          refine (ih (push cap xs x)).trans ?_
          have hxs : (if xs.length = cap then xs.tail else xs).Sublist xs := by
            split
            · exact List.tail_sublist xs
            · exact List.Sublist.refl xs
          rw [push, List.append_assoc, List.singleton_append]
          exact hxs.append_right (x :: pushed ops)
      | pop =>
          rw [popped_pop, List.append_assoc]
          cases xs with
          | nil => exact ih []
          | cons y ys => exact (ih ys).cons_cons y

/-- Nothing else is lost: what was there and what was pushed is, up to
order, what came out, what was dropped and what is pending. -/
theorem conservation (cap : Nat) (hcap : 0 < cap) (xs : List α)
    (ops : List (Op α)) :
    (popped cap xs ops ++ dropped cap xs ops ++ pending cap xs ops).Perm
      (xs ++ pushed ops) := by
  induction ops generalizing xs with
  | nil => simp [popped, outputs, dropped, pending, pushed]
  | cons op ops ih =>
      cases op with
      | push x =>
          rw [popped_push]
          simp only [dropped, pending, pushed]
          by_cases hfull : xs.length = cap
          · obtain ⟨y, ys, rfl⟩ : ∃ y ys, xs = y :: ys :=
              List.exists_cons_of_length_pos (by omega)
            have hpush : push cap (y :: ys) x = ys ++ [x] := by
              simp [push, hfull]
            have h := ih (push cap (y :: ys) x)
            rw [hpush] at h ⊢
            simp only [hfull, if_true, List.head?_cons, Option.toList_some,
              List.singleton_append]
            have hmid : (popped cap (ys ++ [x]) ops ++
                (y :: dropped cap (ys ++ [x]) ops) ++
                  pending cap (ys ++ [x]) ops).Perm
                (y :: (popped cap (ys ++ [x]) ops ++
                  dropped cap (ys ++ [x]) ops ++
                    pending cap (ys ++ [x]) ops)) := by
              rw [List.append_assoc, List.append_assoc, List.cons_append]
              exact List.perm_middle
            refine hmid.trans ?_
            simpa using h.cons y
          · have hpush : push cap xs x = xs ++ [x] := by simp [push, hfull]
            have h := ih (push cap xs x)
            rw [hpush] at h ⊢
            simpa [hfull] using h
      | pop =>
          rw [popped_pop]
          simp only [dropped, pending, pushed]
          cases xs with
          | nil => exact ih []
          | cons y ys => exact (ih ys).cons y

/-- A push that finds room loses nothing. -/
theorem push_of_lt {cap : Nat} {xs : List α} {x : α} (h : xs.length < cap) :
    push cap xs x = xs ++ [x] := by
  simp [push, Nat.ne_of_lt h]

end Fifo

/-! ## Rings -/

namespace Ring

variable {α : Type} {n : Nat}

/-- The `len` cells of a ring from `head` on. -/
def contents (hn : 0 < n) (buf : Vector α n) (head len : Nat) : List α :=
  (List.range len).map fun i =>
    buf[(⟨(head + i) % n, Nat.mod_lt _ hn⟩ : Fin n)]

variable {hn : 0 < n} {buf : Vector α n} {head len : Nat}

@[simp] theorem contents_length : (contents hn buf head len).length = len := by
  simp [contents]

/-- The head cell comes out first, and advancing the head leaves the
rest. -/
theorem contents_succ (hhead : head < n) :
    contents hn buf head (len + 1) =
      buf[head] :: contents hn buf ((head + 1) % n) len := by
  unfold contents
  rw [List.range_succ_eq_map, List.map_cons, List.map_map]
  refine congrArg₂ _ ?_ (List.map_congr_left fun i _ => ?_)
  · simp only [Fin.getElem_fin, Nat.add_zero, Nat.mod_eq_of_lt hhead]
  · have hi : (head + (i + 1)) % n = ((head + 1) % n + i) % n := by
      rw [Nat.mod_add_mod, Nat.add_assoc, Nat.add_comm i 1]
    simp only [Function.comp_apply, Fin.getElem_fin, Nat.succ_eq_add_one, hi]

/-- Two offsets below the capacity name different cells. -/
theorem offset_ne (head i j : Nat) (hij : i < j) (hj : j < n) :
    (head + i) % n ≠ (head + j) % n := by
  intro h
  have hdvd : n ∣ head + j - (head + i) :=
    (Nat.modEq_iff_dvd' (by omega)).mp h
  exact absurd (Nat.le_of_dvd (by omega) hdvd) (by omega)

/-- A write at the first free cell appends, as long as there is one. -/
theorem contents_set (hn : 0 < n) (buf : Vector α n) (head : Nat)
    (hlen : len < n) (x : α) :
    contents hn (buf.set ((head + len) % n) x (Nat.mod_lt _ hn)) head
        (len + 1) =
      contents hn buf head len ++ [x] := by
  unfold contents
  rw [List.range_succ, List.map_append, List.map_singleton]
  refine congrArg₂ _ (List.map_congr_left fun i hi => ?_) ?_
  · have hne := offset_ne head i len (List.mem_range.mp hi) hlen
    simp only [Fin.getElem_fin, Vector.getElem_set]
    rw [if_neg (Ne.symm hne)]
  · simp only [Fin.getElem_fin, Vector.getElem_set_self]

end Ring

end ProtoOs.Lib
