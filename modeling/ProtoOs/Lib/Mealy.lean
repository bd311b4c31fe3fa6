import Mathlib.Data.List.Induction
import Mathlib.Data.List.ReduceOption

/-!
# Machines that read and sometimes write

A state, moved on by each letter that is read, and at most one letter
written for it. What is written for a word is put together from its parts
(`out_append`), so what a letter put into the middle of a word changes is
what it changes from there on (`alike_append_left`). Letters that are idle
where they stand can be left out, any number of them at once
(`alike_without`).
-/

namespace ProtoOs.Lib

structure Mealy (σ α β : Type) where
  step : σ → α → σ
  emit : σ → α → Option β

namespace Mealy

variable {σ α β : Type} (m : Mealy σ α β)

def after (s : σ) (xs : List α) : σ := xs.foldl m.step s

def out : σ → List α → List β
  | _, [] => []
  | s, x :: xs => (m.emit s x).toList ++ out (m.step s x) xs

theorem after_append (s : σ) (xs ys : List α) :
    m.after s (xs ++ ys) = m.after (m.after s xs) ys :=
  List.foldl_append

theorem after_cons (s : σ) (x : α) (xs : List α) :
    m.after s (x :: xs) = m.after (m.step s x) xs := rfl

theorem out_append (xs ys : List α) :
    ∀ s, m.out s (xs ++ ys) = m.out s xs ++ m.out (m.after s xs) ys := by
  induction xs with
  | nil => intro s; rfl
  | cons x xs ih =>
      intro s
      rw [List.cons_append, out, out, ih, List.append_assoc]
      rfl

/-- Two words are read alike from two states: the same is written, and the
same state reached. -/
def Alike (s : σ) (xs : List α) (s' : σ) (ys : List α) : Prop :=
  m.out s xs = m.out s' ys ∧ m.after s xs = m.after s' ys

theorem alike_append_left (s : σ) (u xs ys : List α) :
    m.Alike s (u ++ xs) s (u ++ ys) ↔ m.Alike (m.after s u) xs (m.after s u) ys := by
  simp only [Alike, out_append, after_append, List.append_cancel_left_eq]

/-- A letter for which nothing is written and the state stays. -/
theorem alike_cons_idle {s : σ} {x : α} (hemit : m.emit s x = none) (hstep : m.step s x = s)
    {s' : σ} {xs ys : List α} : m.Alike s (x :: xs) s' ys ↔ m.Alike s xs s' ys := by
  simp only [Alike, out, after_cons, hemit, hstep, Option.toList_none, List.nil_append]

theorem Alike.append {s s' : σ} {xs ys us vs : List α} (h : m.Alike s xs s' ys)
    (h' : m.Alike (m.after s xs) us (m.after s' ys) vs) :
    m.Alike s (xs ++ us) s' (ys ++ vs) := by
  constructor
  · rw [out_append, out_append, h.1, h'.1]
  · rw [after_append, after_append, h'.2]

/-! ## Letter by letter -/

/-- What is written for each letter of a word. -/
def answers : σ → List α → List (Option β)
  | _, [] => []
  | s, x :: xs => m.emit s x :: answers (m.step s x) xs

theorem length_answers (xs : List α) : ∀ s, (m.answers s xs).length = xs.length := by
  induction xs with
  | nil => exact fun _ => rfl
  | cons x xs ih => exact fun s => congrArg (· + 1) (ih _)

theorem getElem?_answers (xs : List α) :
    ∀ s (i : Nat), (m.answers s xs)[i]? = xs[i]?.map (m.emit (m.after s (xs.take i))) := by
  induction xs with
  | nil => exact fun _ _ => rfl
  | cons x xs ih =>
      intro s i
      cases i with
      | zero => rfl
      | succ i =>
          rw [answers, List.getElem?_cons_succ, List.getElem?_cons_succ, List.take_succ_cons,
            after_cons]
          exact ih _ i

theorem reduceOption_answers (xs : List α) :
    ∀ s, (m.answers s xs).reduceOption = m.out s xs := by
  induction xs with
  | nil => exact fun _ => rfl
  | cons x xs ih =>
      intro s
      rw [answers, out, ← ih]
      cases m.emit s x with
      | none => exact List.reduceOption_cons_of_none _
      | some y => exact List.reduceOption_cons_of_some y _

/-! ## Leaving letters out -/

/-- The word without the letters at the dropped places. -/
def without (dropped : Nat → Bool) (xs : List α) : List α :=
  (xs.zipIdx.filter fun p => !dropped p.2).map Prod.fst

theorem without_snoc (dropped : Nat → Bool) (xs : List α) (x : α) :
    without dropped (xs ++ [x]) =
      without dropped xs ++ if dropped xs.length then [] else [x] := by
  unfold without
  rw [List.zipIdx_append, List.filter_append, List.map_append]
  cases hx : dropped xs.length <;> simp [hx]

/-- Reading the letter writes nothing and leaves the state. -/
def Idle (s : σ) (x : α) : Prop := m.emit s x = none ∧ m.step s x = s

theorem alike_without {s : σ} {dropped : Nat → Bool} {xs : List α}
    (h : ∀ i x, xs[i]? = some x → dropped i = true → m.Idle (m.after s (xs.take i)) x) :
    m.Alike s (without dropped xs) s xs := by
  -- From the end: what is read before a letter is then a word of its own.
  induction xs using List.reverseRecOn with
  | nil => exact ⟨rfl, rfl⟩
  | append_singleton xs x ih =>
      have hxs : m.Alike s (without dropped xs) s xs := by
        refine ih fun i y hy hi => ?_
        have hlt : i < xs.length := (List.getElem?_eq_some_iff.mp hy).1
        have hidle := h i y (by rw [List.getElem?_append_left hlt, hy]) hi
        rwa [List.take_append_of_le_length (Nat.le_of_lt hlt)] at hidle
      rw [without_snoc]
      refine hxs.append m ?_
      rw [hxs.2]
      cases hd : dropped xs.length with
      | false => exact ⟨rfl, rfl⟩
      | true =>
          have hidle := h xs.length x List.getElem?_concat_length hd
          rw [List.take_left] at hidle
          have hcons : m.Alike (m.after s xs) [x] (m.after s xs) [] :=
            (m.alike_cons_idle hidle.1 hidle.2).mpr ⟨rfl, rfl⟩
          exact ⟨hcons.1.symm, hcons.2.symm⟩

end Mealy

end ProtoOs.Lib
