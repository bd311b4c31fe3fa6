import Mathlib.Data.List.Basic
import Mathlib.Data.List.Induction

/-!
# The ideal scrolling terminal

An unbounded list of rows of which only the last one is written: `newLine`
starts a row, `put` appends a character, starting a row first when the last
one is full, and `erase` drops the last character of the last row. What a
screen of `h` rows shows is the last `h` of them.

The last row is a field of its own, so a terminal without one cannot be
built. The lemmas read the shown rows by their index on the screen, which
is how a screen buffer that scrolls in place reads them.
-/

namespace ProtoOs.Lib

structure Terminal (α : Type) where
  above : List (List α)
  last : List α
  deriving DecidableEq, Repr

namespace Terminal

variable {α : Type}

def rows (t : Terminal α) : List (List α) := t.above ++ [t.last]

/-- A screen of `h` blank rows. -/
def blank (h : Nat) : Terminal α := ⟨List.replicate (h - 1) [], []⟩

def newLine (t : Terminal α) : Terminal α := ⟨t.rows, []⟩

def put (width : Nat) (t : Terminal α) (x : α) : Terminal α :=
  let t := if t.last.length = width then t.newLine else t
  { t with last := t.last ++ [x] }

def erase (t : Terminal α) : Terminal α := { t with last := t.last.dropLast }

/-- The last `h` rows, top first. -/
def visible (h : Nat) (t : Terminal α) : List (List α) :=
  t.rows.drop (t.rows.length - h)

/-- Row `i` of the screen; past the last one there is nothing. -/
def row (h : Nat) (t : Terminal α) (i : Nat) : List α :=
  ((t.visible h)[i]?).getD []

variable {h : Nat} {t : Terminal α}

theorem row_eq (h : Nat) (t : Terminal α) (i : Nat) :
    t.row h i = (t.rows[t.rows.length - h + i]?).getD [] := by
  rw [row, visible, List.getElem?_drop]

@[simp] theorem rows_length : t.rows.length = t.above.length + 1 := by
  simp [rows]

/-- The bottom row of the screen is the one being written. -/
theorem row_bottom (hh : 0 < h) (hfull : h ≤ t.rows.length) :
    t.row h (h - 1) = t.last := by
  rw [row_eq, show t.rows.length - h + (h - 1) = t.above.length by
    simp only [rows_length] at hfull ⊢; omega]
  simp [rows]

/-- The row over it is the last one left behind. -/
theorem row_over_bottom {above : List (List α)} {l : List α} (hh : 1 < h)
    (hfull : h ≤ t.rows.length) (ha : t.above = above ++ [l]) : t.row h (h - 2) = l := by
  have hlen : t.above.length = above.length + 1 := by simp [ha]
  rw [row_eq, show t.rows.length - h + (h - 2) = above.length by
    simp only [rows_length] at hfull ⊢; omega]
  simp [rows, ha]

/-- Nothing above the bottom row depends on what the last row holds. -/
theorem row_above {i : Nat} (hi : i + 1 < h) (hfull : h ≤ t.rows.length)
    (l : List α) : { t with last := l }.row h i = t.row h i := by
  rw [row_eq, row_eq]
  simp only [rows_length] at hfull ⊢
  simp only [rows]
  rw [List.getElem?_append_left (by omega), List.getElem?_append_left (by omega)]

/-- A new row moves every shown row up by one. -/
theorem row_newLine {i : Nat} (hfull : h ≤ t.rows.length) (hi : i + 1 < h) :
    t.newLine.row h i = t.row h (i + 1) := by
  rw [row_eq, row_eq]
  simp only [rows_length] at hfull ⊢
  have hlen : t.newLine.above.length = t.above.length + 1 := by
    simp [newLine]
  rw [hlen, show t.newLine.rows = t.rows ++ [[]] from rfl,
    List.getElem?_append_left (by rw [rows_length]; omega)]
  congr 2
  omega

@[simp] theorem newLine_last : t.newLine.last = [] := rfl

theorem newLine_rows_length : t.rows.length ≤ t.newLine.rows.length := by
  simp [newLine]

@[simp] theorem erase_rows_length : t.erase.rows.length = t.rows.length := by
  simp [erase]

theorem put_of_lt {width : Nat} {x : α} (hw : t.last.length < width) :
    put width t x = { t with last := t.last ++ [x] } := by
  simp [put, Nat.ne_of_lt hw]

theorem put_of_full {width : Nat} {x : α} (hw : t.last.length = width) :
    put width t x = { t.newLine with last := [x] } := by
  simp [put, hw]

theorem erase_last_length_le {width : Nat} (hw : t.last.length ≤ width) :
    t.erase.last.length ≤ width := by
  simp [erase]; omega

theorem blank_rows_length (hh : 0 < h) : (blank h : Terminal α).rows.length = h := by
  simp [blank]; omega

@[simp] theorem blank_last : (blank h : Terminal α).last = [] := rfl

theorem blank_row (i : Nat) : (blank h : Terminal α).row h i = [] := by
  rw [row_eq]
  cases hr : ((blank h : Terminal α).rows[(blank h : Terminal α).rows.length - h + i]?) with
  | none => rfl
  | some r =>
      have hmem := List.mem_of_getElem? hr
      simp only [rows, blank, List.mem_append, List.mem_replicate,
        List.mem_singleton] at hmem
      rcases hmem with ⟨_, hr⟩ | hr
      · simp [hr]
      · simp [hr]

/-! ## Whole texts -/

/-- A text cut into rows of a width: one row if it is empty, and no row
after the last full one. -/
def cut (width : Nat) (s : List α) : List (List α) :=
  (List.range ((s.length - 1) / width + 1)).map fun i => (s.drop (width * i)).take width

theorem length_cut (width : Nat) (s : List α) :
    (cut width s).length = (s.length - 1) / width + 1 := by
  simp [cut]

/-- All rows but the last, and the last. -/
theorem cut_eq {width : Nat} (hw : 0 < width) (s : List α) :
    cut width s = ((List.range ((s.length - 1) / width)).map fun i =>
      (s.drop (width * i)).take width) ++ [s.drop (width * ((s.length - 1) / width))] := by
  have hfits : (s.drop (width * ((s.length - 1) / width))).length ≤ width := by
    have hdiv := Nat.div_add_mod (s.length - 1) width
    have hmod := Nat.mod_lt (s.length - 1) hw
    rw [List.length_drop]
    omega
  rw [cut, List.range_succ, List.map_append, List.map_singleton, List.take_of_length_le hfits]

theorem cut_of_fits {width : Nat} (hw : 0 < width) {s : List α} (hs : s.length ≤ width) :
    cut width s = [s] := by
  have hzero : (s.length - 1) / width = 0 := Nat.div_eq_of_lt (by omega)
  rw [cut_eq hw, hzero]
  rfl

example : cut 2 ([] : List Nat) = [[]] ∧ cut 2 [1, 2, 3, 4] = [[1, 2], [3, 4]] := by decide

/-- Putting one more character is cutting a text that has one more. -/
theorem put_rows {width : Nat} (hw : 0 < width) {above : List (List α)} {s : List α} (x : α)
    (ht : t.rows = above ++ cut width s) :
    (put width t x).rows = above ++ cut width (s ++ [x]) := by
  rw [cut_eq hw, ← List.append_assoc] at ht
  obtain ⟨habove, hlast⟩ := List.append_inj' ht rfl
  rw [List.cons.injEq] at hlast
  have hdiv := Nat.div_add_mod (s.length - 1) width
  have hmod := Nat.mod_lt (s.length - 1) hw
  have hlength : t.last.length = s.length - width * ((s.length - 1) / width) := by
    rw [hlast.1, List.length_drop]
  generalize hq : (s.length - 1) / width = q at *
  -- The rows before the last are full, so they do not see the new character.
  have hrows : (List.range q).map (fun i => ((s ++ [x]).drop (width * i)).take width) =
      (List.range q).map fun i => (s.drop (width * i)).take width := by
    refine List.map_congr_left fun i hi => ?_
    rw [List.mem_range] at hi
    have hle : width * (i + 1) ≤ width * q := Nat.mul_le_mul_left width hi
    rw [Nat.mul_add, Nat.mul_one] at hle
    rw [List.drop_append_of_le_length (by omega), List.take_append_of_le_length]
    rw [List.length_drop]
    omega
  rw [cut_eq hw, List.length_append, List.length_singleton, Nat.add_sub_cancel]
  by_cases hfull : t.last.length = width
  · have hlen : s.length = width * (q + 1) := by
      rw [Nat.mul_add, Nat.mul_one]
      omega
    have hbefore : ((s ++ [x]).drop (width * q)).take width = t.last := by
      rw [List.drop_append_of_le_length (by omega), ← hlast.1, ← hfull, List.take_left]
    have hafter : (s ++ [x]).drop (width * (q + 1)) = [x] := by
      rw [← hlen, List.drop_left]
    rw [put_of_full hfull, hlen, Nat.mul_div_cancel_left _ hw, List.range_succ, List.map_append,
      List.map_singleton, hrows, hbefore, hafter]
    simp [rows, newLine, habove]
  · have hlen : s.length / width = q := by
      refine Nat.div_eq_of_lt_le ?_ ?_
      · rw [Nat.mul_comm]
        omega
      · rw [Nat.add_mul, Nat.one_mul, Nat.mul_comm]
        omega
    rw [put_of_lt (by omega), hlen, hrows, List.drop_append_of_le_length (by omega)]
    simp [rows, habove, hlast.1]

/-- A text put from a row on is cut together with what the row held. -/
theorem foldl_put_rows {width : Nat} (hw : 0 < width) (hlast : t.last.length ≤ width)
    (s : List α) : (s.foldl (put width) t).rows = t.above ++ cut width (t.last ++ s) := by
  induction s using List.reverseRecOn with
  | nil =>
      rw [List.append_nil, cut_of_fits hw hlast]
      rfl
  | append_singleton s x ih =>
      rw [List.foldl_append, ← List.append_assoc]
      exact put_rows hw x ih

end Terminal

end ProtoOs.Lib
