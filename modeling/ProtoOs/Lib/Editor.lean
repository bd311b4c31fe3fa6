import Mathlib.Data.List.Induction
import ProtoOs.Lib.Terminal

/-!
# A line editor that echoes on a terminal

Two things are kept and neither looks at the other: the line, of at most
`cap` characters, and the terminal it is echoed on after a prompt. Typing
puts a character on both; erasing takes the last one of the line, if there
is one, and the last one of the row being written, if there is one.

`Aligned` always holds: whatever is at the end of the row being written,
beyond the prompt, is the end of the line. That the rows since the prompt
spell the whole line (`Whole`) holds only until an erasure goes back over
the end of the prompt's row (`Overrun`), because the terminal has no way
back to a row it has left. For the same reason what stood on the terminal
when the prompt had been printed is never touched (`Stays`).
-/

namespace ProtoOs.Lib

structure Editor (α : Type) where
  term : Terminal α
  line : List α
  /-- Rows started since the prompt. -/
  scrolled : Nat

/-- A key, as the editor sees it. -/
inductive Key (α : Type) where
  | char (x : α)
  | erase
  | other

namespace Editor

variable {α : Type}

/-- A prompt on a row of its own and nothing typed. -/
def start (t : Terminal α) (p : List α) : Editor α := ⟨{ t with last := p }, [], 0⟩

def type (width cap : Nat) (e : Editor α) (x : α) : Editor α :=
  if e.line.length < cap then
    ⟨e.term.put width x, e.line ++ [x],
      if e.term.last.length = width then e.scrolled + 1 else e.scrolled⟩
  else e

def erase (e : Editor α) : Editor α :=
  if e.line = [] then e else ⟨e.term.erase, e.line.dropLast, e.scrolled⟩

def key (width cap : Nat) (e : Editor α) : Key α → Editor α
  | .char x => e.type width cap x
  | .erase => e.erase
  | .other => e

def keys (width cap : Nat) (e : Editor α) (ks : List (Key α)) : Editor α :=
  ks.foldl (key width cap) e

variable {width cap : Nat} {p : List α} {e : Editor α}

theorem keys_snoc (ks : List (Key α)) (k : Key α) :
    e.keys width cap (ks ++ [k]) = (e.keys width cap ks).key width cap k := by
  simp [keys]

/-! ## The end of the row is the end of the line -/

def Aligned (p : List α) (e : Editor α) : Prop :=
  e.term.last = p ++ e.line ∨ e.term.last <:+ e.line

theorem start_aligned (t : Terminal α) : (start t p).Aligned p := .inl (by simp [start])

theorem Aligned.type (h : e.Aligned p) (x : α) : (e.type width cap x).Aligned p := by
  unfold Editor.type
  split
  · by_cases hfull : e.term.last.length = width
    · -- The echo starts a row.
      right
      simp only [Terminal.put_of_full hfull]
      exact List.suffix_append _ _
    · simp only [Terminal.put, hfull, if_false]
      rcases h with h | h
      · left
        simp [h]
      · right
        obtain ⟨r, hr⟩ := h
        exact ⟨r, by simp [← hr]⟩
  · exact h

theorem Aligned.erase (h : e.Aligned p) : e.erase.Aligned p := by
  unfold Editor.erase
  split <;> rename_i hl
  · exact h
  · rcases h with h | h
    · left
      simp only [Terminal.erase, h]
      exact List.dropLast_append_of_ne_nil hl
    · right
      obtain ⟨r, hr⟩ := h
      by_cases hlast : e.term.last = []
      · simp [Terminal.erase, hlast]
      · exact ⟨r, by rw [← hr, List.dropLast_append_of_ne_nil hlast]; rfl⟩

theorem Aligned.key (h : e.Aligned p) (k : Key α) : (e.key width cap k).Aligned p := by
  cases k with
  | char x => exact h.type x
  | erase => exact h.erase
  | other => exact h

theorem Aligned.keys (h : e.Aligned p) (ks : List (Key α)) :
    (e.keys width cap ks).Aligned p := by
  induction ks using List.reverseRecOn with
  | nil => exact h
  | append_singleton ks k ih =>
      rw [keys_snoc]
      exact ih.key k

/-- What an erasure takes from a row that is not empty is what it takes from
the line. -/
theorem Aligned.last_eq (h : e.Aligned p) {s : List α} {x : α} (hs : e.line = s ++ [x])
    (hlast : e.term.last ≠ []) : ∃ r, e.term.last = r ++ [x] := by
  rcases h with h | ⟨r, hr⟩
  · exact ⟨p ++ s, by rw [h, hs, List.append_assoc]⟩
  · obtain ⟨q, y, hq⟩ := (List.eq_nil_or_concat e.term.last).resolve_left hlast
    rw [List.concat_eq_append] at hq
    rw [hq, hs, ← List.append_assoc] at hr
    obtain ⟨_, hxy⟩ := List.append_inj' hr rfl
    obtain rfl := List.singleton_inj.mp hxy
    exact ⟨q, hq⟩

/-! ## What stood on the terminal stays -/

/-- `t₀` is the terminal with the prompt just printed. As long as no row has
been started its last row goes on with the line; then it is left behind, and
the rows after it are the line's own. -/
inductive Stays (t₀ : Terminal α) (e : Editor α) : Prop
  | first (hn : e.scrolled = 0) (habove : e.term.above = t₀.above)
      (hlast : e.term.last = t₀.last ++ e.line)
  | later (s : List α) (rest : List (List α)) (hn : e.scrolled = rest.length + 1)
      (habove : e.term.above = t₀.above ++ (t₀.last ++ s) :: rest)

variable {t₀ : Terminal α}

theorem start_stays (t : Terminal α) : (start t p).Stays (start t p).term :=
  .first rfl rfl (by simp [start])

theorem Stays.type (h : e.Stays t₀) (x : α) : (e.type width cap x).Stays t₀ := by
  unfold Editor.type
  split
  · by_cases hfull : e.term.last.length = width
    · simp only [if_pos hfull, Terminal.put_of_full hfull]
      cases h with
      | first hn habove hlast =>
          refine .later e.line [] (by simp [hn]) ?_
          simp [Terminal.newLine, Terminal.rows, habove, hlast]
      | later s rest hn habove =>
          refine .later s (rest ++ [e.term.last]) (by simp [hn]) ?_
          simp [Terminal.newLine, Terminal.rows, habove]
    · simp only [if_neg hfull, Terminal.put]
      cases h with
      | first hn habove hlast => exact .first hn habove (by simp [hlast])
      | later s rest hn habove => exact .later s rest hn habove
  · exact h

theorem Stays.erase (h : e.Stays t₀) : e.erase.Stays t₀ := by
  unfold Editor.erase
  split <;> rename_i hl
  · exact h
  · cases h with
    | first hn habove hlast =>
        refine .first hn habove ?_
        simp only [Terminal.erase, hlast]
        exact List.dropLast_append_of_ne_nil hl
    | later s rest hn habove => exact .later s rest hn habove

theorem Stays.key (h : e.Stays t₀) (k : Key α) : (e.key width cap k).Stays t₀ := by
  cases k with
  | char x => exact h.type x
  | erase => exact h.erase
  | other => exact h

theorem Stays.keys (h : e.Stays t₀) (ks : List (Key α)) : (e.keys width cap ks).Stays t₀ := by
  induction ks using List.reverseRecOn with
  | nil => exact h
  | append_singleton ks k ih =>
      rw [keys_snoc]
      exact ih.key k

/-- The rows of `t₀`, the last of them with something after it, and one more
for each row started since. -/
theorem Stays.rows (h : e.Stays t₀) : ∃ s rest, rest.length = e.scrolled ∧
    e.term.rows = t₀.above ++ (t₀.last ++ s) :: rest := by
  cases h with
  | first hn habove hlast => exact ⟨e.line, [], hn.symm, by simp [Terminal.rows, habove, hlast]⟩
  | later s rest hn habove =>
      exact ⟨s, rest ++ [e.term.last], by simp [hn], by simp [Terminal.rows, habove]⟩

/-- A row that was shown then stands higher by the rows started since; only
the last one can go on with something. -/
theorem Stays.row {height i : Nat} (h : e.Stays t₀) (hfull : height ≤ t₀.rows.length)
    (hi : i + e.scrolled < height) : ∃ s, e.term.row height i =
      t₀.row height (i + e.scrolled) ++ s ∧ (i + e.scrolled + 1 < height → s = []) := by
  obtain ⟨s, rest, hrest, hrows⟩ := h.rows
  rw [Terminal.rows_length] at hfull
  rw [Terminal.row_eq, Terminal.row_eq, hrows, Terminal.rows_length, ← hrest]
  have hindex : (t₀.above ++ (t₀.last ++ s) :: rest).length - height + i =
      t₀.above.length + 1 - height + (i + rest.length) := by
    simp only [List.length_append, List.length_cons]
    omega
  rw [hindex, Terminal.rows]
  by_cases hlast : i + rest.length + 1 = height
  · -- The row of the prompt.
    have hat : t₀.above.length + 1 - height + (i + rest.length) = t₀.above.length := by omega
    rw [hat]
    exact ⟨s, by simp, fun hlt => by omega⟩
  · refine ⟨[], ?_, fun _ => rfl⟩
    rw [List.getElem?_append_left (by omega), List.getElem?_append_left (by omega),
      List.append_nil]

/-! ## The rows since the prompt are the line -/

/-- What fits on the prompt's row after it. -/
def firstRow (width : Nat) (p : List α) : Nat := width - p.length

/-- The prompt and the line are on one row, or fill one and go on on the
next. -/
inductive Whole (width : Nat) (p : List α) (e : Editor α) : Prop
  | first (hn : e.scrolled = 0) (hlast : e.term.last = p ++ e.line)
      (hlen : e.line.length ≤ firstRow width p)
  | second (hn : e.scrolled = 1)
      (habove : ∃ above, e.term.above = above ++ [p ++ e.line.take (firstRow width p)])
      (hlast : e.term.last = e.line.drop (firstRow width p))
      (hlen : firstRow width p ≤ e.line.length)

theorem start_whole (t : Terminal α) : (start t p).Whole width p :=
  .first rfl (by simp [start]) (by simp [start])

section Fits

variable (hp : p.length ≤ width) (hcap : cap ≤ firstRow width p + width)

include hp hcap

theorem Whole.type (h : e.Whole width p) (x : α) : (e.type width cap x).Whole width p := by
  unfold Editor.type
  split <;> rename_i hroom
  · cases h with
    | first hn hlast hlen =>
        have hlength : e.term.last.length = p.length + e.line.length := by simp [hlast]
        by_cases hfull : e.term.last.length = width
        · -- The prompt's row is full: the echo starts the second one.
          have hline : e.line.length = firstRow width p := by
            unfold firstRow at hlen ⊢; omega
          refine .second (by simp [hfull, hn]) ⟨e.term.above, ?_⟩ ?_ (by simp [hline])
          · simp only [Terminal.put_of_full hfull, Terminal.newLine, Terminal.rows, hlast]
            rw [List.take_append_of_le_length (Nat.le_of_eq hline.symm),
              List.take_of_length_le (Nat.le_of_eq hline)]
          · simp only [Terminal.put_of_full hfull]
            rw [← hline, List.drop_left]
        · have hlt : e.term.last.length < width := by
            unfold firstRow at hlen; omega
          refine .first (by simp [hfull, hn]) ?_ ?_
          · simp [Terminal.put_of_lt hlt, hlast]
          · unfold firstRow at hlen ⊢
            simp only [List.length_append, List.length_singleton]
            omega
    | second hn habove hlast hlen =>
        have hlt : e.term.last.length < width := by
          rw [hlast, List.length_drop]; omega
        refine .second (by simp [Nat.ne_of_lt hlt, hn]) ?_ ?_ ?_
        · simp only [Terminal.put_of_lt hlt]
          rw [List.take_append_of_le_length hlen]
          exact habove
        · simp only [Terminal.put_of_lt hlt, hlast]
          rw [List.drop_append_of_le_length hlen]
        · simp only [List.length_append]; omega
  · exact h

omit hp hcap in
/-- An erasure that does not go back over the end of the prompt's row. -/
theorem Whole.erase (h : e.Whole width p)
    (hback : ¬(e.scrolled = 1 ∧ e.line.length = firstRow width p)) :
    e.erase.Whole width p := by
  unfold Editor.erase
  split <;> rename_i hl
  · exact h
  · cases h with
    | first hn hlast hlen =>
        refine .first hn ?_ (by simp; omega)
        simp only [Terminal.erase, hlast]
        exact List.dropLast_append_of_ne_nil hl
    | second hn habove hlast hlen =>
        have hlt : firstRow width p < e.line.length := by
          have := fun hne => hback ⟨hn, hne⟩
          omega
        have htake : e.line.dropLast.take (firstRow width p) =
            e.line.take (firstRow width p) := by
          rw [List.dropLast_eq_take, List.take_take, Nat.min_eq_left (by omega)]
        refine .second hn ?_ ?_ (by simp; omega)
        · rw [htake]
          exact habove
        · simp only [Terminal.erase, hlast, List.dropLast_eq_take, List.drop_take,
            List.length_drop]
          congr 1
          omega

theorem Whole.key (h : e.Whole width p) {k : Key α}
    (hback : k = .erase → ¬(e.scrolled = 1 ∧ e.line.length = firstRow width p)) :
    (e.key width cap k).Whole width p := by
  cases k with
  | char x => exact h.type hp hcap x
  | erase => exact h.erase (hback rfl)
  | other => exact h

end Fits

/-! ## Whole runs -/

/-- How long the line is after the keys. -/
def lineLength (cap : Nat) (ks : List (Key α)) : Nat :=
  ks.foldl (fun n k => match k with
    | .char _ => if n < cap then n + 1 else n
    | .erase => n - 1
    | .other => n) 0

/-- An erasure meets a line that ends exactly at the end of the prompt's row
after having been longer. -/
def Overrun (width cap : Nat) (p : List α) (ks : List (Key α)) : Prop :=
  ∃ pre, pre ++ [.erase] <+: ks ∧ lineLength cap pre = firstRow width p ∧
    ∃ q, q <+: pre ∧ firstRow width p < lineLength cap q

theorem keys_line_length (width cap : Nat) (p : List α) (t : Terminal α)
    (ks : List (Key α)) :
    ((start t p).keys width cap ks).line.length = lineLength cap ks := by
  induction ks using List.reverseRecOn with
  | nil => rfl
  | append_singleton ks k ih =>
      rw [keys_snoc]
      unfold lineLength at ih ⊢
      rw [List.foldl_append, List.foldl_cons, List.foldl_nil, ← ih]
      cases k with
      | char x =>
          simp only [Editor.key, Editor.type]
          split <;> simp
      | erase =>
          simp only [Editor.key, Editor.erase]
          split <;> rename_i hl
          · simp [hl]
          · simp
      | other => rfl

theorem Overrun.append {ks : List (Key α)} (h : Overrun width cap p ks) (k : Key α) :
    Overrun width cap p (ks ++ [k]) := by
  obtain ⟨pre, hpre, hrest⟩ := h
  exact ⟨pre, hpre.trans (List.prefix_append _ _), hrest⟩

theorem prefix_snoc_iff {β : Type} {q ks : List β} {k : β} :
    q <+: ks ++ [k] ↔ q <+: ks ∨ q = ks ++ [k] := by
  rw [List.prefix_concat_iff]
  tauto

/-- The rows since the prompt hold more than the prompt and the line. -/
def Ahead (width : Nat) (p : List α) (e : Editor α) : Prop :=
  p.length + e.line.length < e.scrolled * width + e.term.last.length

/-- They never get back. -/
theorem Ahead.key (h : e.Ahead width p) (k : Key α) : (e.key width cap k).Ahead width p := by
  unfold Ahead at h ⊢
  cases k with
  | char x =>
      simp only [Editor.key, Editor.type]
      by_cases hroom : e.line.length < cap
      · by_cases hfull : e.term.last.length = width
        · simp only [if_pos hroom, if_pos hfull, Terminal.put_of_full hfull,
            List.length_append, List.length_singleton, Nat.add_mul]
          omega
        · simp only [if_pos hroom, if_neg hfull, Terminal.put, List.length_append,
            List.length_singleton]
          omega
      · rw [if_neg hroom]
        exact h
  | erase =>
      simp only [Editor.key, Editor.erase]
      split <;> rename_i hl
      · exact h
      · have hpos := List.length_pos_iff.mpr hl
        simp only [Terminal.erase, List.length_dropLast]
        omega
  | other => exact h

@[simp] theorem erase_scrolled (e : Editor α) : e.erase.scrolled = e.scrolled := by
  unfold Editor.erase
  split <;> rfl

theorem scrolled_le_key (width cap : Nat) (e : Editor α) (k : Key α) :
    e.scrolled ≤ (e.key width cap k).scrolled := by
  cases k with
  | char x =>
      simp only [Editor.key, Editor.type]
      repeat' split
      all_goals simp
  | erase => simp [Editor.key]
  | other => exact Nat.le_refl _

/-- The key that starts the second row makes the line longer than the
first. -/
theorem Whole.length_of_scroll (h : e.Whole width p) {k : Key α} (hn : e.scrolled ≠ 1)
    (hn' : (e.key width cap k).scrolled = 1) :
    firstRow width p < (e.key width cap k).line.length := by
  cases h with
  | second hn₁ _ _ _ => exact absurd hn₁ hn
  | first hn₀ hlast hlen =>
      cases k with
      | char x =>
          simp only [Editor.key, Editor.type] at hn' ⊢
          split at hn' <;> rename_i hroom
          · rw [if_pos hroom]
            split at hn' <;> rename_i hfull
            · rw [hlast, List.length_append] at hfull
              simp only [List.length_append, List.length_singleton, firstRow]
              omega
            · exact absurd hn' hn
          · exact absurd hn' hn
      | erase =>
          simp only [Editor.key, erase_scrolled] at hn'
          exact absurd hn' hn
      | other => exact absurd hn' hn

section Fits

variable (hp : p.length < width) (hcap : cap ≤ firstRow width p + width)

include hp hcap

/-- Without such an erasure the rows since the prompt are the line, and
there are two of them exactly if the line has once been longer than the
first. -/
theorem whole_of_not_overrun (t : Terminal α) {ks : List (Key α)}
    (h : ¬Overrun width cap p ks) :
    ((start t p).keys width cap ks).Whole width p ∧
      (((start t p).keys width cap ks).scrolled = 1 ↔
        ∃ q, q <+: ks ∧ firstRow width p < lineLength cap q) := by
  induction ks using List.reverseRecOn with
  | nil =>
      refine ⟨start_whole t, ?_⟩
      constructor
      · intro hn
        cases hn
      · rintro ⟨q, hq, hlt⟩
        obtain rfl := List.prefix_nil.mp hq
        exact absurd hlt (Nat.not_lt_zero _)
  | append_singleton ks k ih =>
      have hks : ¬Overrun width cap p ks := fun hk => h (hk.append k)
      obtain ⟨hwhole, hiff⟩ := ih hks
      have hlen := keys_line_length width cap p t ks
      have hlen' := keys_line_length width cap p t (ks ++ [k])
      rw [keys_snoc] at hlen' ⊢
      have hnext := hwhole.key (Nat.le_of_lt hp) hcap (k := k) (by
        rintro rfl ⟨hn, hline⟩
        exact h ⟨ks, List.prefix_refl _, hlen.symm.trans hline, hiff.mp hn⟩)
      refine ⟨hnext, fun hn => ?_, ?_⟩
      · by_cases hone : ((start t p).keys width cap ks).scrolled = 1
        · obtain ⟨q, hq, hlt⟩ := hiff.mp hone
          exact ⟨q, hq.trans (List.prefix_append _ _), hlt⟩
        · exact ⟨_, List.prefix_refl _, hlen' ▸ hwhole.length_of_scroll hone hn⟩
      · rintro ⟨q, hq, hlt⟩
        cases hnext with
        | second hn _ _ _ => exact hn
        | first hn _ hshort =>
            rcases prefix_snoc_iff.mp hq with hq | rfl
            · have hone := hiff.mpr ⟨q, hq, hlt⟩
              have hle := scrolled_le_key width cap ((start t p).keys width cap ks) k
              omega
            · omega

/-- From the first such erasure on they are more than the line. -/
theorem Overrun.ahead (t : Terminal α) {ks : List (Key α)} (h : Overrun width cap p ks) :
    ((start t p).keys width cap ks).Ahead width p := by
  induction ks using List.reverseRecOn with
  | nil =>
      obtain ⟨pre, hpre, _⟩ := h
      simp at hpre
  | append_singleton ks k ih =>
      rw [keys_snoc]
      by_cases hks : Overrun width cap p ks
      · exact (ih hks).key k
      · obtain ⟨pre, hpre, hlen, hq⟩ := h
        rcases prefix_snoc_iff.mp hpre with hpre' | heq
        · exact absurd ⟨pre, hpre', hlen, hq⟩ hks
        · -- The first one: the row it finds is empty.
          obtain ⟨rfl, hk⟩ := List.append_inj' heq rfl
          obtain rfl := List.singleton_inj.mp hk
          obtain ⟨hwhole, hiff⟩ := whole_of_not_overrun hp hcap t hks
          have hone := hiff.mpr hq
          have hline := (keys_line_length width cap p t pre).trans hlen
          have hne : ((start t p).keys width cap pre).line ≠ [] := by
            rw [← List.length_pos_iff, hline]
            unfold firstRow
            omega
          unfold Ahead
          simp only [Editor.key, Editor.erase, if_neg hne, hone, List.length_dropLast, hline]
          unfold firstRow
          omega

end Fits

end Editor

end ProtoOs.Lib
