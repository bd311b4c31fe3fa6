import ProtoOs.Lib.Paging

/-!
# Paths through page tables

A table is reached from the root by a list of indices. In a tree each table
has one path, but nothing in the hardware asks for a tree: two entries may
name one table, and a table may be reached at two levels. What a mapping
walk does to all the other pages therefore depends on the tables on its way
having no path but that one (`Own`).

Given that, both things a walk does are local. A new table is empty when it
is linked, so linking it changes no translation at all; and an entry of a
last-level table is on the way of the addresses of one page.
-/

namespace ProtoOs.Lib.Paging

/-- The indices `is`, from the root down, lead to the table `t`. -/
inductive Path (mem : Mem) (root : Nat) : List Nat → Nat → Prop
  | root : Path mem root [] root
  | step {is : List Nat} {t i f : Nat} (path : Path mem root is t) (short : is.length < 3)
      (bound : i < 512) (link : mem t i = .present f false) : Path mem root (is ++ [i]) f

/-- Each table on the way has no path but its part of the way. -/
def Own (mem : Mem) (root : Nat) (is : List Nat) : Prop :=
  ∀ {n t js}, Path mem root (is.take n) t → Path mem root js t → js = is.take n

/-- The indices of a page from the root to its last-level table. -/
def indices (page : Nat) : List Nat := [index 4 page, index 3 page, index 2 page]

theorem index_lt (level page : Nat) : index level page < 512 := Nat.mod_lt _ (by decide)

theorem indices_length (page : Nat) : (indices page).length = 3 := rfl

theorem indices_take_succ (page : Nat) {n : Nat} (hn : n < 3) :
    (indices page).take (n + 1) = (indices page).take n ++ [index (4 - n) page] := by
  rcases n with - | - | - | n
  · rfl
  · rfl
  · rfl
  · omega

/-- The indices of a page name it. -/
theorem page_eq_of_index {page page' : Nat} (h : page < 2 ^ 36) (h' : page' < 2 ^ 36)
    (hhigh : indices page = indices page') (hlow : index 1 page = index 1 page') :
    page = page' := by
  simp only [indices, List.cons.injEq, and_true] at hhigh
  obtain ⟨h₄, h₃, h₂⟩ := hhigh
  simp only [index, Nat.add_one_sub_one, Nat.sub_self, Nat.reducePow] at h₄ h₃ h₂ hlow
  omega

section Paths

variable {mem mem' : Mem} {root : Nat}

/-- The last step of a path. -/
theorem Path.last {is : List Nat} {i f : Nat} (h : Path mem root (is ++ [i]) f) :
    ∃ t, Path mem root is t ∧ is.length < 3 ∧ mem t i = .present f false := by
  generalize hjs : is ++ [i] = js at h
  cases h with
  | root => simp at hjs
  | step path short _ link =>
      obtain ⟨rfl, hi⟩ := List.append_inj' hjs rfl
      obtain rfl : i = _ := by simpa using hi
      exact ⟨_, path, short, link⟩

/-- Links that stay on the way leave the path. -/
theorem Path.congr {is : List Nat} {t : Nat} (h : Path mem root is t)
    (hsame : ∀ {js u j f}, Path mem root js u → js.length < 3 → mem u j = .present f false →
      mem' u j = .present f false) : Path mem' root is t := by
  induction h with
  | root => exact .root
  | step path hshort hbound link ih => exact ih.step hshort hbound (hsame path hshort link)

/-- The path of a page, one table further. -/
theorem Path.index {page n t f : Nat} (h : Path mem root ((indices page).take n) t) (hn : n < 3)
    (link : mem t (index (4 - n) page) = .present f false) :
    Path mem root ((indices page).take (n + 1)) f := by
  rw [indices_take_succ page hn]
  refine h.step ?_ (index_lt _ _) link
  rw [List.length_take, indices_length]
  omega

theorem Path.index_last {page n f : Nat} (hn : n < 3)
    (h : Path mem root ((indices page).take (n + 1)) f) :
    ∃ t, Path mem root ((indices page).take n) t ∧
      mem t (Paging.index (4 - n) page) = .present f false := by
  rw [indices_take_succ page hn] at h
  obtain ⟨t, hpath, _, link⟩ := h.last
  exact ⟨t, hpath, link⟩

/-- The walk of a page ends where its path does. -/
theorem Path.walk {page t : Nat} (h : Path mem root (indices page) t) :
    walk mem page 3 root = some t := by
  obtain ⟨t₂, h₂, link₂⟩ := Path.index_last (n := 2) (by decide) h
  obtain ⟨t₁, h₁, link₁⟩ := Path.index_last (n := 1) (by decide) h₂
  obtain ⟨t₀, h₀, link₀⟩ := Path.index_last (n := 0) (by decide) h₁
  have hroot : t₀ = root := by
    generalize hnil : (indices page).take 0 = is at h₀
    cases h₀ with
    | root => rfl
    | step => simp at hnil
  rw [hroot] at link₀
  rw [walk_succ link₀, walk_succ link₁, walk_succ link₂]
  rfl

/-! ## A new table -/

section Link

variable {is : List Nat} {n table i frame : Nat} (hown : Own mem root is)
  (hpath : Path mem root (is.take n) table) (hi : mem table i = .unused)
  (hf : ∀ {js}, ¬Path mem root js frame)

include hpath hf

theorem linkTable_entry : linkTable mem table i frame table i = .present frame false := by
  rw [linkTable, zeroTable, Function.update_of_ne fun heq => hf (heq ▸ hpath), setEntry_same]

include hown

/-- The paths there are after the link: those there were and the new one. -/
theorem linkTable_path {js : List Nat} {t : Nat}
    (h : Path (linkTable mem table i frame) root js t) :
    Path mem root js t ∨ (js = is.take n ++ [i] ∧ t = frame) := by
  induction h with
  | root => exact .inl .root
  | @step js u j g _ hlen hbound link ih =>
      rcases ih with hold | ⟨_, rfl⟩
      · have huf : u ≠ frame := fun heq => hf (heq ▸ hold)
        by_cases hhere : u = table ∧ j = i
        · obtain ⟨rfl, rfl⟩ := hhere
          rw [linkTable_entry hpath hf] at link
          simp only [Entry.present.injEq, and_true] at link
          exact .inr ⟨by rw [hown hpath hold], link.symm⟩
        · rw [linkTable_other huf hhere] at link
          exact .inl (hold.step hlen hbound link)
      · rw [linkTable, zeroTable_same] at link
        cases link

theorem linkTable_own : Own (linkTable mem table i frame) root is := by
  intro m t js h h'
  rcases linkTable_path hown hpath hf h with hold | ⟨heq, rfl⟩
  · rcases linkTable_path hown hpath hf h' with hold' | ⟨_, rfl⟩
    · exact hown hold hold'
    · exact absurd hold hf
  · rcases linkTable_path hown hpath hf h' with hold' | ⟨heq', _⟩
    · exact absurd hold' hf
    · rw [heq, heq']

include hi

omit hown in
theorem linkTable_path_kept {js : List Nat} {t : Nat} (h : Path mem root js t) :
    Path (linkTable mem table i frame) root js t := by
  refine h.congr fun {js u j f} hpath _ link => ?_
  rw [linkTable_other (fun heq => hf (heq ▸ hpath)), link]
  rintro ⟨rfl, rfl⟩
  rw [hi] at link
  cases link

/-- No address notices an empty table. -/
theorem linkTable_resolve (hn : n < 3) (his : is.length = 3) (addr : Nat) :
    ∀ {level : Nat} {js : List Nat} {t : Nat}, Path mem root js t → js.length + level = 4 →
      resolve (linkTable mem table i frame) level t addr = resolve mem level t addr := by
  intro level
  induction level with
  | zero => intro js t _ _; rfl
  | succ level ih =>
      intro js t ht hlen
      have htf : t ≠ frame := fun heq => hf (heq ▸ ht)
      by_cases hhere : t = table ∧ index (level + 1) (addr / pageSize) = i
      · obtain ⟨rfl, rfl⟩ := hhere
        -- The new link is above the last level, and leads to the empty table.
        have hjs : js.length = n := by
          rw [hown hpath ht, List.length_take]
          omega
        obtain ⟨level, rfl⟩ : ∃ l, level = l + 1 := ⟨level - 1, by omega⟩
        unfold resolve
        rw [linkTable_entry hpath hf, hi]
        simp only [Nat.succ_ne_zero, Bool.false_eq_true, false_and, or_self, if_false]
        unfold resolve
        rw [linkTable, zeroTable_same]
      · unfold resolve
        rw [linkTable_other htf hhere]
        cases hent : mem t (index (level + 1) (addr / pageSize)) with
        | unused => rfl
        | present f huge =>
            simp only
            split
            · rfl
            · rename_i hstop
              split
              · rfl
              · rename_i hhuge
                obtain rfl : huge = false := by simpa using hhuge
                refine ih (ht.step ?_ (index_lt _ _) hent) ?_
                · omega
                · rw [List.length_append, List.length_singleton]
                  omega

end Link

/-! ## An entry of a last-level table -/

section Set

variable {page table : Nat} {e : Entry} (hown : Own mem root (indices page))
  (hpath : Path mem root (indices page) table)

include hown hpath

theorem Own.last {js : List Nat} (h : Path mem root js table) : js = indices page :=
  hown (n := 3) hpath h

theorem setEntry_links {js : List Nat} {u j i : Nat} (hu : Path mem root js u)
    (hlen : js.length < 3) : setEntry mem table i e u j = mem u j := by
  refine setEntry_other _ fun hhere => ?_
  have hjs := congrArg List.length (hown.last hpath (hhere.1 ▸ hu))
  rw [indices_length] at hjs
  omega

/-- No path goes through such an entry. -/
theorem setEntry_path {i : Nat} {js : List Nat} {t : Nat} :
    Path (setEntry mem table i e) root js t ↔ Path mem root js t := by
  constructor
  · intro h
    induction h with
    | root => exact .root
    | step _ hlen hbound link ih =>
        rw [setEntry_links hown hpath ih hlen] at link
        exact ih.step hlen hbound link
  · intro h
    refine h.congr fun hu hlen link => ?_
    rw [setEntry_links hown hpath hu hlen, link]

theorem setEntry_own {i : Nat} : Own (setEntry mem table i e) root (indices page) :=
  fun h h' => hown ((setEntry_path hown hpath).mp h) ((setEntry_path hown hpath).mp h')

/-- The addresses of the other pages do not notice it. -/
theorem setEntry_resolve {addr : Nat}
    (hne : ¬(indices (addr / pageSize) = indices page ∧
      index 1 (addr / pageSize) = index 1 page)) :
    ∀ {level n t : Nat}, Path mem root ((indices (addr / pageSize)).take n) t → n + level = 4 →
      resolve (setEntry mem table (index 1 page) e) level t addr = resolve mem level t addr := by
  intro level
  induction level with
  | zero => intro n t _ _; rfl
  | succ level ih =>
      intro n t ht hlen
      have hsame : setEntry mem table (index 1 page) e t (index (level + 1) (addr / pageSize)) =
          mem t (index (level + 1) (addr / pageSize)) := by
        refine setEntry_other _ fun hhere => ?_
        have hjs := hown.last hpath (hhere.1 ▸ ht)
        have hn := congrArg List.length hjs
        rw [List.length_take, indices_length, indices_length] at hn
        obtain rfl : level = 0 := by omega
        obtain rfl : n = 3 := by omega
        exact hne ⟨hjs, hhere.2⟩
      unfold resolve
      rw [hsame]
      cases hent : mem t (index (level + 1) (addr / pageSize)) with
      | unused => rfl
      | present f huge =>
          simp only
          split
          · rfl
          · rename_i hstop
            split
            · rfl
            · rename_i hhuge
              obtain rfl : huge = false := by simpa using hhuge
              refine ih (ht.index (by omega) ?_) (by omega)
              rw [show 4 - n = level + 1 by omega]
              exact hent

end Set

/-! ## A walk -/

/-- What a walk for `is` leaves of the tables: its own way stays its own, no
path is lost, and a table is a table there was or a frame it drew. -/
structure Extends (root : Nat) (is : List Nat) (mem mem' : Mem) (ds : List Nat) : Prop where
  own : Own mem' root is
  kept : ∀ {js t}, Path mem root js t → Path mem' root js t
  tables : ∀ {js t}, Path mem' root js t → Path mem root js t ∨ t ∈ ds

theorem Extends.refl {is : List Nat} (h : Own mem root is) : Extends root is mem mem [] :=
  ⟨h, fun h => h, fun h => .inl h⟩

theorem Extends.trans {mem'' : Mem} {is ds ds' : List Nat} (h : Extends root is mem mem' ds)
    (h' : Extends root is mem' mem'' ds') : Extends root is mem mem'' (ds ++ ds') where
  own := h'.own
  kept hp := h'.kept (h.kept hp)
  tables hp := by
    rcases h'.tables hp with hp | hmem
    · exact (h.tables hp).imp_right fun hmem => List.mem_append_left _ hmem
    · exact .inr (List.mem_append_right _ hmem)

section Walk

variable {A : Type} {src : FrameSource A} {page : Nat}

/-- The tables a walk makes change no translation, whether it gets to its
end or not. -/
theorem createTables_extends : ∀ {level n table : Nat} {mem : Mem} {a : A} {w : Walk A Nat},
    n + level = 3 → Own mem root (indices page) →
    Path mem root ((indices page).take n) table →
    createTables src page level table mem a = some w →
    (∀ f ∈ w.tables, ∀ {js}, ¬Path mem root js f) → w.tables.Nodup →
    Extends root (indices page) mem w.mem w.tables ∧
      (∀ addr, translate w.mem root addr = translate mem root addr) ∧
      ∀ t, w.result = .ok t → Path w.mem root (indices page) t := by
  intro level
  induction level with
  | zero =>
      intro n table mem a w hn hown hpath h _ _
      obtain rfl := Option.some.inj h
      refine ⟨.refl hown, fun _ => rfl, fun t heq => ?_⟩
      obtain rfl := Except.ok.inj heq
      obtain rfl : n = 3 := hn
      exact hpath
  | succ level ih =>
      intro n table mem a w hn hown hpath h hnew hnd
      have hidx : level + 2 = 4 - n := by omega
      unfold createTables at h
      split at h <;> rename_i he
      · exact ih (by omega) hown (hpath.index (by omega) (hidx ▸ he)) h hnew hnd
      · obtain rfl := Option.some.inj h
        exact ⟨.refl hown, fun _ => rfl, by rintro t ⟨⟩⟩
      · split at h
        · cases h
        · obtain rfl := Option.some.inj h
          exact ⟨.refl hown, fun _ => rfl, by rintro t ⟨⟩⟩
        · rename_i frame a' _
          obtain ⟨w', hw', rfl⟩ := Option.map_eq_some_iff.mp h
          have hf : ∀ {js}, ¬Path mem root js frame := hnew frame (by simp)
          have hlink : Extends root (indices page) mem
              (linkTable mem table (index (level + 2) page) frame) [frame] :=
            ⟨linkTable_own hown hpath hf, linkTable_path_kept hpath he hf,
              fun hp => (linkTable_path hown hpath hf hp).imp_right fun hnew => by simp [hnew.2]⟩
          -- The frames still to be drawn are new in the memory with the link.
          have hnew' : ∀ f ∈ w'.tables, ∀ {js},
              ¬Path (linkTable mem table (index (level + 2) page) frame) root js f := by
            intro f hmem js hp
            rcases hlink.tables hp with hold | hsame
            · exact hnew f (by simp [hmem]) hold
            · obtain rfl : f = frame := by simpa using hsame
              exact (List.nodup_cons.mp hnd).1 hmem
          have hnext := (hlink.kept hpath).index (f := frame) (by omega)
            (by rw [← hidx]; exact linkTable_entry hpath hf)
          obtain ⟨hext, htrans, hok⟩ := ih (by omega) hlink.own hnext hw' hnew'
            (List.nodup_cons.mp hnd).2
          refine ⟨hlink.trans hext, fun addr => ?_, hok⟩
          rw [htrans]
          exact linkTable_resolve hown hpath he hf (by omega) (indices_length page) addr .root rfl

/-- A whole call: one page more, or nothing. -/
theorem mapTo_extends {frame : Nat} {a : A} {w : Walk A Unit} (hown : Own mem root (indices page))
    (h : mapTo src root page frame mem a = some w)
    (hnew : ∀ f ∈ w.tables, ∀ {js}, ¬Path mem root js f) (hnd : w.tables.Nodup) :
    Extends root (indices page) mem w.mem w.tables ∧
      (∀ e, w.result = .error e → ∀ addr, translate w.mem root addr = translate mem root addr) ∧
      (w.result = .ok () → (∃ t, Path w.mem root (indices page) t) ∧
        (∀ {addr}, addr / pageSize = page →
          translate w.mem root addr = some (frame * pageSize + addr % pageSize)) ∧
        (page < 2 ^ 36 → ∀ {addr}, addr / pageSize < 2 ^ 36 → addr / pageSize ≠ page →
          translate w.mem root addr = translate mem root addr)) := by
  obtain ⟨w', hw', rfl⟩ := Option.map_eq_some_iff.mp h
  have hextends := createTables_extends (n := 0) rfl hown .root hw'
  split at hnew <;> rename_i hres
  · simp only [hres] at hnd ⊢
    obtain ⟨hext, htrans, _⟩ := hextends hnew hnd
    exact ⟨hext, fun _ _ => htrans, by rintro ⟨⟩⟩
  · rename_i table
    simp only [hres] at hnd ⊢
    split at hnew <;> rename_i he
    · simp only [he] at hnd ⊢
      obtain ⟨hext, htrans, _⟩ := hextends hnew hnd
      exact ⟨hext, fun _ _ => htrans, by rintro ⟨⟩⟩
    · simp only [he] at hnd ⊢
      obtain ⟨hext, htrans, hok⟩ := hextends hnew hnd
      have hpath := hok table hres
      have hpath' := (setEntry_path (e := .present frame false) (i := index 1 page) hext.own
        hpath).mpr hpath
      refine ⟨⟨setEntry_own hext.own hpath,
        fun hp => (setEntry_path hext.own hpath).mpr (hext.kept hp),
        fun hp => hext.tables ((setEntry_path hext.own hpath).mp hp)⟩, (by rintro e ⟨⟩),
        fun _ => ⟨⟨table, hpath'⟩, fun {addr} hp => ?_, fun hlt {addr} hlt' hne => ?_⟩⟩
      · exact resolve_of_walk hp (setEntry_same _ _ _ _) hpath'.walk
      · rw [← htrans addr]
        refine setEntry_resolve hext.own hpath (fun hsame => hne ?_) (n := 0) .root rfl
        exact page_eq_of_index hlt' hlt hsame.1 hsame.2

end Walk

end Paths

end ProtoOs.Lib.Paging
