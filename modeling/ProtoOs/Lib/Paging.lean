import Mathlib.Algebra.Group.Nat.Defs
import Mathlib.Data.List.Basic
import Mathlib.Logic.Function.Basic

/-!
# Four-level page tables

The page tables of a 64-bit PC, as a mapper that sees all of physical
memory reads and writes them: every frame is 512 entries, an entry is
unused or points at a frame, and an address is resolved by four indices
from the root down. Two of the levels may stop early at a huge page.

`mapTo` is the documented walk of such a mapper: it draws, links and zeroes
a frame for each table that is missing on the way and then sets the last
entry, which must be unused. A call that fails keeps the tables it already
made. The frames it drew are part of its answer, so that a client can say
which they were.

The section on growth is about what such a walk leaves alone: entries that
are in use, hence every translation there was, as long as the frames it
draws are not themselves tables.
-/

namespace ProtoOs.Lib.Paging

inductive Entry where
  | unused
  | present (frame : Nat) (huge : Bool)
  deriving DecidableEq, Repr

/-- Physical memory, each frame read as a table. -/
abbrev Mem := Nat → Nat → Entry

abbrev pageSize : Nat := 4096

/-! ## Pages and their indices -/

/-- The index into a table of level `level` (4 is the root) of a page. -/
def index (level page : Nat) : Nat := page / 512 ^ (level - 1) % 512

/-! ## Translation -/

/-- Where a virtual address leads, from a table of level `level` down. An
entry that stops early covers the pages all deeper indices name, from the
first frame of a group of that size on: what a misaligned entry has over is
not looked at. The last level has no huge pages, and neither has the root:
the processor knows of none there, and a mapper that finds one panics. -/
def resolve (mem : Mem) : Nat → Nat → Nat → Option Nat
  | 0, _, _ => none
  | level + 1, table, addr =>
      match mem table (index (level + 1) (addr / pageSize)) with
      | .unused => none
      | .present frame huge =>
          if level = 0 ∨ (huge = true ∧ level < 3) then
            some (frame / 512 ^ level * 512 ^ level * pageSize +
              addr % (pageSize * 512 ^ level))
          else if huge then none
          else resolve mem level frame addr

def translate (mem : Mem) (root addr : Nat) : Option Nat :=
  resolve mem 4 root addr

/-! ## The mapper -/

inductive MapToError where
  | frameAllocationFailed
  | parentEntryHugePage
  | pageAlreadyMapped (frame : Nat)
  deriving DecidableEq, Repr

/-- A source of frames with state `A`. The outer `none` is a panic of the
source, the inner one its being exhausted. -/
abbrev FrameSource (A : Type) := A → Option (Option Nat × A)

def setEntry (mem : Mem) (table i : Nat) (e : Entry) : Mem :=
  Function.update mem table (Function.update (mem table) i e)

def zeroTable (mem : Mem) (table : Nat) : Mem :=
  Function.update mem table fun _ => .unused

/-- What a walk leaves: its answer, the memory, the source, and the frames
it turned into tables, in order. -/
structure Walk (A ρ : Type) where
  result : Except MapToError ρ
  mem : Mem
  source : A
  tables : List Nat

section Mapper

variable {A : Type} (allocateFrame : FrameSource A)

/-- The last-level table the indices of `page` lead to, `level` levels below
`table`, with the tables that are missing on the way made. -/
def createTables (page : Nat) : Nat → Nat → Mem → A → Option (Walk A Nat)
  | 0, table, mem, a => some ⟨.ok table, mem, a, []⟩
  | level + 1, table, mem, a =>
      match mem table (index (level + 2) page) with
      | .present frame false => createTables page level frame mem a
      | .present _ true => some ⟨.error .parentEntryHugePage, mem, a, []⟩
      | .unused =>
          match allocateFrame a with
          | none => none
          | some (none, a) => some ⟨.error .frameAllocationFailed, mem, a, []⟩
          | some (some frame, a) =>
              -- Linked first, then zeroed through the link.
              let mem := setEntry mem table (index (level + 2) page)
                (.present frame false)
              (createTables page level frame (zeroTable mem frame) a).map
                fun w => { w with tables := frame :: w.tables }

/-- Map `page` to `frame`, from the root table. -/
def mapTo (root page frame : Nat) (mem : Mem) (a : A) :
    Option (Walk A Unit) :=
  (createTables allocateFrame page 3 root mem a).map fun w =>
    match w.result with
    | .error e => ⟨.error e, w.mem, w.source, w.tables⟩
    | .ok table =>
        match w.mem table (index 1 page) with
        | .present _ _ =>
            ⟨.error (.pageAlreadyMapped frame), w.mem, w.source, w.tables⟩
        | .unused =>
            ⟨.ok (), setEntry w.mem table (index 1 page) (.present frame false),
              w.source, w.tables⟩

end Mapper

/-! ## Tables -/

/-- The frame is a table of level `level` under `root`. Only the levels over
the last one have tables under them. -/
inductive TableAt (mem : Mem) (root : Nat) : Nat → Nat → Prop
  | root : TableAt mem root 4 root
  | child {level table i frame : Nat} (parent : TableAt mem root (level + 2) table)
      (link : mem table i = .present frame false) : TableAt mem root (level + 1) frame

/-- A frame is a table of one level. -/
def SingleLevel (mem : Mem) (root : Nat) : Prop :=
  ∀ {l l' f : Nat}, TableAt mem root l f → TableAt mem root l' f → l = l'

/-! ## Growth -/

/-- What a walk leaves alone, and the only tables it adds. -/
structure Grown (root : Nat) (mem mem' : Mem) (ds : List Nat) : Prop where
  kept : ∀ {l t i}, TableAt mem root l t → mem t i ≠ .unused → mem' t i = mem t i
  tables : ∀ {l f}, TableAt mem' root l f → TableAt mem root l f ∨ f ∈ ds
  single : SingleLevel mem' root

section Growth

variable {root : Nat} {mem mem₁ mem₂ : Mem} {ds ds' : List Nat}

theorem Grown.refl (h : SingleLevel mem root) : Grown root mem mem [] :=
  ⟨fun _ _ => rfl, fun h => .inl h, h⟩

theorem Grown.tableAt (h : Grown root mem mem₁ ds) {l f : Nat} (ht : TableAt mem root l f) :
    TableAt mem₁ root l f := by
  induction ht with
  | root => exact .root
  | @child l t i g parent link ih =>
      have hkept := h.kept (i := i) parent (by simp [link])
      exact ih.child (hkept.trans link)

theorem Grown.trans (h : Grown root mem mem₁ ds) (h' : Grown root mem₁ mem₂ ds') :
    Grown root mem mem₂ (ds ++ ds') where
  kept ht hne := by
    have hkept := h.kept ht hne
    rw [h'.kept (h.tableAt ht) (by rw [hkept]; exact hne), hkept]
  tables ht := by
    rcases h'.tables ht with ht | hmem
    · rcases h.tables ht with ht | hmem
      · exact .inl ht
      · exact .inr (List.mem_append_left _ hmem)
    · exact .inr (List.mem_append_right _ hmem)
  single := h'.single

theorem setEntry_same (mem : Mem) (table i : Nat) (e : Entry) :
    setEntry mem table i e table i = e := by
  simp [setEntry]

theorem zeroTable_same (mem : Mem) (table i : Nat) : zeroTable mem table table i = .unused := by
  rw [zeroTable, Function.update_self]

theorem setEntry_other {table i t j : Nat} (e : Entry) (h : ¬(t = table ∧ j = i)) :
    setEntry mem table i e t j = mem t j := by
  unfold setEntry
  by_cases ht : t = table
  · subst ht
    rw [Function.update_self, Function.update_of_ne fun hj => h ⟨rfl, hj⟩]
  · rw [Function.update_of_ne ht]

/-- A zeroed frame linked into an entry. -/
def linkTable (mem : Mem) (table i frame : Nat) : Mem :=
  zeroTable (setEntry mem table i (.present frame false)) frame

theorem linkTable_other {table i frame t j : Nat} (ht : t ≠ frame)
    (h : ¬(t = table ∧ j = i)) : linkTable mem table i frame t j = mem t j := by
  rw [linkTable, zeroTable, Function.update_of_ne ht, setEntry_other _ h]

section Link

variable {level table i frame : Nat} (hs : SingleLevel mem root)
  (ht : TableAt mem root (level + 2) table) (hi : mem table i = .unused)
  (hf : ∀ l, ¬TableAt mem root l frame)

include ht hf

theorem linkTable_link : linkTable mem table i frame table i = .present frame false := by
  rw [linkTable, zeroTable, Function.update_of_ne fun heq => hf _ (heq ▸ ht), setEntry_same]

include hs

/-- The new frame is the only new table, of the level under the one it was
linked into. -/
theorem linkTable_tables {l f : Nat} (h : TableAt (linkTable mem table i frame) root l f) :
    TableAt mem root l f ∨ (f = frame ∧ l = level + 1) := by
  induction h with
  | root => exact .inl .root
  | @child l t j g _ link ih =>
      rcases ih with ih | ⟨rfl, _⟩
      · have htf : t ≠ frame := fun heq => hf _ (heq ▸ ih)
        by_cases hhere : t = table ∧ j = i
        · obtain ⟨rfl, rfl⟩ := hhere
          rw [linkTable_link ht hf] at link
          have hl := hs ih ht
          simp only [Entry.present.injEq] at link
          exact .inr ⟨link.1.symm, by omega⟩
        · rw [linkTable_other htf hhere] at link
          exact .inl (ih.child link)
      · rw [linkTable, zeroTable_same] at link
        cases link

include hi

theorem linkTable_grown : Grown root mem (linkTable mem table i frame) [frame] where
  kept {l t j} htab hne := by
    refine linkTable_other (fun heq => hf _ (heq ▸ htab)) ?_
    rintro ⟨rfl, rfl⟩
    exact hne hi
  tables h := (linkTable_tables hs ht hf h).imp_right fun hnew => by simp [hnew.1]
  single {l l' f} h h' := by
    rcases linkTable_tables hs ht hf h with hold | ⟨heq, hl⟩
    · rcases linkTable_tables hs ht hf h' with hold' | ⟨heq, _⟩
      · exact hs hold hold'
      · exact absurd (heq ▸ hold) (hf l)
    · rcases linkTable_tables hs ht hf h' with hold' | ⟨_, hl'⟩
      · exact absurd (heq ▸ hold') (hf l')
      · rw [hl, hl']

end Link

/-- An unused entry of a last-level table is set: no table is added, whatever
the frame. -/
theorem setEntry_grown {table i : Nat} {e : Entry} (hs : SingleLevel mem root)
    (ht : TableAt mem root 1 table) (hi : mem table i = .unused) :
    Grown root mem (setEntry mem table i e) [] := by
  have htables : ∀ {l f}, TableAt (setEntry mem table i e) root l f → TableAt mem root l f := by
    intro l f h
    induction h with
    | root => exact .root
    | @child l t j g _ link ih =>
        have hne : t ≠ table := by
          rintro rfl
          have := hs ih ht
          omega
        rw [setEntry_other _ fun hn => hne hn.1] at link
        exact ih.child link
  refine ⟨fun {l t j} _ hne => setEntry_other _ ?_, fun h => .inl (htables h),
    fun h h' => hs (htables h) (htables h')⟩
  rintro ⟨rfl, rfl⟩
  exact hne hi

/-- A walk changes no translation there was. -/
theorem Grown.resolve (h : Grown root mem mem₁ ds) {addr phys : Nat} :
    ∀ {level table : Nat}, TableAt mem root level table →
      resolve mem level table addr = some phys → resolve mem₁ level table addr = some phys := by
  intro level
  induction level with
  | zero => intro table _ hr; cases hr
  | succ level ih =>
      intro table ht hr
      unfold Paging.resolve at hr ⊢
      split at hr <;> rename_i he
      · cases hr
      · rename_i frame huge
        rw [h.kept ht (by simp [he]), he]
        simp only
        split at hr <;> rename_i hstop
        · rw [if_pos hstop]
          exact hr
        · rw [if_neg hstop]
          split at hr <;> rename_i hhuge
          · cases hr
          · rw [if_neg hhuge]
            simp only [not_or] at hstop
            obtain ⟨level, rfl⟩ := Nat.exists_eq_succ_of_ne_zero hstop.1
            have hfalse : huge = false := by simpa using hhuge
            exact ih (ht.child (hfalse ▸ he)) hr

theorem Grown.translate (h : Grown root mem mem₁ ds) {addr phys : Nat}
    (hr : translate mem root addr = some phys) : translate mem₁ root addr = some phys :=
  h.resolve .root hr

end Growth

/-! ## Walks -/

/-- The last-level table the indices of `page` lead to, `level` levels below
`table`, where all the tables on the way are there. -/
def walk (mem : Mem) (page : Nat) : Nat → Nat → Option Nat
  | 0, table => some table
  | level + 1, table =>
      match mem table (index (level + 2) page) with
      | .present frame false => walk mem page level frame
      | _ => none

/-- How many of the tables on the way are not there. Under a missing table
all are. -/
def missing (mem : Mem) (page : Nat) : Nat → Nat → Nat
  | 0, _ => 0
  | level + 1, table =>
      match mem table (index (level + 2) page) with
      | .present frame false => missing mem page level frame
      | .present _ true => 0
      | .unused => level + 1

/-- No huge page stands on the way. -/
def NoHuge (mem : Mem) (page : Nat) : Nat → Nat → Prop
  | 0, _ => True
  | level + 1, table =>
      match mem table (index (level + 2) page) with
      | .present frame false => NoHuge mem page level frame
      | .present _ true => False
      | .unused => True

section Walks

variable {root page : Nat} {mem mem₁ : Mem} {ds : List Nat}

theorem walk_succ {level table frame : Nat}
    (he : mem table (index (level + 2) page) = .present frame false) :
    walk mem page (level + 1) table = walk mem page level frame := by
  rw [walk, he]

theorem Grown.walk (h : Grown root mem mem₁ ds) {t : Nat} :
    ∀ {level table : Nat}, TableAt mem root (level + 1) table →
      walk mem page level table = some t → walk mem₁ page level table = some t := by
  intro level
  induction level with
  | zero => intro table _ hw; exact hw
  | succ level ih =>
      intro table ht hw
      unfold Paging.walk at hw
      split at hw <;> rename_i he
      · rw [walk_succ ((h.kept ht (by simp [he])).trans he)]
        exact ih (ht.child he) hw
      · cases hw

theorem resolve_of_walk {t frame addr : Nat} (hp : addr / pageSize = page)
    (he : mem t (index 1 page) = .present frame false) :
    ∀ {level table : Nat}, walk mem page level table = some t →
      resolve mem (level + 1) table addr = some (frame * pageSize + addr % pageSize) := by
  intro level
  induction level with
  | zero =>
      intro table hw
      obtain rfl := Option.some.inj hw
      unfold resolve
      rw [hp, he]
      simp
  | succ level ih =>
      intro table hw
      unfold walk at hw
      split at hw <;> rename_i hlink
      · unfold resolve
        rw [hp, hlink]
        simpa using ih hw
      · cases hw

section Mapper

variable {A : Type} {src : FrameSource A} {a : A}

/-- The frames a source hands out between two of its states. -/
inductive Draws (src : FrameSource A) : A → List Nat → A → Prop
  | nil (a : A) : Draws src a [] a
  | dry {a a' : A} (h : src a = some (none, a')) : Draws src a [] a'
  | cons {a a' a'' : A} {f : Nat} {fs : List Nat} (h : src a = some (some f, a'))
      (rest : Draws src a' fs a'') : Draws src a (f :: fs) a''

theorem createTables_draws : ∀ {level table : Nat} {mem : Mem} {a : A} {w : Walk A Nat},
    createTables src page level table mem a = some w → Draws src a w.tables w.source := by
  intro level
  induction level with
  | zero =>
      intro table mem a w h
      obtain rfl := Option.some.inj h
      exact .nil a
  | succ level ih =>
      intro table mem a w h
      unfold createTables at h
      split at h
      · exact ih h
      · obtain rfl := Option.some.inj h
        exact .nil a
      · split at h <;> rename_i hsrc
        · cases h
        · obtain rfl := Option.some.inj h
          exact .dry hsrc
        · obtain ⟨w', hw', rfl⟩ := Option.map_eq_some_iff.mp h
          exact .cons hsrc (ih hw')

/-- The tables a walk makes are drawn frames that were no tables. -/
theorem createTables_grown : ∀ {level table : Nat} {mem : Mem} {a : A} {w : Walk A Nat},
    SingleLevel mem root → TableAt mem root (level + 1) table →
    createTables src page level table mem a = some w →
    (∀ f ∈ w.tables, ∀ l, ¬TableAt mem root l f) → w.tables.Nodup →
    Grown root mem w.mem w.tables ∧
      ∀ t, w.result = .ok t →
        TableAt w.mem root 1 t ∧ Paging.walk w.mem page level table = some t := by
  intro level
  induction level with
  | zero =>
      intro table mem a w hs ht h _ _
      obtain rfl := Option.some.inj h
      refine ⟨.refl hs, fun t heq => ?_⟩
      obtain rfl := Except.ok.inj heq
      exact ⟨ht, rfl⟩
  | succ level ih =>
      intro table mem a w hs ht h hnew hnd
      unfold createTables at h
      split at h <;> rename_i he
      · rename_i frame
        obtain ⟨hg, hok⟩ := ih hs (ht.child he) h hnew hnd
        refine ⟨hg, fun t heq => ⟨(hok t heq).1, ?_⟩⟩
        rw [walk_succ ((hg.kept ht (by simp [he])).trans he)]
        exact (hok t heq).2
      · obtain rfl := Option.some.inj h
        exact ⟨.refl hs, by rintro t ⟨⟩⟩
      · split at h
        · cases h
        · obtain rfl := Option.some.inj h
          exact ⟨.refl hs, by rintro t ⟨⟩⟩
        · rename_i frame a' _
          obtain ⟨w', hw', rfl⟩ := Option.map_eq_some_iff.mp h
          -- The new table first; the rest of the walk starts from the memory
          -- it is linked in, where the frames still to be drawn are new too.
          have hf := hnew frame (by simp)
          have hlink := linkTable_link (i := index (level + 2) page) ht hf
          have hg := linkTable_grown hs ht he hf
          have hnew' : ∀ f ∈ w'.tables, ∀ l,
              ¬TableAt (linkTable mem table (index (level + 2) page) frame) root l f := by
            intro f hmem l htab
            rcases hg.tables htab with hold | hsame
            · exact hnew f (by simp [hmem]) l hold
            · obtain rfl : f = frame := by simpa using hsame
              exact (List.nodup_cons.mp hnd).1 hmem
          obtain ⟨hg', hok⟩ := ih hg.single ((hg.tableAt ht).child hlink) hw' hnew'
            (List.nodup_cons.mp hnd).2
          refine ⟨hg.trans hg', fun t heq => ⟨(hok t heq).1, ?_⟩⟩
          show Paging.walk w'.mem page (level + 1) table = some t
          rw [walk_succ ((hg'.kept (hg.tableAt ht) (by simp [hlink])).trans hlink)]
          exact (hok t heq).2

theorem mapTo_draws {frame : Nat} {w : Walk A Unit}
    (h : mapTo src root page frame mem a = some w) : Draws src a w.tables w.source := by
  obtain ⟨w', hw', rfl⟩ := Option.map_eq_some_iff.mp h
  have hd := createTables_draws hw'
  split
  · exact hd
  · split <;> exact hd

/-- The one rule about a whole call: nothing in use is touched, the new
tables are the drawn frames, and a page it maps translates to the frame. -/
theorem mapTo_grown {frame : Nat} {w : Walk A Unit} (hs : SingleLevel mem root)
    (h : mapTo src root page frame mem a = some w)
    (hnew : ∀ f ∈ w.tables, ∀ l, ¬TableAt mem root l f) (hnd : w.tables.Nodup) :
    Grown root mem w.mem w.tables ∧
      (w.result = .ok () → ∀ {addr}, addr / pageSize = page →
        translate w.mem root addr = some (frame * pageSize + addr % pageSize)) := by
  obtain ⟨w', hw', rfl⟩ := Option.map_eq_some_iff.mp h
  have hgrown := createTables_grown hs .root hw'
  split at hnew <;> rename_i hres
  · simp only [hres] at hnd ⊢
    exact ⟨(hgrown hnew hnd).1, by rintro ⟨⟩⟩
  · rename_i table
    simp only [hres] at hnd ⊢
    split at hnew <;> rename_i he
    · simp only [he] at hnd ⊢
      exact ⟨(hgrown hnew hnd).1, by rintro ⟨⟩⟩
    · simp only [he] at hnd ⊢
      obtain ⟨hg, hok⟩ := hgrown hnew hnd
      obtain ⟨htab, hwalk⟩ := hok table hres
      have hset := setEntry_grown (e := .present frame false) hg.single htab he
      refine ⟨by simpa using hg.trans hset, fun _ {addr} hp => ?_⟩
      exact resolve_of_walk hp (setEntry_same _ _ _ _) (hset.walk (hg.tableAt .root) hwalk)

/-! ### A page that leads somewhere -/

theorem createTables_of_walk {t : Nat} :
    ∀ {level table : Nat}, walk mem page level table = some t →
      createTables src page level table mem a = some ⟨.ok t, mem, a, []⟩ := by
  intro level
  induction level with
  | zero =>
      intro table hw
      obtain rfl := Option.some.inj hw
      rfl
  | succ level ih =>
      intro table hw
      unfold Paging.walk at hw
      split at hw <;> rename_i he
      · unfold createTables
        rw [he]
        exact ih hw
      · cases hw

theorem createTables_of_huge :
    ∀ {level table : Nat}, ¬NoHuge mem page level table →
      createTables src page level table mem a =
        some ⟨.error .parentEntryHugePage, mem, a, []⟩ := by
  intro level
  induction level with
  | zero => intro table h; exact absurd trivial h
  | succ level ih =>
      intro table h
      unfold NoHuge at h
      unfold createTables
      split at h
      · exact ih h
      · rfl
      · exact absurd trivial h

/-- An address that leads somewhere does so through an entry in use at the
end of the walk, or through a huge page. -/
theorem walk_of_resolve {addr : Nat} (hp : addr / pageSize = page) :
    ∀ {level table : Nat}, resolve mem (level + 1) table addr ≠ none →
      (∃ t, walk mem page level table = some t ∧ mem t (index 1 page) ≠ .unused) ∨
        ¬NoHuge mem page level table := by
  intro level
  induction level with
  | zero =>
      intro table hr
      refine .inl ⟨table, rfl, fun hunused => hr ?_⟩
      unfold resolve
      rw [hp, hunused]
  | succ level ih =>
      intro table hr
      unfold resolve at hr
      rw [hp] at hr
      unfold Paging.walk NoHuge
      split at hr <;> rename_i he
      · exact absurd rfl hr
      · rename_i frame huge
        rw [he]
        cases huge with
        | true => exact .inr fun h => h
        | false => exact ih (by simpa using hr)

/-- Where the walk gets to its end, the entry there decides. -/
theorem resolve_eq_none_iff {addr t : Nat} (hp : addr / pageSize = page) :
    ∀ {level table : Nat}, walk mem page level table = some t →
      (resolve mem (level + 1) table addr = none ↔ mem t (index 1 page) = .unused) := by
  intro level
  induction level with
  | zero =>
      intro table hw
      obtain rfl := Option.some.inj hw
      unfold resolve
      rw [hp]
      cases hent : mem table (index 1 page) with
      | unused => simp
      | present f huge => simp
  | succ level ih =>
      intro table hw
      unfold Paging.walk at hw
      split at hw <;> rename_i hlink
      · unfold resolve
        rw [hp, hlink]
        simpa using ih hw
      · cases hw

theorem mapTo_of_walk {t frame : Nat} (hw : walk mem page 3 root = some t)
    (he : mem t (index 1 page) ≠ .unused) :
    mapTo src root page frame mem a = some ⟨.error (.pageAlreadyMapped frame), mem, a, []⟩ := by
  unfold mapTo
  rw [createTables_of_walk hw]
  cases hent : mem t (index 1 page) with
  | unused => exact absurd hent he
  | present _ _ => simp [hent]

theorem mapTo_of_huge {frame : Nat} (h : ¬NoHuge mem page 3 root) :
    mapTo src root page frame mem a = some ⟨.error .parentEntryHugePage, mem, a, []⟩ := by
  unfold mapTo
  rw [createTables_of_huge h]
  rfl

theorem mapTo_of_translate (src : FrameSource A) (a : A) (frame : Nat) {addr : Nat}
    (hp : addr / pageSize = page) (h : translate mem root addr ≠ none) :
    ∃ e, mapTo src root page frame mem a = some ⟨.error e, mem, a, []⟩ := by
  rcases walk_of_resolve hp h with ⟨t, hw, he⟩ | hhuge
  · exact ⟨_, mapTo_of_walk hw he⟩
  · exact ⟨_, mapTo_of_huge hhuge⟩

/-! ### What a walk needs -/

/-- The frames a source can supply, one after the other. -/
inductive Supply (src : FrameSource A) : A → List Nat → A → Prop
  | nil (a : A) : Supply src a [] a
  | cons {a a' a'' : A} {f : Nat} {fs : List Nat} (h : src a = some (some f, a'))
      (rest : Supply src a' fs a'') : Supply src a (f :: fs) a''

theorem Supply.append {a' a'' : A} {ds ds' : List Nat} (h : Supply src a ds a')
    (h' : Supply src a' ds' a'') : Supply src a (ds ++ ds') a'' := by
  induction h with
  | nil => exact h'
  | cons hsrc _ ih => exact .cons hsrc (ih h')

theorem Supply.draws {a' : A} {ds : List Nat} (h : Supply src a ds a') : Draws src a ds a' := by
  induction h with
  | nil a => exact .nil a
  | cons hsrc _ ih => exact .cons hsrc ih

theorem Draws.supply {a' : A} {ds : List Nat} (h : Draws src a ds a') :
    ∃ a'', Supply src a ds a'' := by
  induction h with
  | nil a => exact ⟨a, .nil a⟩
  | @dry a _ _ => exact ⟨a, .nil a⟩
  | cons hsrc _ ih =>
      obtain ⟨a'', hsup⟩ := ih
      exact ⟨a'', .cons hsrc hsup⟩

/-- A supply can be cut anywhere. -/
theorem Supply.split {a'' : A} {ds' : List Nat} :
    ∀ {ds : List Nat} {a : A}, Supply src a (ds ++ ds') a'' →
      ∃ a', Supply src a ds a' ∧ Supply src a' ds' a'' := by
  intro ds
  induction ds with
  | nil => intro a h; exact ⟨a, .nil a, h⟩
  | cons f ds ih =>
      intro a h
      cases h with
      | cons hsrc rest =>
          obtain ⟨a', h, h'⟩ := ih rest
          exact ⟨a', .cons hsrc h, h'⟩

theorem missing_of_walk {t : Nat} :
    ∀ {level table : Nat}, walk mem page level table = some t →
      missing mem page level table = 0 ∧ NoHuge mem page level table := by
  intro level
  induction level with
  | zero => intro table _; exact ⟨rfl, trivial⟩
  | succ level ih =>
      intro table hw
      unfold Paging.walk at hw
      unfold missing NoHuge
      split at hw <;> rename_i he
      · rw [he]
        exact ih hw
      · cases hw

/-- In a table that is empty everything is missing, and nothing is in the
way. -/
theorem missing_of_empty {level table : Nat} (h : ∀ i, mem table i = .unused) :
    missing mem page level table = level ∧ NoHuge mem page level table := by
  cases level with
  | zero => exact ⟨rfl, trivial⟩
  | succ level =>
      unfold missing NoHuge
      rw [h]
      exact ⟨rfl, trivial⟩

/-- A walk that gets to its end has drawn a frame for each missing table. -/
theorem createTables_supply : ∀ {level table : Nat} {mem : Mem} {a : A} {w : Walk A Nat} {t : Nat},
    createTables src page level table mem a = some w → w.result = .ok t →
    Supply src a w.tables w.source ∧ w.tables.length = missing mem page level table := by
  intro level
  induction level with
  | zero =>
      intro table mem a w t h _
      obtain rfl := Option.some.inj h
      exact ⟨.nil a, rfl⟩
  | succ level ih =>
      intro table mem a w t h hok
      unfold createTables at h
      unfold missing
      split at h
      · exact ih h hok
      · obtain rfl := Option.some.inj h
        cases hok
      · split at h <;> rename_i hsrc
        · cases h
        · obtain rfl := Option.some.inj h
          cases hok
        · rename_i frame a'
          obtain ⟨w', hw', rfl⟩ := Option.map_eq_some_iff.mp h
          obtain ⟨hsup, hlen⟩ := ih hw' hok
          refine ⟨.cons hsrc hsup, ?_⟩
          rw [List.length_cons, hlen, (missing_of_empty (zeroTable_same _ _)).1]

/-- A source that can supply them is never found dry. -/
theorem createTables_of_supply :
    ∀ {level table : Nat} {mem : Mem} {a a' : A} {ds : List Nat}, Supply src a ds a' →
      ds.length = missing mem page level table →
      ∃ w, createTables src page level table mem a = some w ∧ w.tables = ds ∧ w.source = a' ∧
        w.result ≠ .error .frameAllocationFailed ∧
        (NoHuge mem page level table → ∃ t, w.result = .ok t) := by
  intro level
  induction level with
  | zero =>
      intro table mem a a' ds hsup hlen
      obtain rfl := List.eq_nil_of_length_eq_zero hlen
      cases hsup with
      | nil => exact ⟨_, rfl, rfl, rfl, by rintro ⟨⟩, fun _ => ⟨_, rfl⟩⟩
  | succ level ih =>
      intro table mem a a' ds hsup hlen
      unfold missing at hlen
      unfold createTables NoHuge
      split at hlen
      · exact ih hsup hlen
      · obtain rfl := List.eq_nil_of_length_eq_zero hlen
        cases hsup with
        | nil => exact ⟨_, rfl, rfl, rfl, by rintro ⟨⟩, by rintro ⟨⟩⟩
      · cases hsup with
        | nil => cases hlen
        | @cons _ a₁ _ f fs hsrc hsup =>
            have hempty := @missing_of_empty page _ level f
              (zeroTable_same (setEntry mem table (index (level + 2) page) (.present f false)) f)
            obtain ⟨w, hw, rfl, rfl, hne, hok⟩ := ih hsup
              (by rw [hempty.1]; exact Nat.succ.inj hlen)
            simp only [hsrc]
            exact ⟨_, Option.map_eq_some_iff.mpr ⟨w, hw, rfl⟩, rfl, rfl, hne,
              fun _ => hok hempty.2⟩

/-- Where the address leads nowhere, the walk ends at an unused entry. -/
theorem createTables_unused {addr : Nat} (hp : addr / pageSize = page) :
    ∀ {level table : Nat} {mem : Mem} {a : A} {w : Walk A Nat} {t : Nat},
      resolve mem (level + 1) table addr = none →
      createTables src page level table mem a = some w → w.result = .ok t →
      w.mem t (index 1 page) = .unused := by
  intro level
  induction level with
  | zero =>
      intro table mem a w t hr h hok
      obtain rfl := Option.some.inj h
      obtain rfl := Except.ok.inj hok
      have hwalk : walk mem page 0 table = some table := rfl
      exact (resolve_eq_none_iff hp hwalk).mp hr
  | succ level ih =>
      intro table mem a w t hr h hok
      unfold createTables at h
      split at h <;> rename_i he
      · refine ih ?_ h hok
        unfold resolve at hr
        rw [hp, he] at hr
        simpa using hr
      · obtain rfl := Option.some.inj h
        cases hok
      · split at h
        · cases h
        · obtain rfl := Option.some.inj h
          cases hok
        · rename_i frame a' _
          obtain ⟨w', hw', rfl⟩ := Option.map_eq_some_iff.mp h
          have hnone : resolve (zeroTable (setEntry mem table (index (level + 2) page)
              (.present frame false)) frame) (level + 1) frame addr = none := by
            unfold resolve
            rw [zeroTable_same]
          exact ih (w := w') hnone hw' hok

/-- With no huge page in the way, only a lack of frames stops a walk. -/
theorem createTables_dry :
    ∀ {level table : Nat} {mem : Mem} {a : A} {w : Walk A Nat} {e : MapToError},
      NoHuge mem page level table → createTables src page level table mem a = some w →
      w.result = .error e → e = .frameAllocationFailed := by
  intro level
  induction level with
  | zero =>
      intro table mem a w e _ h herr
      obtain rfl := Option.some.inj h
      cases herr
  | succ level ih =>
      intro table mem a w e hhuge h herr
      unfold createTables at h
      unfold NoHuge at hhuge
      split at h <;> rename_i he
      · rw [he] at hhuge
        exact ih hhuge h herr
      · rw [he] at hhuge
        exact hhuge.elim
      · split at h
        · cases h
        · obtain rfl := Option.some.inj h
          exact (Except.error.inj herr).symm
        · rename_i frame a' _
          obtain ⟨w', hw', rfl⟩ := Option.map_eq_some_iff.mp h
          exact ih (missing_of_empty (zeroTable_same _ _)).2 hw' herr

/-- Nor anything else, where the page is free. -/
theorem mapTo_dry {frame : Nat} {w : Walk A Unit} {e : MapToError}
    (hnone : translate mem root (page * pageSize) = none) (hhuge : NoHuge mem page 3 root)
    (h : mapTo src root page frame mem a = some w) (herr : w.result = .error e) :
    e = .frameAllocationFailed := by
  obtain ⟨w', hw', rfl⟩ := Option.map_eq_some_iff.mp h
  cases hres : w'.result with
  | error e' =>
      simp only [hres] at herr
      exact Except.error.inj herr ▸ createTables_dry hhuge hw' hres
  | ok t =>
      have hunused := createTables_unused (Nat.mul_div_cancel page (by decide)) hnone hw' hres
      simp only [hres, hunused] at herr
      cases herr

/-- A call with a source that can supply the missing tables. -/
theorem mapTo_of_supply {frame : Nat} {a' : A} {ds : List Nat} (hsup : Supply src a ds a')
    (hlen : ds.length = missing mem page 3 root) :
    ∃ w, mapTo src root page frame mem a = some w ∧ w.tables = ds ∧ w.source = a' ∧
      w.result ≠ .error .frameAllocationFailed ∧
      (NoHuge mem page 3 root → translate mem root (page * pageSize) = none →
        w.result = .ok ()) := by
  obtain ⟨w, hw, rfl, rfl, hne, hok⟩ := createTables_of_supply hsup hlen
  have hunused : ∀ t, translate mem root (page * pageSize) = none → w.result = .ok t →
      w.mem t (index 1 page) = .unused :=
    fun t hr => createTables_unused (Nat.mul_div_cancel page (by decide)) hr hw
  unfold mapTo
  rw [hw]
  cases hres : w.result with
  | error e =>
      rw [hres] at hne hok
      refine ⟨_, rfl, ?_⟩
      simp only [hres]
      refine ⟨trivial, trivial, fun h => hne (by rw [Except.error.inj h]), fun hhuge _ => ?_⟩
      obtain ⟨t, ht⟩ := hok hhuge
      cases ht
  | ok t =>
      refine ⟨_, rfl, ?_⟩
      simp only [hres]
      cases hent : w.mem t (index 1 page) with
      | unused => exact ⟨rfl, rfl, by rintro ⟨⟩, fun _ _ => rfl⟩
      | present f huge =>
          refine ⟨rfl, rfl, by rintro ⟨⟩, fun _ hnone => ?_⟩
          rw [hunused t hnone hres] at hent
          cases hent

theorem mapTo_supply {frame : Nat} {w : Walk A Unit}
    (h : mapTo src root page frame mem a = some w) (hok : w.result = .ok ()) :
    Supply src a w.tables w.source ∧ w.tables.length = missing mem page 3 root := by
  obtain ⟨w', hw', rfl⟩ := Option.map_eq_some_iff.mp h
  cases hres : w'.result with
  | error e => simp only [hres] at hok; cases hok
  | ok t =>
      have hsup := createTables_supply hw' hres
      simp only
      split <;> exact hsup

/-! ## Walks that come to an end -/

/-- A source of which `P n` holds answers the next `n` calls. -/
structure Answers (src : FrameSource A) (P : Nat → A → Prop) : Prop where
  fewer : ∀ {n a}, P (n + 1) a → P n a
  call : ∀ {n a}, P (n + 1) a → ∃ frame a', src a = some (frame, a') ∧ P n a'

variable {P : Nat → A → Prop} {n : Nat}

theorem Answers.of_add (hsrc : Answers src P) {a : A} (k : Nat) (ha : P (n + k) a) : P n a := by
  induction k with
  | zero => exact ha
  | succ k ih => exact ih (hsrc.fewer ha)

/-- A walk makes a call a level at most. -/
theorem createTables_answers (hsrc : Answers src P) :
    ∀ {level table : Nat} {mem : Mem} {a : A}, P (n + level) a →
      ∃ w, createTables src page level table mem a = some w ∧ P n w.source := by
  intro level
  induction level with
  | zero => exact fun ha => ⟨_, rfl, ha⟩
  | succ level ih =>
      intro table mem a ha
      unfold createTables
      split
      · exact ih (hsrc.fewer ha)
      · exact ⟨_, rfl, hsrc.of_add (level + 1) ha⟩
      · obtain ⟨frame, a', hcall, ha'⟩ := hsrc.call ha
        rw [hcall]
        cases frame with
        | none => exact ⟨_, rfl, hsrc.of_add level ha'⟩
        | some frame =>
            obtain ⟨w, hw, hP⟩ := ih ha'
            exact ⟨_, congrArg (Option.map _) hw, hP⟩

theorem mapTo_answers (hsrc : Answers src P) (frame : Nat) (ha : P (n + 3) a) :
    ∃ w, mapTo src root page frame mem a = some w ∧ P n w.source := by
  obtain ⟨w, hw, hP⟩ := createTables_answers hsrc ha
  refine ⟨_, congrArg (Option.map _) hw, ?_⟩
  dsimp only
  split
  · exact hP
  · split <;> exact hP

end Mapper

end Walks

end ProtoOs.Lib.Paging
