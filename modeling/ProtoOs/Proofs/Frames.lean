import ProtoOs.Lib.Trans
import ProtoOs.Proofs.Allocator

/-!
# Which frames are handed out

An allocator keeps a position in the list of usable frames of the boot
memory map and nothing else, and every instance starts at the first one.
The boot allocator of `memory::init` draws the frames under the heap and
under the tables that lead to it, and is dropped; an instance made later
walks the same list again. Its first successful `map_page` therefore maps
the frame under the first page of the heap, on every machine
(`fresh_allocator_maps_heap_frame`).

What the code does give is a discipline on positions: a call whose
allocator stands past everything the others have handed out takes frames
nobody has, and so does a call that fails on a page already mapped, since
it uses none. In a run of such calls the frames in use stay apart, and the
heap keeps its translation. The invariant is that every usable frame that
is a table lies before the position of some allocator; the growth lemmas
of the page-table library do the rest.
-/

namespace ProtoOs.Ref.Frames

open ProtoOs.Lib ProtoOs.Lib.Paging BootInfoFrameAllocator

/-! ## Draws -/

/-- The frames drawn from an allocator are the next ones of the list. -/
theorem draws_spec {a a' : BootInfoFrameAllocator} {ds : List Nat}
    (h : Draws allocateFrame a ds a') :
    a'.memoryMap = a.memoryMap ∧ a.next + ds.length ≤ a'.next ∧
      ds <+: (usableFrameNumbers a.memoryMap).drop a.next := by
  induction h with
  | nil a => exact ⟨rfl, Nat.le_refl _, List.nil_prefix⟩
  | dry h =>
      obtain ⟨rfl, _⟩ := allocateFrame_next h
      exact ⟨rfl, Nat.le_succ _, List.nil_prefix⟩
  | @cons a a' a'' f fs h _ ih =>
      have hf := allocateFrame_frame h
      obtain ⟨rfl, _⟩ := allocateFrame_next h
      obtain ⟨hmap, hnext, hpre⟩ := ih
      refine ⟨hmap, by simp only [List.length_cons] at hnext ⊢; omega, ?_⟩
      obtain ⟨hlt, hget⟩ := List.getElem?_eq_some_iff.mp hf
      rw [List.drop_eq_getElem_cons hlt, hget]
      exact (List.prefix_cons_inj f).mpr hpre

/-! ## One call -/

/-- What a call can come to: no frame to be had, a frame drawn and then lost
to a failing walk, or a page mapped. -/
inductive Drew {A : Type} (src : FrameSource A) (root page : Nat) (mem : Mem) (a : A) :
    MapPage A → Prop
  | dry {a' : A} (draw : src a = some (none, a')) :
      Drew src root page mem a ⟨.error .frameAllocationFailed, mem, a', none, []⟩
  | lost {f : Nat} {a' : A} {w : Walk A Unit} {e : MapToError}
      (draw : src a = some (some f, a')) (walk : mapTo src root page f mem a' = some w)
      (failed : w.result = .error e) :
      Drew src root page mem a ⟨.error e, w.mem, w.source, none, w.tables⟩
  | mapped {f : Nat} {a' : A} {w : Walk A Unit} (draw : src a = some (some f, a'))
      (walk : mapTo src root page f mem a' = some w) (ok : w.result = .ok ()) :
      Drew src root page mem a ⟨.ok (), w.mem, w.source, some f, w.tables⟩

section Call

variable {A : Type} {src : FrameSource A} {root page : Nat} {mem : Mem} {a : A}
  {r : MapPage A}

theorem mapPage_drew (h : mapPage src root page mem a = some r) :
    Drew src root page mem a r := by
  obtain ⟨⟨frame, a'⟩, hsrc, h⟩ := Option.bind_eq_some_iff.mp h
  cases frame with
  | none =>
      obtain rfl := Option.some.inj h
      exact .dry hsrc
  | some frame =>
      obtain ⟨w, hw, h⟩ := Option.bind_eq_some_iff.mp h
      obtain rfl := Option.some.inj h
      cases hres : w.result with
      | ok u => exact .mapped hsrc hw hres
      | error e => exact .lost hsrc hw hres

theorem mapPage_draws (h : mapPage src root page mem a = some r) :
    ∃ ds, Draws src a ds r.allocator ∧ (r.mapped.toList ++ r.tables).Sublist ds := by
  cases mapPage_drew h with
  | dry hsrc => exact ⟨[], .dry hsrc, by simp⟩
  | lost hsrc hw => exact ⟨_, .cons hsrc (mapTo_draws hw), by simp⟩
  | mapped hsrc hw => exact ⟨_, .cons hsrc (mapTo_draws hw), by simp⟩

theorem mapPage_grown (hs : SingleLevel mem root) (h : mapPage src root page mem a = some r)
    (hnew : ∀ f ∈ r.tables, ∀ l, ¬TableAt mem root l f) (hnd : r.tables.Nodup) :
    Grown root mem r.mem r.tables ∧ ∀ {f addr}, r.mapped = some f → addr / pageSize = page →
      translate r.mem root addr = some (f * pageSize + addr % pageSize) := by
  cases mapPage_drew h with
  | dry => exact ⟨.refl hs, by rintro f addr ⟨⟩⟩
  | lost _ hw => exact ⟨(mapTo_grown hs hw hnew hnd).1, by rintro f addr ⟨⟩⟩
  | mapped _ hw hok =>
      obtain ⟨hg, hlands⟩ := mapTo_grown hs hw hnew hnd
      refine ⟨hg, fun {f addr} hf hp => ?_⟩
      obtain rfl := Option.some.inj hf
      exact hlands hok hp

theorem mapPage_ok_mapped (h : mapPage src root page mem a = some r)
    (hok : r.result = .ok ()) : ∃ f a', src a = some (some f, a') ∧ r.mapped = some f := by
  cases mapPage_drew h with
  | dry => cases hok
  | lost => cases hok
  | mapped hsrc => exact ⟨_, _, hsrc, rfl⟩

/-- A call on a page that already leads somewhere fails and uses no frame. -/
theorem mapPage_of_translate {addr : Nat} (hp : addr / pageSize = page)
    (ht : translate mem root addr ≠ none) (h : mapPage src root page mem a = some r) :
    r.mem = mem ∧ r.mapped = none ∧ r.tables = [] := by
  -- The walk is known: it fails where it is and leaves the memory alone.
  have hwalk : ∀ {f : Nat} {a' : A} {w : Walk A Unit}, mapTo src root page f mem a' = some w →
      ∃ e, w = ⟨.error e, mem, a', []⟩ := by
    intro f a' w hw
    obtain ⟨e, he⟩ := mapTo_of_translate src a' f hp ht
    exact ⟨e, Option.some.inj (hw.symm.trans he)⟩
  cases mapPage_drew h with
  | dry => exact ⟨rfl, rfl, rfl⟩
  | lost _ hw =>
      obtain ⟨e, rfl⟩ := hwalk hw
      exact ⟨rfl, rfl, rfl⟩
  | mapped _ hw hok =>
      obtain ⟨e, rfl⟩ := hwalk hw
      cases hok

end Call

/-! ## A call past the tables -/

variable {map : MemoryMap} {root : Nat}

/-- The allocator stands past every usable frame that is a table. -/
structure Past (map : MemoryMap) (root : Nat) (mem : Mem) (a : BootInfoFrameAllocator) :
    Prop where
  single : SingleLevel mem root
  memoryMap : a.memoryMap = map
  tables : ∀ {l f}, TableAt mem root l f → f ∈ usableFrameNumbers map →
    f ∈ (usableFrameNumbers map).take a.next

/-- What a call with such an allocator does: it takes frames from its position
on, each once, and grows the tables by them. -/
structure Took (map : MemoryMap) (root page : Nat) (mem : Mem) (a : BootInfoFrameAllocator)
    (r : MapPage BootInfoFrameAllocator) : Prop where
  past : Past map root r.mem r.allocator
  next : a.next ≤ r.allocator.next
  nodup : (r.mapped.toList ++ r.tables).Nodup
  ahead : ∀ f ∈ r.mapped.toList ++ r.tables, f ∈ (usableFrameNumbers map).drop a.next
  behind : ∀ f ∈ r.mapped.toList ++ r.tables,
    f ∈ (usableFrameNumbers map).take r.allocator.next
  grown : Grown root mem r.mem r.tables
  maps : ∀ {f addr}, r.mapped = some f → addr / pageSize = page →
    translate r.mem root addr = some (f * pageSize + addr % pageSize)

theorem not_mem_take_of_mem_drop {U : List Nat} (hU : U.Nodup) {f n : Nat}
    (h : f ∈ U.drop n) : f ∉ U.take n :=
  fun h' => List.disjoint_take_drop hU (Nat.le_refl n) h' h

theorem Past.mapPage {page : Nat} {mem : Mem} {a : BootInfoFrameAllocator}
    {r : MapPage BootInfoFrameAllocator} (hU : (usableFrameNumbers map).Nodup)
    (hp : Past map root mem a) (h : mapPage allocateFrame root page mem a = some r) :
    Took map root page mem a r := by
  obtain ⟨ds, hdraws, hsub⟩ := mapPage_draws h
  obtain ⟨hmap, hnext, hpre⟩ := draws_spec hdraws
  rw [hp.memoryMap] at hmap hpre
  have hnd : ds.Nodup := (hU.sublist (List.drop_sublist _ _)).sublist hpre.sublist
  have hahead : ∀ f ∈ ds, f ∈ (usableFrameNumbers map).drop a.next := fun f hf => hpre.subset hf
  have hbehind : ∀ f ∈ ds, f ∈ (usableFrameNumbers map).take r.allocator.next := by
    intro f hf
    rw [List.prefix_iff_eq_take.mp hpre, List.take_drop] at hf
    exact List.take_subset_take_left _ hnext (List.mem_of_mem_drop hf)
  have htab : ∀ f ∈ r.tables, f ∈ ds := fun f hf => hsub.subset (by simp [hf])
  have hnew : ∀ f ∈ r.tables, ∀ l, ¬TableAt mem root l f := by
    intro f hf l ht
    have hdrop := hahead f (htab f hf)
    exact not_mem_take_of_mem_drop hU hdrop (hp.tables ht (List.mem_of_mem_drop hdrop))
  obtain ⟨hg, hmaps⟩ := mapPage_grown hp.single h hnew
    ((hnd.sublist hsub).sublist (List.sublist_append_right _ _))
  have hle : a.next ≤ r.allocator.next := by omega
  refine ⟨⟨hg.single, hmap, fun {l f} ht hf => ?_⟩, hle, hnd.sublist hsub,
    fun f hf => hahead f (hsub.subset hf), fun f hf => hbehind f (hsub.subset hf), hg, hmaps⟩
  rcases hg.tables ht with hold | hnew
  · exact (List.take_subset_take_left _ hle) (hp.tables hold hf)
  · exact hbehind f (htab f hnew)

/-! ## The boot -/

/-- The page leads to one frame of the ones `a` has handed out. -/
def Backed (map : MemoryMap) (root : Nat) (mem : Mem) (a : BootInfoFrameAllocator)
    (page : Nat) : Prop :=
  ∃ f ∈ (usableFrameNumbers map).take a.next, ∀ {addr}, addr / pageSize = page →
    translate mem root addr = some (f * pageSize + addr % pageSize)

theorem mapPages_spec (hU : (usableFrameNumbers map).Nodup) :
    ∀ {pages : List Nat} {mem : Mem} {a : BootInfoFrameAllocator}
      {h : InitHeap BootInfoFrameAllocator}, Past map root mem a →
      mapPages allocateFrame root pages mem a = some h → h.result = .ok () →
      Past map root h.mem h.allocator ∧ a.next ≤ h.allocator.next ∧
        (∀ {addr phys}, translate mem root addr = some phys →
          translate h.mem root addr = some phys) ∧
        ∀ page ∈ pages, Backed map root h.mem h.allocator page := by
  intro pages
  induction pages with
  | nil =>
      intro mem a h hp hrun _
      obtain rfl := Option.some.inj hrun
      exact ⟨hp, Nat.le_refl _, fun h => h, by simp⟩
  | cons page pages ih =>
      intro mem a h hp hrun hok
      obtain ⟨r, hr, hrun⟩ := Option.bind_eq_some_iff.mp hrun
      have htook := hp.mapPage hU hr
      split at hrun <;> rename_i hres
      · obtain ⟨f, _, _, hmapped⟩ := mapPage_ok_mapped hr hres
        obtain ⟨hpast, hnext, hkept, hback⟩ := ih htook.past hrun hok
        refine ⟨hpast, Nat.le_trans htook.next hnext,
          fun ht => hkept (htook.grown.translate ht), ?_⟩
        intro page' hmem
        rcases List.mem_cons.mp hmem with rfl | hmem
        · have hf := htook.behind f (by simp [hmapped])
          exact ⟨f, List.take_subset_take_left _ hnext hf,
            fun haddr => hkept (htook.maps hmapped haddr)⟩
        · exact hback page' hmem
      · obtain rfl := Option.some.inj hrun
        cases hok

/-- The tables the kernel is booted with lie outside the usable regions. -/
def TablesOutside (map : MemoryMap) (root : Nat) (mem : Mem) : Prop :=
  ∀ {l f}, TableAt mem root l f → f ∉ usableFrameNumbers map

def InHeap (addr : Nat) : Prop := heapStart ≤ addr ∧ addr < heapStart + heapSize

theorem InHeap.page_mem {addr : Nat} (h : InHeap addr) : addr / pageSize ∈ heapPages := by
  obtain ⟨hlo, hhi⟩ := h
  simp only [heapPages, List.mem_range'_1, heapStart, heapSize, pageSize] at *
  omega

section Boot

variable {mem₀ : Mem} {m : MemoryInit}

theorem memoryInit_eq (h : memoryInit map root mem₀ = some m) :
    ∃ ih, mapPages allocateFrame root heapPages mem₀ (BootInfoFrameAllocator.init map) = some ih ∧
      ih.result = .ok () ∧ m.mem = ih.mem ∧ m.allocator = ih.allocator := by
  obtain ⟨ih, hih, h⟩ := Option.bind_eq_some_iff.mp h
  split at h <;> rename_i hres
  · cases h
  · obtain ⟨total, _, h⟩ := Option.bind_eq_some_iff.mp h
    obtain rfl := Option.some.inj h
    exact ⟨ih, hih, hres, rfl, rfl⟩

theorem past_init (hs : SingleLevel mem₀ root) (hout : TablesOutside map root mem₀) :
    Past map root mem₀ (BootInfoFrameAllocator.init map) :=
  ⟨hs, rfl, fun ht hf => absurd hf (hout ht)⟩

theorem memoryInit_spec (hU : (usableFrameNumbers map).Nodup) (hs : SingleLevel mem₀ root)
    (hout : TablesOutside map root mem₀) (h : memoryInit map root mem₀ = some m) :
    Past map root m.mem m.allocator ∧
      ∀ page ∈ heapPages, Backed map root m.mem m.allocator page := by
  obtain ⟨ih, hrun, hok, hmem, halloc⟩ := memoryInit_eq h
  obtain ⟨hpast, _, _, hback⟩ := mapPages_spec hU (past_init hs hout) hrun hok
  rw [hmem, halloc]
  exact ⟨hpast, hback⟩

/-- A new allocator starts where the boot allocator started, at the frame
under the first page of the heap, and maps that one. -/
theorem fresh_allocator_maps_heap_frame (hU : (usableFrameNumbers map).Nodup)
    (hs : SingleLevel mem₀ root) (hout : TablesOutside map root mem₀)
    (h : memoryInit map root mem₀ = some m) {page : Nat} {mem : Mem}
    {r : MapPage BootInfoFrameAllocator}
    (hr : mapPage allocateFrame root page mem (BootInfoFrameAllocator.init map) = some r)
    (hok : r.result = .ok ()) :
    ∃ f, r.mapped = some f ∧ translateAddr m.mem root heapStart = some (f * pageSize) := by
  obtain ⟨ih, hrun, hbooted, hmem, _⟩ := memoryInit_eq h
  rw [show heapPages = heapStart / pageSize :: heapPages.tail from rfl] at hrun
  obtain ⟨r₀, hr₀, hrun⟩ := Option.bind_eq_some_iff.mp hrun
  have htook := (past_init hs hout).mapPage hU hr₀
  split at hrun <;> rename_i hres
  · obtain ⟨f, a', hf, hmapped⟩ := mapPage_ok_mapped hr₀ hres
    obtain ⟨g, a'', hg, hmapped'⟩ := mapPage_ok_mapped hr hok
    -- Both calls draw from the same position of the same list.
    obtain rfl : f = g := Option.some.inj (Prod.mk.inj (Option.some.inj (hf.symm.trans hg))).1
    obtain ⟨_, _, hkept, _⟩ := mapPages_spec hU htook.past hrun hbooted
    have hlands : translate r₀.mem root heapStart =
        some (f * pageSize + heapStart % pageSize) := htook.maps hmapped rfl
    rw [show heapStart % pageSize = 0 by decide, Nat.add_zero] at hlands
    refine ⟨f, hmapped', ?_⟩
    rw [hmem]
    exact hkept hlands
  · obtain rfl := Option.some.inj hrun
    cases hbooted

end Boot

/-! ## Runs -/

/-- After the boot: the memory, the boot allocator as `memory::init` left it
when it dropped it, and the allocators made since. -/
structure State where
  mem : Mem
  boot : BootInfoFrameAllocator
  live : List BootInfoFrameAllocator

inductive Op where
  | init
  | mapPage (i page : Nat)

def booted (m : MemoryInit) : State := ⟨m.mem, m.allocator, []⟩

def step (map : MemoryMap) (root : Nat) (s : State) : Op → Option State
  | .init => some { s with live := s.live ++ [BootInfoFrameAllocator.init map] }
  | .mapPage i page => do
      let a ← s.live[i]?
      let r ← Ref.mapPage allocateFrame root page s.mem a
      pure { s with mem := r.mem, live := s.live.set i r.allocator }

/-- A call uses nothing another allocator has drawn: it is for a page that
is already mapped, or its allocator stands past all the frames the boot
allocator and the other allocators have handed out. -/
def Apart (map : MemoryMap) (root : Nat) (s : State) : Op → Prop
  | .init => True
  | .mapPage i page => ∀ a ∈ s.live[i]?,
      translateAddr s.mem root (page * 4096) ≠ none ∨
        ∀ a' ∈ s.boot :: s.live, min a'.next (usableFrameNumbers map).length ≤ a.next

def BacksHeap (mem : Mem) (root f : Nat) : Prop :=
  ∃ addr phys, InHeap addr ∧ translateAddr mem root addr = some phys ∧ phys / 4096 = f

def InUse (mem : Mem) (root f : Nat) : Prop :=
  BacksHeap mem root f ∨ ∃ l, TableAt mem root l f

theorem take_subset_of_min_le {U : List Nat} {n n' : Nat} (h : min n U.length ≤ n') :
    U.take n ⊆ U.take n' := by
  rcases Nat.le_total n U.length with hn | hn
  · exact List.take_subset_take_left _ (by omega)
  · rw [List.take_of_length_le hn, List.take_of_length_le (by omega)]
    exact fun f hf => hf

/-- The guard leaves out nothing but calls that draw a frame another
allocator has already handed out. -/
theorem drawn_again_of_not_apart {s : State} {i page : Nat}
    (h : ¬Apart map root s (.mapPage i page)) :
    ∃ a a' f, s.live[i]? = some a ∧ a' ∈ s.boot :: s.live ∧
      (usableFrameNumbers map)[a.next]? = some f ∧
      f ∈ (usableFrameNumbers map).take a'.next := by
  simp only [Apart, not_forall, not_or, Nat.not_le] at h
  obtain ⟨a, ha, _, a', ha', hlt⟩ := h
  have hlen : a.next < (usableFrameNumbers map).length := by omega
  refine ⟨a, a', _, ha, ha', List.getElem?_eq_getElem hlen, ?_⟩
  exact List.mem_take_iff_getElem.mpr ⟨a.next, by omega, rfl⟩

section Runs

variable {m : MemoryInit} {s : State}

/-- The heap is where the boot put it, in frames the boot allocator handed
out, and every usable frame that is a table was handed out by someone. -/
structure Inv (map : MemoryMap) (root : Nat) (m : MemoryInit) (s : State) : Prop where
  single : SingleLevel s.mem root
  memoryMap : ∀ a ∈ s.live, a.memoryMap = map
  tables : ∀ {l f}, TableAt s.mem root l f → f ∈ usableFrameNumbers map →
    ∃ a ∈ s.boot :: s.live, f ∈ (usableFrameNumbers map).take a.next
  heap : ∀ page ∈ heapPages, Backed map root m.mem s.boot page
  kept : ∀ {addr}, InHeap addr →
    translateAddr s.mem root addr = translateAddr m.mem root addr

theorem Inv.heap_frame (hinv : Inv map root m s) {addr : Nat} (h : InHeap addr) :
    ∃ f ∈ (usableFrameNumbers map).take s.boot.next,
      translateAddr s.mem root addr = some (f * pageSize + addr % pageSize) := by
  obtain ⟨f, hf, hlands⟩ := hinv.heap _ h.page_mem
  exact ⟨f, hf, (hinv.kept h).trans (hlands rfl)⟩

theorem Inv.backsHeap (hinv : Inv map root m s) {f : Nat} (h : BacksHeap s.mem root f) :
    f ∈ (usableFrameNumbers map).take s.boot.next := by
  obtain ⟨addr, phys, hheap, hphys, rfl⟩ := h
  obtain ⟨f, hf, hlands⟩ := hinv.heap_frame hheap
  obtain rfl := Option.some.inj (hphys.symm.trans hlands)
  have hdiv : (f * pageSize + addr % pageSize) / 4096 = f := by simp only [pageSize]; omega
  rw [hdiv]
  exact hf

/-- An allocator past all the others is past every table. -/
theorem Inv.past (hinv : Inv map root m s) {a : BootInfoFrameAllocator} (ha : a ∈ s.live)
    (hnext : ∀ a' ∈ s.boot :: s.live, min a'.next (usableFrameNumbers map).length ≤ a.next) :
    Past map root s.mem a where
  single := hinv.single
  memoryMap := hinv.memoryMap a ha
  tables ht hf := by
    obtain ⟨a', ha', htake⟩ := hinv.tables ht hf
    exact take_subset_of_min_le (hnext a' ha') htake

/-- The frames a guarded call uses are in no use before it. -/
theorem Inv.unused (hU : (usableFrameNumbers map).Nodup) (hinv : Inv map root m s)
    {i page : Nat} {a : BootInfoFrameAllocator} {r : MapPage BootInfoFrameAllocator}
    (hapart : Apart map root s (.mapPage i page)) (ha : s.live[i]? = some a)
    (hr : mapPage allocateFrame root page s.mem a = some r) :
    (r.mapped.toList ++ r.tables).Nodup ∧
      ∀ f ∈ r.mapped.toList ++ r.tables, ¬InUse s.mem root f := by
  rcases hapart a ha with hmapped | hnext
  · obtain ⟨_, hnone, hnil⟩ :=
      mapPage_of_translate (Nat.mul_div_cancel page (by decide)) hmapped hr
    rw [hnone, hnil]
    simp
  · have hpast := hinv.past (List.mem_of_getElem? ha) hnext
    have htook := hpast.mapPage hU hr
    refine ⟨htook.nodup, ?_⟩
    rintro f hf (hheap | ⟨l, ht⟩)
    · exact not_mem_take_of_mem_drop hU (htook.ahead f hf)
        (take_subset_of_min_le (hnext _ (by simp)) (hinv.backsHeap hheap))
    · have hdrop := htook.ahead f hf
      exact not_mem_take_of_mem_drop hU hdrop (hpast.tables ht (List.mem_of_mem_drop hdrop))

theorem Inv.booted {mem₀ : Mem} (hU : (usableFrameNumbers map).Nodup)
    (hs : SingleLevel mem₀ root) (hout : TablesOutside map root mem₀)
    (h : memoryInit map root mem₀ = some m) : Inv map root m (booted m) := by
  obtain ⟨hpast, hback⟩ := memoryInit_spec hU hs hout h
  exact ⟨hpast.single, by simp [Frames.booted],
    fun ht hf => ⟨m.allocator, by simp [Frames.booted], hpast.tables ht hf⟩, hback, fun _ => rfl⟩

/-- Replacing one allocator by itself further on keeps all the others' frames. -/
theorem tables_set {a a' : BootInfoFrameAllocator} {i f : Nat} (ha : s.live[i]? = some a)
    (hle : a.next ≤ a'.next)
    (h : ∃ b ∈ s.boot :: s.live, f ∈ (usableFrameNumbers map).take b.next) :
    ∃ b ∈ s.boot :: s.live.set i a', f ∈ (usableFrameNumbers map).take b.next := by
  obtain ⟨b, hb, hf⟩ := h
  obtain ⟨hi, hget⟩ := List.getElem?_eq_some_iff.mp ha
  rcases List.mem_cons.mp hb with rfl | hb
  · exact ⟨_, by simp, hf⟩
  · obtain ⟨j, hj, rfl⟩ := List.mem_iff_getElem.mp hb
    by_cases hij : i = j
    · subst hij
      rw [hget] at hf
      exact ⟨a', List.mem_cons_of_mem _ (List.mem_set hi a'),
        List.take_subset_take_left _ hle hf⟩
    · refine ⟨_, List.mem_cons_of_mem _ ?_, hf⟩
      exact List.mem_iff_getElem.mpr ⟨j, by simpa using hj, List.getElem_set_ne hij _⟩

theorem Inv.step {s' : State} {op : Op} (hU : (usableFrameNumbers map).Nodup)
    (hinv : Inv map root m s) (hapart : Apart map root s op)
    (h : step map root s op = some s') : Inv map root m s' := by
  cases op with
  | init =>
      obtain rfl := Option.some.inj h
      refine ⟨hinv.single, fun a ha => ?_, fun ht hf => ?_, hinv.heap, hinv.kept⟩
      · rcases List.mem_append.mp ha with ha | ha
        · exact hinv.memoryMap a ha
        · rw [List.mem_singleton.mp ha]
          rfl
      · obtain ⟨a, ha, hf⟩ := hinv.tables ht hf
        exact ⟨a, by simp only [List.mem_cons, List.mem_append] at ha ⊢; tauto, hf⟩
  | mapPage i page =>
      obtain ⟨a, ha, h⟩ := Option.bind_eq_some_iff.mp h
      obtain ⟨r, hr, h⟩ := Option.bind_eq_some_iff.mp h
      obtain rfl := Option.some.inj h
      have hlive : a ∈ s.live := List.mem_of_getElem? ha
      obtain ⟨ds, hdraws, _⟩ := mapPage_draws hr
      obtain ⟨hmap, hnext, _⟩ := draws_spec hdraws
      have hle : a.next ≤ r.allocator.next := by omega
      have hmaps : ∀ b ∈ s.live.set i r.allocator, b.memoryMap = map := by
        intro b hb
        rcases List.mem_or_eq_of_mem_set hb with hb | rfl
        · exact hinv.memoryMap b hb
        · exact hmap.trans (hinv.memoryMap a hlive)
      rcases hapart a ha with hmapped | hpast
      · -- A page already mapped: the memory is what it was.
        obtain ⟨hmem, _, _⟩ :=
          mapPage_of_translate (Nat.mul_div_cancel page (by decide)) hmapped hr
        simp only [hmem]
        exact ⟨hinv.single, hmaps, fun ht hf => tables_set ha hle (hinv.tables ht hf),
          hinv.heap, hinv.kept⟩
      · have htook := (hinv.past hlive hpast).mapPage hU hr
        have hi := (List.getElem?_eq_some_iff.mp ha).1
        refine ⟨htook.past.single, hmaps, fun ht hf => ?_, hinv.heap, fun hheap => ?_⟩
        · exact ⟨r.allocator, List.mem_cons_of_mem _ (List.mem_set hi _), htook.past.tables ht hf⟩
        · obtain ⟨f, _, hlands⟩ := hinv.heap_frame hheap
          rw [← hinv.kept hheap, hlands]
          exact htook.grown.translate hlands

end Runs

/-- In every run in which each call is for a page already mapped or has an
allocator past all the frames the others have handed out, the heap keeps the
translation the boot gave it, and no call takes a frame in use. -/
theorem frames_used_once_of_apart {mem₀ : Mem} {m : MemoryInit} {s : State} {ops : List Op}
    (hdisj : DisjointUsable map) (hout : TablesOutside map root mem₀)
    (hs : SingleLevel mem₀ root) (hinit : memoryInit map root mem₀ = some m)
    (hrun : Run (step map root) (Apart map root) (booted m) ops s) :
    (∀ addr, InHeap addr → ∃ phys, translateAddr m.mem root addr = some phys ∧
      translateAddr s.mem root addr = some phys) ∧
    ∀ i page a r, Apart map root s (.mapPage i page) → s.live[i]? = some a →
      mapPage allocateFrame root page s.mem a = some r →
      (r.mapped.toList ++ r.tables).Nodup ∧
        ∀ f ∈ r.mapped.toList ++ r.tables, ¬InUse s.mem root f := by
  have hU := usableFrameNumbers_nodup hdisj
  have hinv : Inv map root m s :=
    hrun.invariant (Inv.booted hU hs hout hinit) fun hinv hapart h => hinv.step hU hapart h
  refine ⟨fun addr hheap => ?_, fun i page a r hapart ha hr => hinv.unused hU hapart ha hr⟩
  obtain ⟨f, _, hlands⟩ := hinv.heap_frame hheap
  exact ⟨_, (hinv.kept hheap).symm.trans hlands, hlands⟩

/-! ## A small machine -/

/-- One usable region, and an empty root table in the frame below it. -/
def oneRegion : MemoryMap := [⟨⟨1, 64⟩, .usable⟩]

def emptyMem : Mem := fun _ _ => .unused

theorem disjointUsable_oneRegion : DisjointUsable oneRegion := List.pairwise_singleton _ _

theorem tableAt_emptyMem {l f : Nat} (h : TableAt emptyMem 0 l f) : l = 4 ∧ f = 0 := by
  cases h with
  | root => exact ⟨rfl, rfl⟩
  | child _ link => cases link

theorem singleLevel_emptyMem : SingleLevel emptyMem 0 :=
  fun h h' => (tableAt_emptyMem h).1.trans (tableAt_emptyMem h').1.symm

theorem tablesOutside_oneRegion : TablesOutside oneRegion 0 emptyMem := by
  intro l f h
  rw [(tableAt_emptyMem h).2]
  decide

instance (map : MemoryMap) (root : Nat) (s : State) (op : Op) :
    Decidable (Apart map root s op) :=
  match op with
  | .init => isTrue trivial
  | .mapPage i page => decidable_of_iff
      ((s.live[i]?).all fun a =>
        decide (translateAddr s.mem root (page * 4096) ≠ none ∨
          ∀ a' ∈ s.boot :: s.live,
            min a'.next (usableFrameNumbers map).length ≤ a.next) = true)
      (by cases h : s.live[i]? <;> simp [Apart, h])

/-- The page the paging test maps, with an allocator of its own. -/
def testPage : Nat := 0x222222220000 / 4096

/-- A new allocator is brought past the boot's 28 frames by calls on a page
of the heap, which fail. -/
def caughtUp : List Op :=
  .init :: List.replicate 28 (.mapPage 0 (heapStart / 4096))

theorem frames_used_once_small_machine :
    ∃ m s a r, memoryInit oneRegion 0 emptyMem = some m ∧
      Run (step oneRegion 0) (Apart oneRegion 0) (booted m) caughtUp s ∧
      Apart oneRegion 0 s (.mapPage 0 testPage) ∧ s.live[0]? = some a ∧
      mapPage allocateFrame 0 testPage s.mem a = some r ∧
      r.mapped = some 29 ∧ r.tables = [30, 31, 32] ∧
      ∀ f ∈ r.mapped.toList ++ r.tables, ¬InUse s.mem 0 f := by
  have hval : ((memoryInit oneRegion 0 emptyMem).bind fun m =>
      (caughtUp.foldlM (fun s l => if Apart oneRegion 0 s l then step oneRegion 0 s l else none)
        (booted m)).bind fun s => (s.live[0]?).bind fun a =>
          (mapPage allocateFrame 0 testPage s.mem a).map fun r =>
            (decide (Apart oneRegion 0 s (.mapPage 0 testPage)), r.mapped, r.tables)) =
      some (true, some 29, [30, 31, 32]) := by
    decide +kernel
  obtain ⟨m, hm, hval⟩ := Option.bind_eq_some_iff.mp hval
  obtain ⟨s, hs, hval⟩ := Option.bind_eq_some_iff.mp hval
  obtain ⟨a, ha, hval⟩ := Option.bind_eq_some_iff.mp hval
  obtain ⟨r, hr, hval⟩ := Option.map_eq_some_iff.mp hval
  simp only [Prod.mk.injEq, decide_eq_true_eq] at hval
  obtain ⟨hapart, hmapped, htables⟩ := hval
  have hrun := Run.of_foldlM hs
  obtain ⟨_, hunused⟩ := frames_used_once_of_apart disjointUsable_oneRegion
    tablesOutside_oneRegion singleLevel_emptyMem hm hrun
  exact ⟨m, s, a, r, hm, hrun, hapart, ha, hr, hmapped, htables,
    (hunused 0 testPage a r hapart ha hr).2⟩

/-- After the boot a second allocator hands out the frame under the start of
the heap, and then the three tables that lead to it, which are zeroed: the
heap is gone. -/
theorem second_allocator_takes_the_heap :
    DisjointUsable oneRegion ∧ TablesOutside oneRegion 0 emptyMem ∧
      SingleLevel emptyMem 0 ∧
      ∃ m s a r, memoryInit oneRegion 0 emptyMem = some m ∧
        Run (step oneRegion 0) (fun _ _ => True) (booted m) [.init] s ∧
        s.live[0]? = some a ∧ mapPage allocateFrame 0 testPage s.mem a = some r ∧
        r.mapped = some 1 ∧ BacksHeap s.mem 0 1 ∧
        r.tables = [2, 3, 4] ∧ (∃ l, TableAt s.mem 0 l 2) ∧
        translateAddr s.mem 0 heapStart = some 4096 ∧
        translateAddr r.mem 0 heapStart = none := by
  refine ⟨disjointUsable_oneRegion, tablesOutside_oneRegion, singleLevel_emptyMem, ?_⟩
  have hval : ((memoryInit oneRegion 0 emptyMem).bind fun m =>
      (mapPage allocateFrame 0 testPage m.mem (BootInfoFrameAllocator.init oneRegion)).map
        fun r => (r.mapped, r.tables, m.mem 0 136, translateAddr m.mem 0 heapStart,
          translateAddr r.mem 0 heapStart)) =
      some (some 1, [2, 3, 4], .present 2 false, some 4096, none) := by
    decide +kernel
  obtain ⟨m, hm, hval⟩ := Option.bind_eq_some_iff.mp hval
  obtain ⟨r, hr, hval⟩ := Option.map_eq_some_iff.mp hval
  simp only [Prod.mk.injEq] at hval
  obtain ⟨hmapped, htables, hlink, hheap, hgone⟩ := hval
  refine ⟨m, _, _, r, hm, Run.one trivial rfl, rfl, hr, hmapped, ?_, htables, ?_, hheap, hgone⟩
  · exact ⟨heapStart, 4096, ⟨Nat.le_refl _, by decide⟩, hheap, rfl⟩
  · exact ⟨3, TableAt.root.child hlink⟩

end ProtoOs.Ref.Frames
