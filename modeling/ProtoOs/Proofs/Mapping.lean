import ProtoOs.Lib.Paths
import ProtoOs.Proofs.Console
import ProtoOs.Proofs.Frames

/-!
# One page more

What `map_page` says and does, for any page tables and any allocator.

Its errors are not always what its documentation promises. The frame is
drawn before the page is looked at, so an exhausted allocator hides that the
page was mapped, and a page under a huge one is told apart by the walk and
not by its own entry. `errors_truthful_iff` says exactly when the promise is
kept.

Its effect is one page or none, as long as the tables on the way of the page
are not also on the way of other pages (`Own`); nothing in the code rules
that out, and where it happens a page appears at two addresses. Over the
loop of `init_heap` the invariant is that the way of the heap stays its own,
and that what the allocator can still supply is new: neither a table nor a
frame of the part already mapped.
-/

namespace ProtoOs.Ref.Mapping

open ProtoOs.Lib ProtoOs.Lib.Paging ProtoOs.Ref.Frames BootInfoFrameAllocator

section Call

variable {A : Type} {src : FrameSource A} {root page : Nat} {mem : Mem} {a : A}
  {r : MapPage A}

/-! ## What the errors say -/

/-- The documentation of `map_page` about its errors: a page that was mapped
is reported as such, and a lack of frames only for a page that was not, when
the allocator could not supply its frame and the missing tables. -/
def ErrorsTruthful (src : FrameSource A) (root page : Nat) (mem : Mem) (a : A) : Prop :=
  (translateAddr mem root (page * 4096) ≠ none →
    ∃ r f, mapPage src root page mem a = some r ∧ r.result = .error (.pageAlreadyMapped f)) ∧
  ∀ r, mapPage src root page mem a = some r → r.result = .error .frameAllocationFailed →
    translateAddr mem root (page * 4096) = none ∧
      ¬∃ ds a', Supply src a ds a' ∧ ds.length = 1 + missing mem page 3 root

theorem mapPage_eq {f : Nat} {a' : A} {w : Walk A Unit} (hsrc : src a = some (some f, a'))
    (hw : mapTo src root page f mem a' = some w) :
    mapPage src root page mem a = some ⟨w.result, w.mem, w.source,
      match w.result with
      | .ok () => some f
      | .error _ => none, w.tables⟩ := by
  simp only [mapPage, hsrc, Option.bind_eq_bind, Option.bind_some, hw]
  rfl

theorem mapPage_of_supply {ds : List Nat} {a' : A} (hsup : Supply src a ds a')
    (hlen : ds.length = 1 + missing mem page 3 root) :
    ∃ r, mapPage src root page mem a = some r ∧ r.allocator = a' ∧
      r.result ≠ .error .frameAllocationFailed ∧
      (NoHuge mem page 3 root → Paging.translate mem root (page * pageSize) = none →
        r.result = .ok ()) := by
  cases hsup with
  | nil => simp only [List.length_nil] at hlen; omega
  | @cons _ _ _ _ fs hsrc hsup =>
      have hlen' : fs.length = missing mem page 3 root := by
        simp only [List.length_cons] at hlen
        omega
      obtain ⟨w, hw, _, hsource, hne, hok⟩ := mapTo_of_supply hsup hlen'
      exact ⟨_, mapPage_eq hsrc hw, hsource, hne, hok⟩

/-- The promise is kept for a page that was not mapped, and for one that was
mapped by an entry of its own while the allocator still has a frame. -/
theorem errors_truthful_iff :
    ErrorsTruthful src root page mem a ↔
      translateAddr mem root (page * 4096) = none ∨
        ((∃ t, walk mem page 3 root = some t ∧ mem t (index 1 page) ≠ .unused) ∧
          ∃ f a', src a = some (some f, a')) := by
  have hpage : page * 4096 / pageSize = page := Nat.mul_div_cancel page (by decide)
  constructor
  · rintro ⟨hmapped, _⟩
    by_cases hnone : translateAddr mem root (page * 4096) = none
    · exact .inl hnone
    · right
      obtain ⟨r, f, hr, herr⟩ := hmapped hnone
      cases mapPage_drew hr with
      | dry => cases herr
      | @lost f a' w e hsrc hw hres =>
          refine ⟨?_, f, a', hsrc⟩
          rcases walk_of_resolve hpage hnone with hwalk | hhuge
          · exact hwalk
          · rw [mapTo_of_huge hhuge] at hw
            obtain rfl := Option.some.inj hw
            cases hres
            cases herr
      | mapped => cases herr
  · rintro (hnone | ⟨⟨t, hwalk, hused⟩, f, a', hsrc⟩)
    · refine ⟨fun hne => absurd hnone hne, fun r hr herr => ⟨hnone, ?_⟩⟩
      rintro ⟨ds, a', hsup, hlen⟩
      obtain ⟨r', hr', _, hne, _⟩ := mapPage_of_supply hsup hlen
      obtain rfl := Option.some.inj (hr.symm.trans hr')
      exact hne herr
    · have hr := mapPage_eq hsrc (mapTo_of_walk hwalk hused)
      refine ⟨fun _ => ⟨_, f, hr, rfl⟩, fun r' hr' herr => ?_⟩
      obtain rfl := Option.some.inj (hr.symm.trans hr')
      cases herr

/-- Tables 0 to 3, one under the other, and page 0 mapped to frame 4. -/
def chain : Mem := fun t i => if i = 0 ∧ t < 4 then .present (t + 1) false else .unused

/-- Page 0 under a huge page of the second level. -/
def underHuge : Mem := fun t i =>
  if i = 0 then
    if t < 2 then .present (t + 1) false else if t = 2 then .present 512 true else .unused
  else .unused

def tenFrames : MemoryMap := [⟨⟨10, 20⟩, .usable⟩]

/-- A page that is mapped is reported as a lack of frames when the allocator
is at its end, and as a huge parent when that is how it is mapped. -/
theorem mapped_page_misreported :
    (translateAddr chain 0 0 = some (4 * 4096) ∧
      (∃ r, mapPage allocateFrame 0 0 chain (BootInfoFrameAllocator.init []) = some r ∧
        r.result = .error .frameAllocationFailed) ∧
      ¬ErrorsTruthful allocateFrame 0 0 chain (BootInfoFrameAllocator.init [])) ∧
    translateAddr underHuge 0 0 = some (512 * 4096) ∧
      (∃ r, mapPage allocateFrame 0 0 underHuge (BootInfoFrameAllocator.init tenFrames) = some r ∧
        r.result = .error .parentEntryHugePage) ∧
      ¬ErrorsTruthful allocateFrame 0 0 underHuge (BootInfoFrameAllocator.init tenFrames) := by
  refine ⟨⟨by decide, ⟨_, rfl, rfl⟩, fun h => ?_⟩, by decide, ⟨_, rfl, rfl⟩, fun h => ?_⟩
  · exact absurd (h.2 _ rfl rfl).1 (by decide)
  · obtain ⟨r, f, hr, herr⟩ := h.1 (by decide)
    obtain rfl := Option.some.inj hr
    cases herr

/-! ## What a call changes -/

/-- What the allocator can supply is new: each frame comes once, and none of
them is a table. -/
def Fresh (src : FrameSource A) (root : Nat) (mem : Mem) (a : A) : Prop :=
  ∀ ds a', Supply src a ds a' → ds.Nodup ∧ ∀ f ∈ ds, ∀ js, ¬Path mem root js f

theorem Fresh.call (hfresh : Fresh src root mem a) (h : mapPage src root page mem a = some r) :
    (r.mapped.toList ++ r.tables).Nodup ∧ ∀ f ∈ r.tables, ∀ {js}, ¬Path mem root js f := by
  obtain ⟨ds, hdraws, hsub⟩ := mapPage_draws h
  obtain ⟨a'', hsup⟩ := hdraws.supply
  obtain ⟨hnd, hnew⟩ := hfresh ds a'' hsup
  refine ⟨hnd.sublist hsub, fun f hf {js} => hnew f (hsub.subset ?_) js⟩
  exact List.mem_append_right _ hf

/-- What a call leaves of the tables and of all translations. -/
theorem mapPage_extends (hown : Own mem root (indices page)) (hfresh : Fresh src root mem a)
    (h : mapPage src root page mem a = some r) :
    Extends root (indices page) mem r.mem r.tables ∧
      (∀ e, r.result = .error e → ∀ addr,
        Paging.translate r.mem root addr = Paging.translate mem root addr) ∧
      ∀ f, r.mapped = some f → (∃ t, Path r.mem root (indices page) t) ∧
        (∀ {addr}, addr / pageSize = page →
          Paging.translate r.mem root addr = some (f * pageSize + addr % pageSize)) ∧
        (page < 2 ^ 36 → ∀ {addr}, addr / pageSize < 2 ^ 36 → addr / pageSize ≠ page →
          Paging.translate r.mem root addr = Paging.translate mem root addr) := by
  obtain ⟨hnd, hnew⟩ := hfresh.call h
  have hnd' : r.tables.Nodup := hnd.sublist (List.sublist_append_right _ _)
  cases mapPage_drew h with
  | dry => exact ⟨.refl hown, fun _ _ _ => rfl, by rintro f ⟨⟩⟩
  | lost _ hw hres =>
      obtain ⟨hext, herr, _⟩ := mapTo_extends hown hw hnew hnd'
      exact ⟨hext, fun _ _ => herr _ hres, by rintro f ⟨⟩⟩
  | mapped _ hw hok =>
      obtain ⟨hext, _, hmaps⟩ := mapTo_extends hown hw hnew hnd'
      refine ⟨hext, (by rintro e ⟨⟩), fun f hf => ?_⟩
      obtain rfl := Option.some.inj hf
      exact hmaps hok

/-- A call maps the whole page to the first frame it drew, which is none of
the tables it made, and leaves all other addresses as they were; or it fails
and leaves all addresses as they were. An address is taken by its low 48
bits, which are all that a translation reads of it. -/
theorem map_page_one_page_or_none (hpage : page < 2 ^ 36) (hown : Own mem root (indices page))
    (hfresh : Fresh src root mem a) (h : mapPage src root page mem a = some r) :
    (r.result = .ok () → ∃ frame a', src a = some (some frame, a') ∧ frame ∉ r.tables ∧
      (∀ k < 4096, translateAddr r.mem root (page * 4096 + k) = some (frame * 4096 + k)) ∧
      ∀ addr < 2 ^ 48, addr / 4096 ≠ page →
        translateAddr r.mem root addr = translateAddr mem root addr) ∧
    ∀ e, r.result = .error e → ∀ addr,
      translateAddr r.mem root addr = translateAddr mem root addr := by
  obtain ⟨_, herr, hmaps⟩ := mapPage_extends hown hfresh h
  refine ⟨fun hok => ?_, herr⟩
  obtain ⟨frame, a', hsrc, hmapped⟩ := mapPage_ok_mapped h hok
  obtain ⟨_, hhere, helse⟩ := hmaps frame hmapped
  refine ⟨frame, a', hsrc, ?_, fun k hk => ?_, fun addr haddr hne => ?_⟩
  · have hnd := (hfresh.call h).1
    rw [hmapped] at hnd
    exact (List.nodup_cons.mp hnd).1
  · have hdiv : (page * 4096 + k) / pageSize = page := by
      rw [pageSize]
      omega
    have hmod : (page * 4096 + k) % pageSize = k := by
      rw [pageSize]
      omega
    have hlands := hhere hdiv
    rw [hmod] at hlands
    exact hlands
  · exact helse hpage (by rw [pageSize]; omega) hne

/-! ## Pages that share their tables -/

theorem mapPage_supply (h : mapPage src root page mem a = some r) (hok : r.result = .ok ()) :
    ∃ f, r.mapped = some f ∧ Supply src a (f :: r.tables) r.allocator ∧
      r.tables.length = missing mem page 3 root := by
  cases mapPage_drew h with
  | dry => cases hok
  | lost => cases hok
  | mapped hsrc hw hres =>
      obtain ⟨hsup, hlen⟩ := mapTo_supply hw hres
      exact ⟨_, rfl, .cons hsrc hsup, hlen⟩

/-- What is left in the allocator is as new after a call as all of it was
before. -/
theorem Fresh.step {f : Nat} (hfresh : Fresh src root mem a)
    (hext : Extends root (indices page) mem r.mem r.tables)
    (hsup : Supply src a (f :: r.tables) r.allocator) : Fresh src root r.mem r.allocator := by
  intro ds a' hsup'
  obtain ⟨hnd, hnew⟩ := hfresh _ a' (hsup.append hsup')
  refine ⟨hnd.sublist (List.sublist_append_right _ _), fun g hg js hp => ?_⟩
  rcases hext.tables hp with hold | hmem
  · exact hnew g (List.mem_append_right _ hg) js hold
  · exact List.disjoint_of_nodup_append hnd (List.mem_cons_of_mem f hmem) hg

/-- No address of the page leads anywhere, and no huge page is in the way. -/
def Free (mem : Mem) (root page : Nat) : Prop :=
  Paging.translate mem root (page * pageSize) = none ∧ NoHuge mem page 3 root

/-- Such a page is only not mapped for want of frames. -/
theorem Free.error {e : MapToError} (hfree : Free mem root page)
    (h : mapPage src root page mem a = some r) (herr : r.result = .error e) :
    e = .frameAllocationFailed := by
  cases mapPage_drew h with
  | dry => exact (Except.error.inj herr).symm
  | lost _ hw hres => exact mapTo_dry hfree.1 hfree.2 hw (hres.trans herr)
  | mapped => cases herr

/-- What the loop needs before it maps `pages`, which are all under the
last-level table of `is`. -/
structure Ready (src : FrameSource A) (root : Nat) (is pages : List Nat) (mem : Mem) (a : A) :
    Prop where
  nodup : pages.Nodup
  way : ∀ p ∈ pages, indices p = is ∧ p < 2 ^ 36
  own : Own mem root is
  fresh : Fresh src root mem a
  free : ∀ p ∈ pages, Free mem root p

/-- The frames a loop needs: one a page, and the tables missing on the way. -/
def needed (mem : Mem) (root : Nat) (pages : List Nat) : Nat :=
  match pages with
  | [] => 0
  | page :: _ => pages.length + missing mem page 3 root

/-- One page mapped, the rest is ready, and no table is missing any more. -/
theorem Ready.step {is pages : List Nat} (hready : Ready src root is (page :: pages) mem a)
    (h : mapPage src root page mem a = some r) (hok : r.result = .ok ()) :
    Ready src root is pages r.mem r.allocator ∧ needed r.mem root pages = pages.length := by
  obtain ⟨hidx, hlt⟩ := hready.way page (by simp)
  obtain ⟨f, hmapped, hsup, _⟩ := mapPage_supply h hok
  obtain ⟨hext, _, hmaps⟩ := mapPage_extends (hidx ▸ hready.own) hready.fresh h
  obtain ⟨⟨t, hpath⟩, _, helse⟩ := hmaps f hmapped
  have hnd := List.nodup_cons.mp hready.nodup
  have hwalk : ∀ p ∈ pages, walk r.mem p 3 root = some t := by
    intro p hp
    have hsame := (hready.way p (by simp [hp])).1.trans hidx.symm
    exact (hsame ▸ hpath : Path r.mem root (indices p) t).walk
  refine ⟨⟨hnd.2, fun p hp => hready.way p (by simp [hp]), hidx ▸ hext.own,
    hready.fresh.step hext hsup, fun p hp => ⟨?_, ?_⟩⟩, ?_⟩
  · have hdiv : p * pageSize / pageSize = p := Nat.mul_div_cancel p (by decide)
    rw [helse hlt]
    · exact (hready.free p (by simp [hp])).1
    · rw [hdiv]
      exact (hready.way p (by simp [hp])).2
    · rw [hdiv]
      rintro rfl
      exact hnd.1 hp
  · exact (missing_of_walk (hwalk p hp)).2
  · cases pages with
    | nil => rfl
    | cons p pages => rw [needed, (missing_of_walk (hwalk p (by simp))).1, Nat.add_zero]

theorem mapPages_cons {pages : List Nat} (h : mapPage src root page mem a = some r)
    (hok : r.result = .ok ()) :
    mapPages src root (page :: pages) mem a = mapPages src root pages r.mem r.allocator := by
  simp only [mapPages, h, Option.bind_eq_bind, Option.bind_some, hok]

/-- The loop stops at the first page it cannot map. -/
theorem mapPages_cons_inv {pages : List Nat} {h : InitHeap A}
    (hrun : mapPages src root (page :: pages) mem a = some h) (hok : h.result = .ok ()) :
    ∃ r, mapPage src root page mem a = some r ∧ r.result = .ok () ∧
      mapPages src root pages r.mem r.allocator = some h := by
  obtain ⟨r, hr, hrest⟩ := Option.bind_eq_some_iff.mp hrun
  split at hrest <;> rename_i hres
  · exact ⟨r, hr, hres, hrest⟩
  · obtain rfl := Option.some.inj hrest
    cases hok

/-- So the loop ends in no other error. -/
theorem mapPages_error {is : List Nat} {e : MapToError} :
    ∀ {pages : List Nat} {mem : Mem} {a : A} {h : InitHeap A}, Ready src root is pages mem a →
      mapPages src root pages mem a = some h → h.result = .error e →
      e = .frameAllocationFailed := by
  intro pages
  induction pages with
  | nil =>
      intro mem a h _ hrun herr
      obtain rfl := Option.some.inj hrun
      cases herr
  | cons page pages ih =>
      intro mem a h hready hrun herr
      obtain ⟨r, hr, hrest⟩ := Option.bind_eq_some_iff.mp hrun
      split at hrest <;> rename_i hres
      · exact ih (hready.step hr hres).1 hrest herr
      · obtain rfl := Option.some.inj hrest
        exact (hready.free page (by simp)).error hr (hres.trans herr)

theorem mapPages_ok_iff {is : List Nat} :
    ∀ {pages : List Nat} {mem : Mem} {a : A}, Ready src root is pages mem a →
      ((∃ h, mapPages src root pages mem a = some h ∧ h.result = .ok ()) ↔
        ∃ ds a', Supply src a ds a' ∧ ds.length = needed mem root pages) := by
  intro pages
  induction pages with
  | nil =>
      intro mem a _
      exact ⟨fun _ => ⟨[], a, .nil a, rfl⟩, fun _ => ⟨_, rfl, rfl⟩⟩
  | cons page pages ih =>
      intro mem a hready
      constructor
      · rintro ⟨h, hrun, hok⟩
        obtain ⟨r, hr, hres, hrest⟩ := mapPages_cons_inv hrun hok
        obtain ⟨hnext, hneeded⟩ := hready.step hr hres
        obtain ⟨f, _, hsup, hlen⟩ := mapPage_supply hr hres
        obtain ⟨ds, a', hsup', hlen'⟩ := (ih hnext).mp ⟨h, hrest, hok⟩
        refine ⟨_, a', hsup.append hsup', ?_⟩
        rw [List.length_append, List.length_cons, hlen, hlen', hneeded, needed,
          List.length_cons]
        omega
      · rintro ⟨ds, a', hsup, hlen⟩
        rw [needed, List.length_cons] at hlen
        -- The first page takes its frame and all the tables.
        rw [← List.take_append_drop (1 + missing mem page 3 root) ds] at hsup
        obtain ⟨a₁, hsup₁, hsup₂⟩ := hsup.split
        obtain ⟨hnone, hhuge⟩ := hready.free page (by simp)
        have hlen₁ : (ds.take (1 + missing mem page 3 root)).length =
            1 + missing mem page 3 root := by
          rw [List.length_take]
          omega
        obtain ⟨r, hr, rfl, _, hok⟩ := mapPage_of_supply hsup₁ hlen₁
        obtain ⟨hnext, hneeded⟩ := hready.step hr (hok hhuge hnone)
        rw [mapPages_cons hr (hok hhuge hnone)]
        refine (ih hnext).mpr ⟨_, a', hsup₂, ?_⟩
        rw [List.length_drop, hneeded]
        omega

/-- What a loop that ran through leaves: `frame` under each page, all of
them and the new tables from the supply `ds`, and nothing else changed. -/
structure Mapped (root : Nat) (pages : List Nat) (mem mem' : Mem) (frame : Nat → Nat)
    (ds : List Nat) : Prop where
  drawn : ∀ p ∈ pages, frame p ∈ ds
  tables : ∀ {js t}, Path mem' root js t → Path mem root js t ∨ t ∈ ds
  inj : ∀ p ∈ pages, ∀ q ∈ pages, frame p = frame q → p = q
  apart : ∀ p ∈ pages, ∀ js, ¬Path mem' root js (frame p)
  maps : ∀ {addr}, addr / pageSize ∈ pages →
    Paging.translate mem' root addr = some (frame (addr / pageSize) * pageSize + addr % pageSize)
  others : ∀ {addr}, addr / pageSize < 2 ^ 36 → addr / pageSize ∉ pages →
    Paging.translate mem' root addr = Paging.translate mem root addr

/-- One page more, mapped before the others to a frame that is neither a
table nor drawn for anything else. -/
theorem Mapped.cons {root page f : Nat} {pages tables ds : List Nat} {mem mem' mem'' : Mem}
    {frame : Nat → Nat} (hm : Mapped root pages mem' mem'' frame ds) (hpage : page ∉ pages)
    (hlt : page < 2 ^ 36) (hf : f ∉ tables ++ ds) (hnew : ∀ js, ¬Path mem root js f)
    (htables : ∀ {js t}, Path mem' root js t → Path mem root js t ∨ t ∈ tables)
    (hhere : ∀ {addr}, addr / pageSize = page →
      Paging.translate mem' root addr = some (f * pageSize + addr % pageSize))
    (helse : ∀ {addr}, addr / pageSize < 2 ^ 36 → addr / pageSize ≠ page →
      Paging.translate mem' root addr = Paging.translate mem root addr) :
    Mapped root (page :: pages) mem mem'' (fun p => if p = page then f else frame p)
      (f :: (tables ++ ds)) := by
  have hrest : ∀ p ∈ pages, (if p = page then f else frame p) = frame p := by
    intro p hp
    rw [if_neg]
    rintro rfl
    exact hpage hp
  have hall : ∀ {js t}, Path mem'' root js t → Path mem root js t ∨ t ∈ tables ++ ds := by
    intro js t hp
    rcases hm.tables hp with hp | hmem
    · exact (htables hp).imp_right fun hmem => List.mem_append_left _ hmem
    · exact .inr (List.mem_append_right _ hmem)
  refine ⟨?_, fun hp => (hall hp).imp_right (List.mem_cons_of_mem f), ?_, ?_, ?_, ?_⟩
  · intro p hp
    rcases List.mem_cons.mp hp with rfl | hp
    · simp
    · simp only [hrest p hp]
      simp [hm.drawn p hp]
  · have hne : ∀ q ∈ pages, f ≠ frame q := by
      rintro q hq rfl
      exact hf (List.mem_append_right _ (hm.drawn q hq))
    intro p hp q hq heq
    rcases List.mem_cons.mp hp with rfl | hp'
    · rcases List.mem_cons.mp hq with rfl | hq'
      · rfl
      · simp only [hrest q hq', if_true] at heq
        exact absurd heq (hne q hq')
    · rcases List.mem_cons.mp hq with rfl | hq'
      · simp only [hrest p hp', if_true] at heq
        exact absurd heq.symm (hne p hp')
      · simp only [hrest p hp', hrest q hq'] at heq
        exact hm.inj p hp' q hq' heq
  · intro p hp js
    rcases List.mem_cons.mp hp with rfl | hp
    · simp only [if_true]
      intro hpath
      rcases hall hpath with hpath | hmem
      · exact hnew js hpath
      · exact hf hmem
    · simp only [hrest p hp]
      exact hm.apart p hp js
  · intro addr hp
    rcases List.mem_cons.mp hp with heq | hp
    · rw [if_pos heq, hm.others (heq ▸ hlt) (heq ▸ hpage)]
      exact hhere heq
    · rw [hrest _ hp]
      exact hm.maps hp
  · intro addr haddr hp
    rw [List.mem_cons, not_or] at hp
    rw [hm.others haddr hp.2, helse haddr hp.1]

theorem mapPages_mapped {is : List Nat} :
    ∀ {pages : List Nat} {mem : Mem} {a : A} {h : InitHeap A}, Ready src root is pages mem a →
      mapPages src root pages mem a = some h → h.result = .ok () →
      ∃ frame ds, Supply src a ds h.allocator ∧ Mapped root pages mem h.mem frame ds := by
  intro pages
  induction pages with
  | nil =>
      intro mem a h _ hrun _
      obtain rfl := Option.some.inj hrun
      exact ⟨id, [], .nil a, by simp, fun hp => .inl hp, by simp, by simp, by simp,
        fun _ _ => rfl⟩
  | cons page pages ih =>
      intro mem a h hready hrun hok
      obtain ⟨r, hr, hres, hrest⟩ := mapPages_cons_inv hrun hok
      obtain ⟨hidx, hlt⟩ := hready.way page (by simp)
      obtain ⟨hnext, _⟩ := hready.step hr hres
      obtain ⟨f, hmapped, hsup, _⟩ := mapPage_supply hr hres
      obtain ⟨hext, _, hmaps⟩ := mapPage_extends (hidx ▸ hready.own) hready.fresh hr
      obtain ⟨_, hhere, helse⟩ := hmaps f hmapped
      obtain ⟨frame, ds, hsup', hm⟩ := ih hnext hrest hok
      obtain ⟨hnd, hnew⟩ := hready.fresh _ _ (hsup.append hsup')
      have hf : f ∉ r.tables ++ ds := by
        rw [List.cons_append] at hnd
        exact (List.nodup_cons.mp hnd).1
      exact ⟨_, _, hsup.append hsup', hm.cons (List.nodup_cons.mp hready.nodup).1 hlt hf
        (hnew f (by simp)) hext.tables hhere (helse hlt)⟩

end Call

/-- The allocator of the kernel is fresh where its regions hold no table. -/
theorem fresh_of_disjoint {root : Nat} {mem : Mem} {a : BootInfoFrameAllocator}
    (hdisj : DisjointUsable a.memoryMap)
    (hout : ∀ f, Usable a.memoryMap f → ∀ js, ¬Path mem root js f) :
    Fresh allocateFrame root mem a := by
  intro ds a' hsup
  obtain ⟨_, _, hpre⟩ := draws_spec hsup.draws
  have hsub : ds.Sublist (usableFrameNumbers a.memoryMap) :=
    hpre.sublist.trans (List.drop_sublist _ _)
  exact ⟨(usableFrameNumbers_nodup hdisj).sublist hsub,
    fun f hf => hout f (mem_usableFrameNumbers.mp (hsub.subset hf))⟩

/-- It supplies frames as long as it has any. -/
theorem supply_usable {map : MemoryMap} (haddr : Addressable map) (n : Nat) :
    ∀ {next : Nat}, next + n ≤ (usableFrameNumbers map).length → next + n < 2 ^ 64 →
      Supply allocateFrame ⟨map, next⟩ (((usableFrameNumbers map).drop next).take n)
        ⟨map, next + n⟩ := by
  induction n with
  | zero => intro next _ _; exact .nil _
  | succ n ih =>
      intro next hle hbound
      have hlt : next < (usableFrameNumbers map).length := by omega
      have hsrc : allocateFrame ⟨map, next⟩ =
          some ((usableFrameNumbers map)[next]?, ⟨map, next + 1⟩) :=
        allocateFrame_eq haddr (show next + 1 < 2 ^ 64 by omega)
      rw [List.getElem?_eq_getElem hlt] at hsrc
      rw [List.drop_eq_getElem_cons hlt, List.take_succ_cons]
      refine .cons hsrc ?_
      rw [show next + (n + 1) = next + 1 + n by omega]
      exact ih (by omega) (by omega)

theorem path_emptyMem {root t : Nat} {js : List Nat} (h : Path emptyMem root js t) :
    js = [] ∧ t = root := by
  cases h with
  | root => exact ⟨rfl, rfl⟩
  | step _ _ _ link => cases link

theorem own_emptyMem {root : Nat} {is : List Nat} : Own emptyMem root is := by
  intro n t js h h'
  rw [(path_emptyMem h).1, (path_emptyMem h').1]

theorem fresh_emptyMem :
    Fresh allocateFrame 0 emptyMem (BootInfoFrameAllocator.init oneRegion) := by
  refine fresh_of_disjoint disjointUsable_oneRegion fun f hf js hp => ?_
  obtain ⟨_, rfl⟩ := path_emptyMem hp
  obtain ⟨region, hmem, _, hlo, _⟩ := hf
  obtain rfl : region = _ := by simpa [oneRegion, BootInfoFrameAllocator.init] using hmem
  cases hlo

theorem map_page_one_page_or_none_test_page :
    ∃ r, mapPage allocateFrame 0 testPage emptyMem (BootInfoFrameAllocator.init oneRegion) =
        some r ∧
      translateAddr r.mem 0 (testPage * 4096 + 5) = some (1 * 4096 + 5) ∧
      translateAddr r.mem 0 heapStart = translateAddr emptyMem 0 heapStart := by
  refine ⟨_, rfl, ?_⟩
  obtain ⟨frame, a', hsrc, _, hhere, helse⟩ := (map_page_one_page_or_none
    (show testPage < 2 ^ 36 by decide) own_emptyMem fresh_emptyMem rfl).1 rfl
  obtain rfl : 1 = frame := Option.some.inj (Prod.mk.inj (Option.some.inj hsrc)).1
  exact ⟨hhere 5 (by decide), helse heapStart (by decide) (by decide)⟩

/-- Tables 0 to 3, one under the other, with table 3 under two entries of
table 2. -/
def shared : Mem := fun t i =>
  if i = 0 ∧ t < 3 then .present (t + 1) false
  else if i = 1 ∧ t = 2 then .present 3 false else .unused

theorem path_shared {root t : Nat} {js : List Nat} (hroot : root < 10)
    (h : Path shared root js t) : t < 10 := by
  cases h with
  | root => exact hroot
  | step _ _ _ link =>
      unfold shared at link
      split at link
      · cases link; omega
      · split at link
        · cases link; omega
        · cases link

theorem disjointUsable_tenFrames : DisjointUsable tenFrames := List.pairwise_singleton _ _

/-- With a table under two entries, the page of the other entry is mapped
with the one that was asked for. -/
theorem shared_table_maps_second_page :
    Fresh allocateFrame 0 shared (BootInfoFrameAllocator.init tenFrames) ∧
      ∃ r, mapPage allocateFrame 0 0 shared (BootInfoFrameAllocator.init tenFrames) = some r ∧
        r.result = .ok () ∧
        translateAddr shared 0 (512 * 4096) = none ∧
        translateAddr r.mem 0 (512 * 4096) = some (10 * 4096) := by
  refine ⟨fresh_of_disjoint disjointUsable_tenFrames fun f hf js hp => ?_, _, rfl, rfl, ?_⟩
  · have hlt := path_shared (by decide) hp
    obtain ⟨region, hmem, _, hlo, _⟩ := hf
    obtain rfl : region = _ := by simpa [tenFrames, BootInfoFrameAllocator.init] using hmem
    simp only at hlo
    omega
  · decide +kernel

/-! ## The heap -/

section Heap

variable {H A : Type} {pf : Platform H} {src : FrameSource A} {sourcePanic : List UInt8} {a : A}
  {g g' : Globals H}
  {h : LockId → Bool} {b : Bool} {r : InitHeap A}
  {trap : Cfg LockId (Globals H) → Outcome LockId (Globals H) Fatal Unit}

/-- It returns only what the loop returns. -/
theorem initHeapCode_inv (hheap : h .heap = false)
    (hy : (initHeapCode pf src sourcePanic a).Yields trap g h b r g') :
    initHeap src pf.root g.mem a = some r ∧ g' = { g with
      mem := r.mem
      heap := match r.result with
        | .ok () => pf.heapInit heapStart heapSize g.heap
        | .error _ => g.heap } := by
  obtain ⟨_, hrun⟩ := hy false
  cases hi : initHeap src pf.root g.mem a with
  | none =>
      simp [initHeapCode, Prog.attempt, Prog.bind, Prog.run, hi] at hrun
  | some i =>
      obtain ⟨rfl, hdata, _⟩ := (initHeapCode_yields _ hheap hi).eq_of_run rfl rfl rfl hrun
      exact ⟨rfl, hdata⟩

/-- All pages of the heap are under one last-level table. -/
theorem heapPages_way : ∀ p ∈ heapPages, indices p = indices (heapStart / 4096) ∧ p < 2 ^ 36 := by
  intro p hp
  simp only [heapPages, List.mem_range'_1, heapStart, heapSize] at hp
  simp only [indices, index, heapStart, List.cons.injEq, and_true]
  omega

theorem mem_heapPages {addr : Nat} : addr / pageSize ∈ heapPages ↔ InHeap addr := by
  refine ⟨fun hmem => ?_, InHeap.page_mem⟩
  simp only [heapPages, List.mem_range'_1, heapStart, heapSize, pageSize] at hmem
  simp only [InHeap, heapStart, heapSize]
  omega

/-- `init_heap` on page tables where no page of the heap is mapped or under
a huge page, with an allocator whose frames are new. It returns `Ok` exactly
when the allocator can supply a frame for each page of the heap and one for
each table that is missing above them. Then all of the range is mapped, two
addresses of it never to the same place and none to a table; everything
outside it is as before; and the global allocator is given this range. If it
returns an error the global allocator has not been touched. -/
theorem init_heap_maps_heap (hheap : h .heap = false)
    (hown : Own g.mem pf.root (indices (heapStart / 4096)))
    (hfree : ∀ addr, InHeap addr → translateAddr g.mem pf.root addr = none)
    (hhuge : ∀ page ∈ heapPages, NoHuge g.mem page 3 pf.root)
    (hfresh : Fresh src pf.root g.mem a) :
    ((∃ r g', (initHeapCode pf src sourcePanic a).Yields trap g h b r g' ∧ r.result = .ok ()) ↔
      ∃ ds a', Supply src a ds a' ∧
        ds.length = heapPages.length + missing g.mem (heapStart / 4096) 3 pf.root) ∧
    ∀ r g', (initHeapCode pf src sourcePanic a).Yields trap g h b r g' →
      (r.result = .ok () →
        (∀ addr, InHeap addr → ∃ phys, translateAddr g'.mem pf.root addr = some phys ∧
          ∀ js, ¬Path g'.mem pf.root js (phys / 4096)) ∧
        (∀ addr addr', InHeap addr → InHeap addr' →
          translateAddr g'.mem pf.root addr = translateAddr g'.mem pf.root addr' →
          addr = addr') ∧
        (∀ addr < 2 ^ 48, ¬InHeap addr →
          translateAddr g'.mem pf.root addr = translateAddr g.mem pf.root addr) ∧
        g'.heap = pf.heapInit heapStart heapSize g.heap) ∧
      ∀ e, r.result = .error e → g'.heap = g.heap := by
  have hready : Ready src pf.root (indices (heapStart / 4096)) heapPages g.mem a := by
    refine ⟨List.nodup_range', heapPages_way, hown, hfresh, fun p hp => ⟨?_, hhuge p hp⟩⟩
    refine hfree _ (mem_heapPages.mp ?_)
    rw [Nat.mul_div_cancel p (by decide)]
    exact hp
  constructor
  · have hiff := mapPages_ok_iff hready
    rw [show needed g.mem pf.root heapPages =
      heapPages.length + missing g.mem (heapStart / 4096) 3 pf.root from rfl] at hiff
    rw [← hiff]
    constructor
    · rintro ⟨r, g', hy, hok⟩
      exact ⟨r, (initHeapCode_inv hheap hy).1, hok⟩
    · rintro ⟨r, hr, hok⟩
      exact ⟨r, _, initHeapCode_yields _ hheap hr, hok⟩
  · intro r g' hy
    obtain ⟨hr, rfl⟩ := initHeapCode_inv hheap hy
    refine ⟨fun hok => ?_, fun e herr => by simp only [herr]⟩
    obtain ⟨frame, ds, _, hm⟩ := mapPages_mapped hready hr hok
    refine ⟨fun addr hin => ?_, fun addr addr' hin hin' heq => ?_, fun addr haddr hout => ?_,
      by simp only [hok]⟩
    · refine ⟨_, hm.maps (mem_heapPages.mpr hin), fun js => ?_⟩
      rw [show ∀ f x, (f * pageSize + x % pageSize) / 4096 = f by
        intro f x
        rw [pageSize]
        omega]
      exact hm.apart _ (mem_heapPages.mpr hin) js
    · have hmap := hm.maps (mem_heapPages.mpr hin)
      have hmap' := hm.maps (mem_heapPages.mpr hin')
      have hsame : frame (addr / pageSize) * 4096 + addr % 4096 =
          frame (addr' / pageSize) * 4096 + addr' % 4096 :=
        Option.some.inj (hmap.symm.trans (heq.trans hmap'))
      have hframe : frame (addr / pageSize) = frame (addr' / pageSize) := by omega
      have hpage : addr / 4096 = addr' / 4096 :=
        hm.inj _ (mem_heapPages.mpr hin) _ (mem_heapPages.mpr hin') hframe
      omega
    · refine hm.others ?_ fun hmem => hout (mem_heapPages.mp hmem)
      rw [pageSize]
      omega

end Heap

/-- What the loader leaves on the small PC, before `memory::init`. -/
def smallGlobals (mem : Mem) : Globals Nat :=
  (Kernel.start Writer.boot.buffer Writer.boot.crtc 0 mem []).globals

theorem init_heap_maps_heap_small_machine :
    ∃ r g', (initHeapCode smallPlatform allocateFrame []
        (BootInfoFrameAllocator.init oneRegion)).Yields (globalsTrapRun smallPlatform)
        (smallGlobals emptyMem) noLock false r g' ∧ r.result = .ok () ∧
      g'.heap = heapStart ∧
      ∃ phys, translateAddr g'.mem 0 (heapStart + 5000) = some phys := by
  obtain ⟨hiff, hafter⟩ := @init_heap_maps_heap Nat _ smallPlatform allocateFrame []
    (BootInfoFrameAllocator.init oneRegion) (smallGlobals emptyMem) noLock false
    (globalsTrapRun smallPlatform) rfl own_emptyMem (fun addr _ => rfl) (fun page _ => trivial)
    fresh_emptyMem
  have hok : ∃ r g', (initHeapCode smallPlatform allocateFrame []
      (BootInfoFrameAllocator.init oneRegion)).Yields (globalsTrapRun smallPlatform)
      (smallGlobals emptyMem) noLock false r g' ∧ r.result = .ok () := by
    have haddr : Addressable oneRegion := by
      rintro frame ⟨region, hmem, _, _, hhi⟩
      obtain rfl : region = _ := by simpa [oneRegion] using hmem
      exact Nat.lt_trans hhi (by decide)
    exact hiff.mpr ⟨_, _, supply_usable haddr 28 (by decide) (by decide), rfl⟩
  obtain ⟨r, g', hy, hres⟩ := hok
  obtain ⟨hmaps, _, _, hheap⟩ := (hafter r g' hy).1 hres
  obtain ⟨phys, hphys, _⟩ := hmaps (heapStart + 5000) ⟨by decide, by decide⟩
  exact ⟨r, g', hy, hres, hheap, phys, hphys⟩

/-- The tables above the heap, with the last one also under the next entry. -/
def sharedHeap : Mem := fun t i =>
  if (t = 0 ∧ i = 136) ∨ (t = 1 ∧ i = 273) ∨ (t = 2 ∧ i = 34) then .present (t + 1) false
  else if t = 2 ∧ i = 35 then .present 3 false else .unused

def fiftyFrames : MemoryMap := [⟨⟨10, 60⟩, .usable⟩]

theorem disjointUsable_fiftyFrames : DisjointUsable fiftyFrames := List.pairwise_singleton _ _

theorem walk_sharedHeap {page : Nat} (h : page ∈ heapPages) :
    walk sharedHeap page 3 0 = some 3 := by
  have hway := (heapPages_way page h).1
  simp only [indices, List.cons.injEq, and_true] at hway
  obtain ⟨h₄, h₃, h₂⟩ := hway
  have l₄ : sharedHeap 0 (index 4 page) = .present 1 false := by rw [h₄]; decide
  have l₃ : sharedHeap 1 (index 3 page) = .present 2 false := by rw [h₃]; decide
  have l₂ : sharedHeap 2 (index 2 page) = .present 3 false := by rw [h₂]; decide
  rw [walk_succ l₄, walk_succ l₃, walk_succ l₂]
  rfl

theorem path_sharedHeap {t : Nat} {js : List Nat} (h : Path sharedHeap 0 js t) : t < 10 := by
  cases h with
  | root => decide
  | step _ _ _ link =>
      unfold sharedHeap at link
      split at link
      · cases link; omega
      · split at link
        · cases link; omega
        · cases link

/-- With the last table of the heap under a second entry, the heap is mapped
a second time two megabytes further on. -/
theorem shared_table_maps_past_heap :
    (∀ addr, InHeap addr → translateAddr sharedHeap 0 addr = none) ∧
      (∀ page ∈ heapPages, NoHuge sharedHeap page 3 0) ∧
      Fresh allocateFrame 0 sharedHeap (BootInfoFrameAllocator.init fiftyFrames) ∧
      ∃ r g', (initHeapCode smallPlatform allocateFrame []
          (BootInfoFrameAllocator.init fiftyFrames)).Yields (globalsTrapRun smallPlatform)
          (smallGlobals sharedHeap) noLock false r g' ∧ r.result = .ok () ∧
        ¬InHeap (heapStart + 0x200000) ∧
        translateAddr sharedHeap 0 (heapStart + 0x200000) = none ∧
        translateAddr g'.mem 0 (heapStart + 0x200000) = some (10 * 4096) := by
  refine ⟨fun addr hin => ?_, fun page hpage => (missing_of_walk (walk_sharedHeap hpage)).2,
    fresh_of_disjoint disjointUsable_fiftyFrames fun f hf js hp => ?_, ?_⟩
  · refine (resolve_eq_none_iff rfl (walk_sharedHeap hin.page_mem)).mpr ?_
    unfold sharedHeap
    simp
  · have hlt := path_sharedHeap hp
    obtain ⟨region, hmem, _, hlo, _⟩ := hf
    obtain rfl : region = _ := by
      simpa [fiftyFrames, BootInfoFrameAllocator.init] using hmem
    simp only at hlo
    omega
  · have hval : (initHeap allocateFrame 0 sharedHeap
        (BootInfoFrameAllocator.init fiftyFrames)).map (fun r => (r.result.toBool,
          translateAddr r.mem 0 (heapStart + 0x200000))) = some (true, some (10 * 4096)) := by
      decide +kernel
    obtain ⟨r, hr, hval⟩ := Option.map_eq_some_iff.mp hval
    obtain ⟨hok, hlands⟩ := Prod.mk.inj hval
    refine ⟨r, _, initHeapCode_yields _ rfl hr, ?_, ?_, by decide +kernel, hlands⟩
    · cases hres : r.result with
      | error e => rw [hres] at hok; cases hok
      | ok u => rfl
    · rintro ⟨_, hhi⟩
      exact absurd hhi (by decide)

end ProtoOs.Ref.Mapping
