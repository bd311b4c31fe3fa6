import Mathlib.Data.List.Nodup
import ProtoOs.Ref.Memory

/-!
# The frame allocator walks a list

Every call of `allocate_frame` builds the iterator over the usable frames
again and skips to its own position, so an instance is nothing but a
position in one list, and a run of calls reads that list off from there on:
each frame once, and `None` from the end of the list on, until the position
no longer fits a `usize`.

The list is also what `memory::init` measures. The sum it reports goes over
the regions and never builds a frame, and comes to 4096 bytes for each
frame of the list.
-/

namespace ProtoOs.Ref.Frames

open ProtoOs.Lib ProtoOs.Lib.Paging BootInfoFrameAllocator

variable {map : MemoryMap}

/-! ## The list of usable frames -/

/-- No frame lies in two usable regions of the map. -/
def DisjointUsable (map : MemoryMap) : Prop :=
  (map.filter fun region => region.regionType = .usable).Pairwise fun r r' =>
    ∀ n, ¬((r.range.startFrameNumber ≤ n ∧ n < r.range.endFrameNumber) ∧
      r'.range.startFrameNumber ≤ n ∧ n < r'.range.endFrameNumber)

theorem usableFrameNumbers_nodup (h : DisjointUsable map) :
    (usableFrameNumbers map).Nodup := by
  unfold usableFrameNumbers
  refine List.nodup_flatMap.mpr ⟨fun r _ => List.nodup_range', h.imp ?_⟩
  intro r r' hdisj n hn hn'
  rw [List.mem_range'_1] at hn hn'
  exact hdisj n ⟨⟨hn.1, by omega⟩, hn'.1, by omega⟩

/-- The frame lies in a usable region of the map. -/
def Usable (map : MemoryMap) (frame : Nat) : Prop :=
  ∃ region ∈ map, region.regionType = .usable ∧
    region.range.startFrameNumber ≤ frame ∧ frame < region.range.endFrameNumber

theorem mem_usableFrameNumbers {frame : Nat} :
    frame ∈ usableFrameNumbers map ↔ Usable map frame := by
  simp only [usableFrameNumbers, List.mem_flatMap, List.mem_filter, List.mem_range'_1,
    decide_eq_true_eq, Usable]
  constructor
  · rintro ⟨region, ⟨hmem, husable⟩, hlo, hhi⟩
    exact ⟨region, hmem, husable, hlo, by omega⟩
  · rintro ⟨region, hmem, husable, hlo, hhi⟩
    exact ⟨region, ⟨hmem, husable⟩, hlo, by omega⟩

/-! ## One call -/

theorem mapM_id_eq_some {α : Type} :
    ∀ {l : List (Option α)} {xs : List α}, l.mapM id = some xs → l = xs.map some := by
  intro l
  induction l with
  | nil =>
      intro xs h
      obtain rfl : [] = xs := by simpa using h
      rfl
  | cons o l ih =>
      intro xs h
      rw [List.mapM_cons] at h
      obtain ⟨x, hx, h⟩ := Option.bind_eq_some_iff.mp h
      obtain ⟨ys, hys, h⟩ := Option.bind_eq_some_iff.mp h
      obtain rfl := Option.some.inj h
      rw [ih hys, show o = some x from hx]
      rfl

theorem mapM_id_map_some {α : Type} (xs : List α) : (xs.map some).mapM id = some xs := by
  induction xs with
  | nil => rfl
  | cons x xs ih =>
      rw [List.map_cons, List.mapM_cons, ih]
      rfl

theorem checkedAdd_eq_some {a b n : Nat} :
    checkedAdd a b = some n ↔ n = a + b ∧ a + b < 2 ^ 64 := by
  unfold checkedAdd
  split <;> rename_i h
  · exact ⟨fun hn => ⟨(Option.some.inj hn).symm, h⟩, fun hn => by rw [hn.1]⟩
  · exact ⟨by rintro ⟨⟩, fun hn => absurd hn.2 h⟩

/-- A call that returns has counted itself. -/
theorem allocateFrame_next {a a' : BootInfoFrameAllocator} {o : Option Nat}
    (h : allocateFrame a = some (o, a')) :
    a' = { a with next := a.next + 1 } ∧ a.next + 1 < 2 ^ 64 := by
  obtain ⟨seen, _, h⟩ := Option.bind_eq_some_iff.mp h
  obtain ⟨next, hnext, h⟩ := Option.bind_eq_some_iff.mp h
  obtain ⟨rfl, hfits⟩ := checkedAdd_eq_some.mp hnext
  exact ⟨(Prod.mk.inj (Option.some.inj h)).2.symm, hfits⟩

theorem allocateFrame_frame {a a' : BootInfoFrameAllocator} {f : Nat}
    (h : allocateFrame a = some (some f, a')) :
    (usableFrameNumbers a.memoryMap)[a.next]? = some f := by
  obtain ⟨seen, hseen, h⟩ := Option.bind_eq_some_iff.mp h
  obtain ⟨next, _, h⟩ := Option.bind_eq_some_iff.mp h
  have hf : seen[a.next]? = some f := (Prod.mk.inj (Option.some.inj h)).1
  have htake : (a.usableFrames.take (a.next + 1))[a.next]? = some (some f) := by
    rw [mapM_id_eq_some hseen, List.getElem?_map, hf]
    rfl
  rw [List.getElem?_take_of_lt (Nat.lt_succ_self _), usableFrames, List.getElem?_map] at htake
  obtain ⟨n, hn, hfn⟩ := Option.map_eq_some_iff.mp htake
  obtain ⟨addr, haddr, rfl⟩ := Option.map_eq_some_iff.mp hfn
  unfold frameAddress at haddr
  split at haddr
  · obtain rfl := Option.some.inj haddr
    rw [hn, Nat.mul_div_cancel _ (by decide)]
  · cases haddr

/-- The frames of the map have addresses. -/
def Addressable (map : MemoryMap) : Prop := ∀ {frame}, Usable map frame → frame < 2 ^ 40

theorem frameAddress_of_lt {frame : Nat} (h : frame < 2 ^ 40) :
    frameAddress frame = some (frame * 4096) :=
  if_pos (by omega)

/-- Where every frame has an address, a call that can be counted does not
panic. -/
theorem allocateFrame_eq {a : BootInfoFrameAllocator} (h : Addressable a.memoryMap)
    (hnext : a.next + 1 < 2 ^ 64) :
    allocateFrame a = some ((usableFrameNumbers a.memoryMap)[a.next]?,
      { a with next := a.next + 1 }) := by
  have hframes : a.usableFrames = (usableFrameNumbers a.memoryMap).map some := by
    refine List.map_congr_left fun n hn => ?_
    rw [frameAddress_of_lt (h (mem_usableFrameNumbers.mp hn)), Option.map_some,
      Nat.mul_div_cancel _ (by decide)]
  have hseen : (a.usableFrames.take (a.next + 1)).mapM id =
      some ((usableFrameNumbers a.memoryMap).take (a.next + 1)) := by
    rw [hframes, ← List.map_take, mapM_id_map_some]
  rw [allocateFrame, hseen]
  simp only [Option.bind_eq_bind, Option.bind_some, Option.pure_def]
  rw [checkedAdd_eq_some.mpr ⟨rfl, hnext⟩, Option.bind_some,
    List.getElem?_take_of_lt (Nat.lt_succ_self _)]

/-! ## Calls one after the other -/

/-- `n` calls on one instance, with all they return. -/
def allocateFrames : Nat → BootInfoFrameAllocator →
    Option (List (Option Nat) × BootInfoFrameAllocator)
  | 0, a => some ([], a)
  | n + 1, a => do
      let (frame, a) ← allocateFrame a
      let (frames, a) ← allocateFrames n a
      pure (frame :: frames, a)

theorem allocateFrames_eq (n : Nat) :
    ∀ {a : BootInfoFrameAllocator}, Addressable a.memoryMap → a.next + n < 2 ^ 64 →
      allocateFrames n a =
        some ((List.range' a.next n).map fun i => (usableFrameNumbers a.memoryMap)[i]?,
          { a with next := a.next + n }) := by
  induction n with
  | zero => intro a _ _; rfl
  | succ n ih =>
      intro a h hfits
      rw [allocateFrames, allocateFrame_eq h (by omega)]
      simp only [Option.bind_eq_bind, Option.bind_some]
      rw [ih (a := { a with next := a.next + 1 }) h (by simp only; omega)]
      simp only [Option.bind_some, Option.pure_def, List.range'_succ, List.map_cons]
      rw [Nat.add_assoc, Nat.add_comm 1 n]

/-- Calls that return have all been counted. -/
theorem allocateFrames_counted (n : Nat) :
    ∀ {a a' : BootInfoFrameAllocator} {results : List (Option Nat)}, a.next < 2 ^ 64 →
      allocateFrames n a = some (results, a') → a.next + n < 2 ^ 64 := by
  induction n with
  | zero => exact fun ha _ => ha
  | succ n ih =>
      intro a a' results _ h
      obtain ⟨⟨frame, a₁⟩, hcall, h⟩ := Option.bind_eq_some_iff.mp h
      obtain ⟨⟨frames, a₂⟩, hcalls, _⟩ := Option.bind_eq_some_iff.mp h
      obtain ⟨rfl, hfits⟩ := allocateFrame_next hcall
      have hle := ih hfits hcalls
      simp only at hle
      omega

/-- Call number `i` of a new instance returns frame number `i` of the list. -/
theorem allocateFrames_init (h : Addressable map) {n : Nat} (hn : n < 2 ^ 64) :
    ∃ results a, allocateFrames n (init map) = some (results, a) ∧
      ∀ i : Nat, results[i]? = if i < n then some (usableFrameNumbers map)[i]? else none := by
  refine ⟨_, _, allocateFrames_eq n (a := init map) h (by rwa [BootInfoFrameAllocator.init,
    Nat.zero_add]), fun i => ?_⟩
  split <;> rename_i hi
  · simp [BootInfoFrameAllocator.init, hi]
  · simp [hi]

/-- However many times `allocate_frame` is called on one instance: the calls
return as long as a `usize` can count them, every frame returned is in a
usable region and has an aligned address, no frame comes twice, and the first
`None` comes after all usable frames and before nothing but `None`. -/
theorem allocator_enumerates_usable (hdisj : DisjointUsable map)
    (haddr : ∀ region ∈ map, region.regionType = .usable →
      ∀ frame, region.range.startFrameNumber ≤ frame → frame < region.range.endFrameNumber →
        frame < 2 ^ 40)
    (n : Nat) :
    ((∃ results a, allocateFrames n (init map) = some (results, a)) ↔ n < 2 ^ 64) ∧
    ∀ results a, allocateFrames n (init map) = some (results, a) →
      results.length = n ∧
      (∀ frame, some frame ∈ results → Usable map frame ∧
        ∃ addr, frameAddress frame = some addr ∧ 4096 ∣ addr ∧ addr / 4096 = frame) ∧
      (∀ (i j frame : Nat), results[i]? = some (some frame) → results[j]? = some (some frame) →
        i = j) ∧
      (∀ i : Nat, results[i]? = some none → ∀ frame, Usable map frame →
        ∃ j, j < i ∧ results[j]? = some (some frame)) ∧
      ∀ i j : Nat, results[i]? = some none → i ≤ j → j < n → results[j]? = some none := by
  have hfits : Addressable map := by
    rintro frame ⟨region, hmem, husable, hlo, hhi⟩
    exact haddr region hmem husable frame hlo hhi
  have hcounted : ∀ {results a}, allocateFrames n (init map) = some (results, a) → n < 2 ^ 64 := by
    intro results a hrun
    have hlt := allocateFrames_counted n (a := init map)
      (show 0 < 2 ^ 64 by decide) hrun
    rwa [BootInfoFrameAllocator.init, Nat.zero_add] at hlt
  refine ⟨⟨fun ⟨_, _, hrun⟩ => hcounted hrun, fun hn => ?_⟩, fun results a hrun => ?_⟩
  · obtain ⟨results, a, hrun, _⟩ := allocateFrames_init hfits hn
    exact ⟨results, a, hrun⟩
  obtain ⟨results', a', hrun', hget⟩ := allocateFrames_init hfits (hcounted hrun)
  obtain ⟨rfl, rfl⟩ := Prod.mk.inj (Option.some.inj (hrun.symm.trans hrun'))
  -- An answer read at its position, and back.
  have hsome : ∀ (i : Nat) o, results[i]? = some o ↔ i < n ∧ (usableFrameNumbers map)[i]? = o := by
    intro i o
    rw [hget]
    split <;> rename_i hi
    · simp [hi]
    · simp [hi]
  have hlen : results.length = n := by
    refine Nat.le_antisymm (Nat.le_of_not_lt fun hlt => ?_) (Nat.le_of_not_lt fun hlt => ?_)
    · have hout := hget n
      rw [if_neg (Nat.lt_irrefl n), List.getElem?_eq_none_iff] at hout
      omega
    · have hin := hget results.length
      rw [if_pos hlt, List.getElem?_eq_none_iff.mpr (Nat.le_refl _)] at hin
      cases hin
  refine ⟨hlen, fun frame hmem => ?_, fun i j frame hi hj => ?_,
    fun i hi frame hframe => ?_, fun i j hi hij hj => ?_⟩
  · obtain ⟨i, hi⟩ := List.mem_iff_getElem?.mp hmem
    have husable : Usable map frame :=
      mem_usableFrameNumbers.mp (List.mem_of_getElem? ((hsome i _).mp hi).2)
    refine ⟨husable, _, frameAddress_of_lt (hfits husable), Nat.dvd_mul_left _ _, ?_⟩
    rw [Nat.mul_div_cancel _ (by decide)]
  · have hi' := ((hsome i _).mp hi).2
    have hlt := (List.getElem?_eq_some_iff.mp hi').1
    exact (List.getElem?_inj hlt (usableFrameNumbers_nodup hdisj)).mp
      (hi'.trans ((hsome j _).mp hj).2.symm)
  · obtain ⟨hlt, hnone⟩ := (hsome i _).mp hi
    obtain ⟨j, hj⟩ := List.mem_iff_getElem?.mp (mem_usableFrameNumbers.mpr hframe)
    have hji : j < i := by
      have hjlt := (List.getElem?_eq_some_iff.mp hj).1
      rw [List.getElem?_eq_none_iff] at hnone
      omega
    exact ⟨j, hji, (hsome j _).mpr ⟨by omega, hj⟩⟩
  · have hnone := ((hsome i _).mp hi).2
    refine (hsome j _).mpr ⟨hj, ?_⟩
    rw [List.getElem?_eq_none_iff] at hnone ⊢
    omega

/-- Two usable regions with a reserved one between them. -/
def twoRegions : MemoryMap := [⟨⟨1, 3⟩, .usable⟩, ⟨⟨3, 9⟩, .other 2⟩, ⟨⟨9, 10⟩, .usable⟩]

theorem disjointUsable_twoRegions : DisjointUsable twoRegions := by
  refine List.pairwise_pair.mpr fun n hn => ?_
  simp only at hn
  omega

theorem allocator_enumerates_usable_small :
    ∃ results a, allocateFrames 5 (init twoRegions) = some (results, a) ∧
      results.length = 5 ∧ results = [some 1, some 2, some 9, none, none] := by
  obtain ⟨hreturn, hall⟩ := allocator_enumerates_usable disjointUsable_twoRegions
    (by
      intro region hmem _ frame _ hhi
      simp only [twoRegions, List.mem_cons, List.not_mem_nil, or_false] at hmem
      rcases hmem with rfl | rfl | rfl
      · exact Nat.lt_trans hhi (by decide)
      · exact Nat.lt_trans hhi (by decide)
      · exact Nat.lt_trans hhi (by decide)) 5
  obtain ⟨results, a, hrun⟩ := hreturn.mpr (by decide)
  refine ⟨results, a, hrun, (hall results a hrun).1, ?_⟩
  have hval : (allocateFrames 5 (init twoRegions)).map Prod.fst =
      some [some 1, some 2, some 9, none, none] := by
    decide +kernel
  rw [hrun] at hval
  exact Option.some.inj hval

/-! ## The size that is reported -/

def regionSize (region : MemoryRegion) : Nat :=
  (region.range.endFrameNumber - region.range.startFrameNumber) * 4096

/-- The bytes of regions, by their bounds alone. -/
def regionBytes (regions : List MemoryRegion) : Nat :=
  regions.foldr (fun region total => regionSize region + total) 0

/-- They count the frames of the regions. -/
theorem regionBytes_eq (regions : List MemoryRegion) :
    regionBytes regions = 4096 * (regions.flatMap fun region =>
      List.range' region.range.startFrameNumber
        (region.range.endFrameNumber - region.range.startFrameNumber)).length := by
  induction regions with
  | nil => rfl
  | cons region regions ih =>
      rw [List.flatMap_cons, List.length_append, List.length_range', Nat.mul_add, ← ih,
        Nat.mul_comm]
      rfl

/-- A checked sum over regions runs through, as long as the whole of it fits. -/
theorem foldlM_regionSize {bound : Nat} :
    ∀ {regions : List MemoryRegion} (total : Nat),
      (∀ region ∈ regions, region.range.startFrameNumber ≤ region.range.endFrameNumber) →
      total + regionBytes regions < bound →
      regions.foldlM (fun total region =>
        if region.range.startFrameNumber ≤ region.range.endFrameNumber then
          if regionSize region < bound ∧ total + regionSize region < bound then
            some (total + regionSize region)
          else none
        else none) total = some (total + regionBytes regions) := by
  intro regions
  induction regions with
  | nil => intro total _ _; rfl
  | cons region regions ih =>
      intro total hle htotal
      have hcons : regionBytes (region :: regions) =
        regionSize region + regionBytes regions := rfl
      rw [hcons] at htotal ⊢
      have hfits : regionSize region < bound ∧ total + regionSize region < bound := by
        omega
      rw [List.foldlM_cons, if_pos (hle region (by simp)), if_pos hfits]
      simp only [Option.bind_eq_bind, Option.bind_some]
      rw [ih _ (fun r hr => hle r (by simp [hr])) (by omega), Nat.add_assoc]

/-- What `memory::init` reports is 4096 bytes for every frame a new instance
returns before its first `None`, and the sum neither under- nor overflows. -/
theorem usable_bytes_allocatable
    (hmap : ∀ region ∈ map, region.regionType = .usable →
      region.range.startFrameNumber ≤ region.range.endFrameNumber ∧
        region.range.endFrameNumber ≤ 2 ^ 40)
    (htotal : regionBytes (map.filter fun region => region.regionType = .usable) < 2 ^ 64) :
    ∃ (frames : List Nat) (a : BootInfoFrameAllocator),
      allocateFrames (frames.length + 1) (init map) =
        some (frames.map some ++ [none], a) ∧
      usableBytes map = some (4096 * frames.length) ∧
      ∀ root mem m, memoryInit map root mem = some m →
        m.info.usableBytes = 4096 * frames.length := by
  have haddr : Addressable map := by
    rintro frame ⟨region, hmem, husable, _, hhi⟩
    exact Nat.lt_of_lt_of_le hhi (hmap region hmem husable).2
  have hbytes : usableBytes map = some (4096 * (usableFrameNumbers map).length) := by
    have hle : ∀ region ∈ map.filter fun region => region.regionType = .usable,
        region.range.startFrameNumber ≤ region.range.endFrameNumber := by
      intro region hmem
      obtain ⟨hmem, husable⟩ := List.mem_filter.mp hmem
      exact (hmap region hmem (by simpa using husable)).1
    have hsum := foldlM_regionSize 0 hle (by rw [Nat.zero_add]; exact htotal)
    rw [Nat.zero_add, regionBytes_eq] at hsum
    exact hsum
  have hframes : ((List.range' 0 ((usableFrameNumbers map).length + 1)).map
      fun i => (usableFrameNumbers map)[i]?) = (usableFrameNumbers map).map some ++ [none] := by
    rw [List.range'_concat, List.map_append, ← List.range_eq_range']
    congr 1
    · refine List.ext_getElem (by simp) fun i hi _ => ?_
      have hlt : i < (usableFrameNumbers map).length := by simpa using hi
      simp [hlt]
    · simp
  -- The bytes of the list fit in 64 bits, so the calls can be counted.
  have hlength : 4096 * (usableFrameNumbers map).length < 2 ^ 64 := by
    have hlist := regionBytes_eq (map.filter fun region => region.regionType = .usable)
    rw [hlist] at htotal
    exact htotal
  obtain ⟨a, hrun⟩ : ∃ a, allocateFrames ((usableFrameNumbers map).length + 1) (init map) =
      some ((usableFrameNumbers map).map some ++ [none], a) := by
    rw [← hframes]
    refine ⟨_, allocateFrames_eq _ (a := init map) haddr ?_⟩
    rw [BootInfoFrameAllocator.init, Nat.zero_add]
    omega
  refine ⟨usableFrameNumbers map, a, hrun, hbytes, fun root mem m hm => ?_⟩
  obtain ⟨h, _, hm⟩ := Option.bind_eq_some_iff.mp hm
  split at hm
  · cases hm
  · rw [hbytes] at hm
    obtain rfl := Option.some.inj hm
    rfl

theorem usable_bytes_allocatable_small :
    ∃ (frames : List Nat) (a : BootInfoFrameAllocator),
      allocateFrames (frames.length + 1) (init twoRegions) =
        some (frames.map some ++ [none], a) ∧
      usableBytes twoRegions = some (4096 * frames.length) ∧ frames.length = 3 := by
  have hmap : ∀ region ∈ twoRegions, region.regionType = .usable →
      region.range.startFrameNumber ≤ region.range.endFrameNumber ∧
        region.range.endFrameNumber ≤ 2 ^ 40 := by
    intro region hmem _
    simp only [twoRegions, List.mem_cons, List.not_mem_nil, or_false] at hmem
    rcases hmem with rfl | rfl | rfl
    · exact ⟨by decide, by decide⟩
    · exact ⟨by decide, by decide⟩
    · exact ⟨by decide, by decide⟩
  obtain ⟨frames, a, hrun, hbytes, _⟩ := usable_bytes_allocatable hmap (by decide)
  refine ⟨frames, a, hrun, hbytes, ?_⟩
  have hval : usableBytes twoRegions = some 12288 := by decide +kernel
  rw [hval] at hbytes
  have hlen := Option.some.inj hbytes
  omega

end ProtoOs.Ref.Frames
