import ProtoOs.Proofs.Account
import ProtoOs.Proofs.Complete
import ProtoOs.Proofs.Mapping

/-!
# Whether the machine comes up

The kernel needs 25 frames for its heap and one for each page table that is
missing over it, and asks for nothing else. What the boot loader hands over
decides the rest: with that many usable frames the machine comes up, goes to
sleep at its prompt and reports all of its memory; with fewer it says so on
the serial port and on the screen and stops, and it never sleeps.
-/

namespace ProtoOs.Ref

open ProtoOs.Lib ProtoOs.Lib.Prog ProtoOs.Lib.Paging
open ProtoOs.Ref.Frames ProtoOs.Ref.Mapping BootInfoFrameAllocator

/-- What the boot loader promises: page tables with nothing at the heap's
addresses and no second way to the tables over it, and usable regions that
are in order, apart from each other and from the tables, and addressable. -/
structure Handover (map : MemoryMap) (root : Nat) (mem : Mem) : Prop where
  own : Own mem root (indices (heapStart / 4096))
  free : ∀ page ∈ heapPages, Mapping.Free mem root page
  ordered : ∀ region ∈ map, region.regionType = .usable →
    region.range.startFrameNumber ≤ region.range.endFrameNumber
  disjoint : DisjointUsable map
  apart : ∀ frame, Usable map frame → ∀ js, ¬Path mem root js frame
  addressable : Addressable map

/-- The frames it takes to map the heap. -/
def heapFrames (root : Nat) (mem : Mem) : Nat :=
  heapPages.length + missing mem (heapStart / 4096) 3 root

/-- The frames there are. -/
def frames (map : MemoryMap) : Nat := (usableFrameNumbers map).length

section Memory

variable {map : MemoryMap} {root : Nat} {mem : Mem}

theorem Handover.ready (h : Handover map root mem) :
    Ready allocateFrame root (indices (heapStart / 4096)) heapPages mem
      (BootInfoFrameAllocator.init map) where
  nodup := List.nodup_range'
  way := heapPages_way
  own := h.own
  fresh := fresh_of_disjoint h.disjoint h.apart
  free := h.free

/-- There are no more frames than addresses. -/
theorem Handover.frames_le (h : Handover map root mem) : frames map ≤ 2 ^ 40 := by
  have hnd := usableFrameNumbers_nodup h.disjoint
  have hsub : usableFrameNumbers map ⊆ List.range (2 ^ 40) := fun frame hframe =>
    List.mem_range.mpr (h.addressable (mem_usableFrameNumbers.mp hframe))
  have hle := (List.subperm_of_subset hnd hsub).length_le
  rw [List.length_range] at hle
  exact hle

/-- So the sum over them fits. -/
theorem Handover.usableBytes_eq (h : Handover map root mem) :
    usableBytes map = some (4096 * frames map) := by
  have hle : ∀ region ∈ map.filter fun region => region.regionType = .usable,
      region.range.startFrameNumber ≤ region.range.endFrameNumber := by
    intro region hmem
    obtain ⟨hmem, husable⟩ := List.mem_filter.mp hmem
    exact h.ordered region hmem (by simpa using husable)
  have hbytes : regionBytes (map.filter fun region => region.regionType = .usable) =
      4096 * frames map := regionBytes_eq _
  have hfits := h.frames_le
  have hsum := foldlM_regionSize 0 hle (show 0 + _ < 2 ^ 64 by omega)
  rw [Nat.zero_add, hbytes] at hsum
  exact hsum

theorem supply_iff (h : Handover map root mem) (n : Nat) :
    (∃ ds a', Supply allocateFrame (BootInfoFrameAllocator.init map) ds a' ∧ ds.length = n) ↔
      n ≤ frames map := by
  constructor
  · rintro ⟨ds, a', hsup, rfl⟩
    obtain ⟨_, _, hpre⟩ := draws_spec hsup.draws
    exact hpre.length_le
  · intro hle
    have hcount : 0 + n < 2 ^ 64 := by
      have := h.frames_le
      omega
    refine ⟨_, _, supply_usable h.addressable n (by rw [Nat.zero_add]; exact hle) hcount, ?_⟩
    rw [List.drop_zero, List.length_take]
    exact Nat.min_eq_left hle

/-- The kernel's allocator panics on such a map only when it has been called
more often than it can count. -/
theorem Handover.answers (h : Handover map root mem) :
    Answers allocateFrame fun n a => a.memoryMap = map ∧ a.next + n < 2 ^ 64 where
  fewer := fun ⟨hmap, hbound⟩ => ⟨hmap, Nat.lt_of_succ_lt hbound⟩
  call := by
    rintro n a ⟨rfl, hbound⟩
    have hnext : a.next + 1 + n < 2 ^ 64 := by omega
    exact ⟨_, _, allocateFrame_eq h.addressable (by omega), rfl, hnext⟩

/-- The loop of `init_heap` answers where four calls a page are answered. -/
theorem mapPages_answers {A : Type} {src : FrameSource A} {P : Nat → A → Prop}
    (hsrc : Answers src P) (pages : List Nat) :
    ∀ {mem : Mem} {a : A}, P (4 * pages.length) a →
      ∃ r, mapPages src root pages mem a = some r := by
  induction pages with
  | nil => exact fun _ => ⟨_, rfl⟩
  | cons page pages ih =>
      intro mem a ha
      obtain ⟨frame, a', hcall, ha'⟩ := hsrc.call ha
      cases frame with
      | none => exact ⟨_, by simp only [mapPages, mapPage, hcall]; rfl⟩
      | some frame =>
          obtain ⟨w, hw, hP⟩ : ∃ w, mapTo src root page frame mem a' = some w ∧
              P (4 * pages.length) w.source := mapTo_answers hsrc frame ha'
          have hpage := mapPage_eq hcall hw
          cases hres : w.result with
          | error e =>
              rw [hres] at hpage
              exact ⟨_, by simp only [mapPages, hpage]; rfl⟩
          | ok u =>
              obtain ⟨r, hr⟩ := ih hP
              refine ⟨r, ?_⟩
              rw [mapPages_cons hpage hres]
              exact hr

/-- With enough frames the heap is mapped and the summary is all of memory. -/
theorem Handover.memoryInit_of_le (h : Handover map root mem)
    (hle : heapFrames root mem ≤ frames map) :
    ∃ mi, memoryInit map root mem = some mi ∧
      mi.info = ⟨4096 * frames map, heapStart, heapSize⟩ := by
  obtain ⟨r, hr, hok⟩ := (mapPages_ok_iff h.ready).mpr ((supply_iff h _).mpr hle)
  refine ⟨⟨r.mem, r.allocator, ⟨4096 * frames map, heapStart, heapSize⟩⟩, ?_, rfl⟩
  simp only [memoryInit, initHeap, hr, hok, h.usableBytes_eq, Option.bind_eq_bind,
    Option.bind_some, Option.pure_def]

/-- With too few it is not. -/
theorem Handover.initHeap_of_lt (h : Handover map root mem)
    (hlt : frames map < heapFrames root mem) :
    ∃ r, initHeap allocateFrame root mem (BootInfoFrameAllocator.init map) = some r ∧
      r.result = .error .frameAllocationFailed := by
  obtain ⟨r, hr⟩ : ∃ r, mapPages allocateFrame root heapPages mem
      (BootInfoFrameAllocator.init map) = some r :=
    mapPages_answers h.answers heapPages
      ⟨rfl, show 0 + 4 * heapPages.length < 2 ^ 64 by decide⟩
  cases hres : r.result with
  | error e =>
      obtain rfl : e = .frameAllocationFailed := mapPages_error h.ready hr hres
      exact ⟨r, hr, hres⟩
  | ok u =>
      have hle := (supply_iff h _).mp ((mapPages_ok_iff h.ready).mp ⟨r, hr, hres⟩)
      exact absurd hle (Nat.not_le.mpr hlt)

end Memory

/-! ## Without enough memory -/

variable {H : Type} (pf : Platform H)

/-- What `memory::init` panics with. -/
def outOfMemory : Fatal := heapNotMapped .frameAllocationFailed

/-- What boot logs before it maps the heap. -/
def firstLines : List (List UInt8) :=
  [ bytes "[boot] " ++ version ++ bytes " iniciado",
    bytes "[boot] gdt/tss ativos",
    bytes "[boot] interrupcoes ativas" ]

section Boot

variable {mem : Mem} {r : InitHeap BootInfoFrameAllocator}
  (hr : initHeap allocateFrame pf.root mem (BootInfoFrameAllocator.init pf.memoryMap) = some r)
  (hx : r.result = .error .frameAllocationFailed)

include hr hx

theorem memoryInitCode_faultsOver {g : Globals H} {h : LockId → Bool} {b : Bool}
    {trap : Cfg LockId (Globals H) → Outcome LockId (Globals H) Fatal Unit}
    (hmem : g.mem = mem) (hheap : h .heap = false) :
    (memoryInitCode pf).FaultsOver trap g h b outOfMemory { g with mem := r.mem } := by
  subst hmem
  have hinit : (initHeapCode pf allocateFrame (allocateFramePanic pf.memoryMap)
      (BootInfoFrameAllocator.init pf.memoryMap)).Yields trap g h b r _ :=
    initHeapCode_yields _ hheap hr
  simp only [hx] at hinit
  refine FaultsOver.bind hinit ?_
  simp only [hx]
  exact FaultsOver.fault

/-- Boot comes to the panic with three lines logged. -/
theorem boot_faultsOver {k : Kernel H} {b : Bool} (hmem : k.globals.mem = mem) :
    ∃ pics, (block pf .boot).FaultsOver Outcome.halt k noLock b outOfMemory
      { k with
        globals := { k.globals with
          serial1 := k.globals.serial1 ++ inLines firstLines
          mem := r.mem }
        pics := pics
        idtLoaded := true } := by
  have hwithin : ∀ c : Cfg LockId (Kernel H), (Outcome.halt c : Outcome _ _ Fatal Unit) = _ :=
    Outcome.halt_within Kernel.globalsLens
  have hlog : k.globals.serial1 ++ inLines firstLines = k.globals.serial1 ++
      (bytes "[boot] " ++ version ++ bytes " iniciado" ++ bytes "\n") ++
      (bytes "[boot] gdt/tss ativos" ++ bytes "\n") ++
      (bytes "[boot] interrupcoes ativas" ++ bytes "\n") := by
    simp only [inLines, firstLines, List.flatMap_cons, List.flatMap_nil, List.append_nil,
      List.append_assoc]
  rw [hlog]
  have hpanic : ∀ k' : Kernel H, k'.globals.mem = mem →
      (onGlobals (memoryInitCode pf)).FaultsOver Outcome.halt k' noLock b outOfMemory
        { k' with globals := { k'.globals with mem := r.mem } } := fun k' hk' =>
    FaultsOver.zoom Kernel.globalsLens hwithin (memoryInitCode_faultsOver pf hr hx hk' rfl)
  refine ⟨k.pics ++ [.initPics] ++ [.writeMasks masterPicMask slavePicMask],
    FaultsOver.bind_left (FaultsOver.bind_left ?_ _) _⟩
  exact FaultsOver.bind (onGlobals_yields hwithin (serialPrintln_yields _ rfl)) <|
    FaultsOver.bind (onGlobals_yields hwithin (serialPrintln_yields _ rfl)) <|
    FaultsOver.bind (Yields.bind Yields.modify
      (Yields.bind (picsOp_yields _ rfl) (picsOp_yields _ rfl))) <|
    FaultsOver.bind (onGlobals_yields hwithin (serialPrintln_yields _ rfl)) <|
    FaultsOver.bind_left (hpanic _ (by exact hmem)) _

end Boot

/-! ## Runs -/

/-- Nothing is delivered but the events the code raises itself. -/
def Unattended (m : Machine H) : Label Fatal Unit → Prop
  | .tick => True
  | .irq _ => False
  | .fatal e => m.raised = some e

/-- Stopped for want of memory: three lines and the panic on the serial port,
the panic on the screen, and the heap as it was. -/
structure OutOfMemory (k₀ : Kernel H) (m : Machine H) : Prop where
  stopped : ∃ f, m.frames = [f] ∧ f.code = .haltLoop
  log : m.cfg.data.globals.serial1 =
    k₀.globals.serial1 ++ inLines (firstLines ++ fatalLog pf outOfMemory)
  screen : k₀.globals.writer.writeString (report pf outOfMemory) = some m.cfg.data.globals.writer
  heap : m.cfg.data.globals.heap = k₀.globals.heap

section Runs

variable {buffer : Buffer} {crtc : Crtc} {heap : H} {mem : Mem} {port : List UInt8}

variable (buffer crtc heap port) in
/-- The kernel left alone comes to its panic with no lock held. -/
theorem raises_out_of_memory (h : Handover pf.memoryMap pf.root mem)
    (hlt : frames pf.memoryMap < heapFrames pf.root mem) :
    ∃ ls m, Run (system pf).step Ticks
        (Machine.start pf (Kernel.start buffer crtc heap mem port)) ls m ∧
      m.raised = some outOfMemory ∧ m.halted = false ∧ m.frames = [] ∧ m.cfg.held = noLock ∧
      ∃ mem', m.cfg.data.globals =
        { (Kernel.start buffer crtc heap mem port).globals with
          serial1 := inLines firstLines
          mem := mem' } := by
  obtain ⟨r, hr, hx⟩ := h.initHeap_of_lt hlt
  obtain ⟨pics, hfault⟩ := boot_faultsOver pf hr hx (b := false)
    (k := Kernel.start buffer crtc heap mem port) rfl
  obtain ⟨shadow, hrun⟩ := hfault false
  obtain ⟨ls, hticks⟩ := (system pf).run_main ticks_tick (steps_of_fault _ hrun)
    (m := Machine.start pf (Kernel.start buffer crtc heap mem port)) rfl rfl rfl rfl
  exact ⟨ls, _, hticks, rfl, rfl, rfl, rfl, r.mem, rfl⟩

theorem stops_out_of_memory (h : Handover pf.memoryMap pf.root mem)
    (hlt : frames pf.memoryMap < heapFrames pf.root mem) :
    ∃ ls m, Run (system pf).step Unattended
        (Machine.start pf (Kernel.start buffer crtc heap mem port)) ls m ∧
      OutOfMemory pf (Kernel.start buffer crtc heap mem port) m := by
  obtain ⟨ls₁, m₁, h₁, hraised, hawake, hf, hheld, mem', hglobals⟩ :=
    raises_out_of_memory pf buffer crtc heap port h hlt
  have hunlocked : ∀ (m : Machine H) l, Ticks m l → Unlocked m l := by
    rintro m _ rfl
    trivial
  have hunattended : ∀ (m : Machine H) l, Ticks m l → Unattended m l := by
    rintro m _ rfl
    trivial
  obtain ⟨m₂, hstrike⟩ : ∃ m₂, (system pf).step m₁ (.fatal outOfMemory) = some m₂ :=
    ⟨_, if_pos ⟨hawake, Bool.or_true _⟩⟩
  obtain ⟨hinv, f₂, hf₂, hk₂⟩ :=
    struck_told pf (h₁.mono hunlocked) (fun l _ => congrFun hheld l) hstrike
  rw [hf] at hf₂
  obtain ⟨ls₂, m, f, h₂, hframes, hcode, hstop⟩ := hinv.stops (fun _ => trivial) hf₂ hk₂
  have htold : Told pf outOfMemory m₁.cfg.data.globals m.cfg.data.globals := hstop
  rw [hglobals] at htold
  obtain ⟨hlog, hscreen⟩ := htold.first rfl
  have hself : Unattended m₁ (.fatal outOfMemory) := hraised
  refine ⟨_, m, ((h₁.mono hunattended).snoc hself hstrike).trans (h₂.mono hunattended),
    ⟨f, hframes, hcode⟩, ?_, hscreen, ?_⟩
  · rw [hlog]
    exact List.flatMap_append.symm
  · rw [htold.untouched]

/-- Whether the machine comes up is decided by the number of usable frames.
If there are enough for the heap and the tables over it, the kernel left
alone goes to sleep at its first prompt, having reported every usable byte.
If there are not, no run in which nothing fatal strikes from outside ever
sleeps, and the kernel left alone reports the panic on both outputs and
stops. -/
theorem comes_up_with_memory (h : Handover pf.memoryMap pf.root mem) :
    (heapFrames pf.root mem ≤ frames pf.memoryMap →
      ∃ ls m, Run (system pf).step Ticks
          (Machine.start pf (Kernel.start buffer crtc heap mem port)) ls m ∧
        Rested m ∧ m.cfg.data.port = port ∧
        m.cfg.data.globals.Renders (Ideal.start
          ⟨4096 * frames pf.memoryMap, heapStart, heapSize⟩
          (pf.heapInit heapStart heapSize heap))) ∧
    (frames pf.memoryMap < heapFrames pf.root mem →
      (∀ ls m, Run (system pf).step (IdleRun false)
          (Machine.start pf (Kernel.start buffer crtc heap mem port)) ls m →
        m.halted = false) ∧
      ∃ ls m, Run (system pf).step Unattended
          (Machine.start pf (Kernel.start buffer crtc heap mem port)) ls m ∧
        OutOfMemory pf (Kernel.start buffer crtc heap mem port) m) := by
  constructor
  · intro hle
    obtain ⟨mi, hmi, hinfo⟩ := h.memoryInit_of_le hle
    have hreach : Ideal.Reaches pf mem heap [] _ := ⟨mi, hmi, rfl⟩
    obtain ⟨ls, m, hrun, ⟨hrest, hport⟩ | ⟨e, _, hj⟩⟩ : Settles pf mem heap port port
        (Machine.start pf (Kernel.start buffer crtc heap mem port)) := settles_start pf
    · obtain ⟨delivered, i, hsplit, hreach', hr⟩ :=
        rested_answered pf (hrun.mono ticks_noOverflow) hrest
      rw [hport] at hsplit
      obtain rfl := List.self_eq_append_left.mp hsplit
      refine ⟨ls, m, hrun, hrest, hport, ?_⟩
      rw [← hinfo]
      exact hreach'.unique pf hreach ▸ hr
    · exact absurd hreach
        (Justified.not_reaches pf (show Justified pf mem heap ([] ++ port) port e from hj))
  · intro hlt
    refine ⟨fun ls m hrun => ?_, stops_out_of_memory pf h hlt⟩
    obtain ⟨r, hr, hx⟩ := h.initHeap_of_lt hlt
    cases hh : m.halted with
    | false => rfl
    | true =>
        obtain ⟨hf, hpc⟩ := loop_asleep pf (loop_inv pf (idleRun_loopInv pf) hrun) hh
        obtain ⟨_, _, ⟨mi, hmi, _⟩, _⟩ := idle_renders pf hrun hf (.inr hpc)
        simp only [memoryInit, hr, hx, Option.bind_eq_bind, Option.bind_some, reduceCtorEq]
          at hmi

end Runs

/-- A map of one region, over empty page tables. -/
theorem handover_emptyMem {n : Nat} (hpos : 1 ≤ n) (hn : n ≤ 2 ^ 40) :
    Handover [⟨⟨1, n⟩, .usable⟩] 0 emptyMem where
  own := own_emptyMem
  free _ _ := ⟨rfl, trivial⟩
  ordered region hmem _ := by
    obtain rfl := List.mem_singleton.mp hmem
    exact hpos
  disjoint := List.pairwise_singleton _ _
  apart frame husable js hp := by
    obtain ⟨_, rfl⟩ := path_emptyMem hp
    obtain ⟨region, hmem, _, hlo, _⟩ := husable
    obtain rfl := List.mem_singleton.mp hmem
    cases hlo
  addressable := by
    rintro frame ⟨region, hmem, _, _, hhi⟩
    obtain rfl := List.mem_singleton.mp hmem
    exact Nat.lt_of_lt_of_le hhi hn

/-- The small PC with this much memory, and where it starts. -/
def cutPlatform (map : MemoryMap) : Platform Nat := { smallPlatform with memoryMap := map }

def cutStart (map : MemoryMap) : Machine Nat :=
  Machine.start (cutPlatform map) (Kernel.start Writer.boot.buffer Writer.boot.crtc 0 emptyMem [])

/-- With 28 frames it comes up; with 27 it does not. -/
theorem comes_up_with_memory_small :
    (∃ ls m, Run (system (cutPlatform [⟨⟨1, 29⟩, .usable⟩])).step Ticks
        (cutStart [⟨⟨1, 29⟩, .usable⟩]) ls m ∧ Rested m) ∧
    ∃ ls m, Run (system (cutPlatform [⟨⟨1, 28⟩, .usable⟩])).step Unattended
        (cutStart [⟨⟨1, 28⟩, .usable⟩]) ls m ∧ ∃ f, m.frames = [f] ∧ f.code = .haltLoop := by
  constructor
  · obtain ⟨ls, m, hrun, hrest⟩ : ∃ ls m, Run _ Ticks (cutStart [⟨⟨1, 29⟩, .usable⟩]) ls m ∧
        Rested m ∧ _ := (comes_up_with_memory (cutPlatform [⟨⟨1, 29⟩, .usable⟩])
      (handover_emptyMem (by decide) (by decide))).1 (by decide)
    exact ⟨ls, m, hrun, hrest.1⟩
  · obtain ⟨_, ls, m, hrun, hend⟩ : _ ∧ ∃ ls m, Run _ Unattended
        (cutStart [⟨⟨1, 28⟩, .usable⟩]) ls m ∧ _ :=
      (comes_up_with_memory (cutPlatform [⟨⟨1, 28⟩, .usable⟩])
        (handover_emptyMem (by decide) (by decide))).2 (by decide)
    exact ⟨ls, m, hrun, hend.stopped⟩

end ProtoOs.Ref
