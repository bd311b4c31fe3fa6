import ProtoOs.Lib.Paging

/-!
# Physical memory

`memory.rs` and the mapping half of `allocator.rs`: the frame allocator that
walks the boot loader's memory map, the mapping of one page, and the
mapping of the whole heap at boot.

The allocator keeps nothing but the number of calls it has had and finds the
next frame by walking the map from its start; every instance starts at zero.
An address that does not fit is a panic, and so is a call more than a `usize`
can count: the outer `none`.

Page-table flags are left out: nothing in the kernel reads them back.
-/

namespace ProtoOs.Ref

open ProtoOs.Lib

/-- The boot loader's region types; the kernel tells only one from the
rest. -/
inductive MemoryRegionType where
  | usable
  | other (code : UInt32)
  deriving DecidableEq, Repr

structure FrameRange where
  startFrameNumber : Nat
  endFrameNumber : Nat
  deriving DecidableEq, Repr

structure MemoryRegion where
  range : FrameRange
  regionType : MemoryRegionType
  deriving DecidableEq, Repr

abbrev MemoryMap := List MemoryRegion

/-- `PhysAddr::new(frame_number * 4096)`: the product must fit in 64 bits
and the address in 52. -/
def frameAddress (frameNumber : Nat) : Option Nat :=
  if frameNumber * 4096 < 2 ^ 52 then some (frameNumber * 4096) else none

/-- `a + b` on `usize`. -/
def checkedAdd (a b : Nat) : Option Nat :=
  if a + b < 2 ^ 64 then some (a + b) else none

structure BootInfoFrameAllocator where
  memoryMap : MemoryMap
  next : Nat

namespace BootInfoFrameAllocator

def init (memoryMap : MemoryMap) : BootInfoFrameAllocator := ⟨memoryMap, 0⟩

/-- The frame numbers of all usable regions, in the order of the map. -/
def usableFrameNumbers (memoryMap : MemoryMap) : List Nat :=
  (memoryMap.filter fun region => region.regionType = .usable).flatMap
    fun region => List.range' region.range.startFrameNumber
      (region.range.endFrameNumber - region.range.startFrameNumber)

/-- `usable_frames`: each frame is reached through its address, and named
by the number of the frame that contains it. -/
def usableFrames (a : BootInfoFrameAllocator) : List (Option Nat) :=
  (usableFrameNumbers a.memoryMap).map fun n =>
    (frameAddress n).map fun addr => addr / 4096

/-- `usable_frames().nth(next)`: the iterator computes every frame it skips
as well as the one it answers. -/
def allocateFrame : Paging.FrameSource BootInfoFrameAllocator := fun a => do
  let seen ← (a.usableFrames.take (a.next + 1)).mapM id
  let next ← checkedAdd a.next 1
  pure (seen[a.next]?, { a with next })

end BootInfoFrameAllocator

def translateAddr (mem : Paging.Mem) (root addr : Nat) : Option Nat :=
  Paging.translate mem root addr

/-- What `map_page` leaves: its answer, the memory, the allocator, and what
became of the frames it drew: the one the page was mapped to, if it was,
and those that became tables. -/
structure MapPage (A : Type) where
  result : Except Paging.MapToError Unit
  mem : Paging.Mem
  allocator : A
  mapped : Option Nat
  tables : List Nat

section

variable {A : Type} (frameSource : Paging.FrameSource A)

/-- The frame is drawn before the page is looked at, and the same allocator
serves the missing tables. -/
def mapPage (root page : Nat) (mem : Paging.Mem) (a : A) :
    Option (MapPage A) := do
  let (frame, a) ← frameSource a
  match frame with
  | none => pure ⟨.error .frameAllocationFailed, mem, a, none, []⟩
  | some frame =>
      let w ← Paging.mapTo frameSource root page frame mem a
      pure ⟨w.result, w.mem, w.source,
        match w.result with
        | .ok () => some frame
        | .error _ => none,
        w.tables⟩

end

/-! ## The heap -/

def heapStart : Nat := 0x444444440000
def heapSize : Nat := 100 * 1024

/-- `Page::range_inclusive` over the pages of the first and the last byte
of the heap. -/
def heapPages : List Nat :=
  let heapEnd := heapStart + (heapSize - 1)
  let heapStartPage := heapStart / 4096
  let heapEndPage := heapEnd / 4096
  List.range' heapStartPage (heapEndPage + 1 - heapStartPage)

/-- What `init_heap` leaves before the allocator is told about the range. -/
structure InitHeap (A : Type) where
  result : Except Paging.MapToError Unit
  mem : Paging.Mem
  allocator : A

/-- The loop of `init_heap`: one frame per page, then the walk, stopping at
the first failure. Its body is that of `map_page` on the same table. -/
def mapPages {A : Type} (frameSource : Paging.FrameSource A) (root : Nat) :
    List Nat → Paging.Mem → A → Option (InitHeap A)
  | [], mem, a => some ⟨.ok (), mem, a⟩
  | page :: pages, mem, a => do
      let r ← mapPage frameSource root page mem a
      match r.result with
      | .ok () => mapPages frameSource root pages r.mem r.allocator
      | .error e => pure ⟨.error e, r.mem, r.allocator⟩

def initHeap {A : Type} (frameSource : Paging.FrameSource A) (root : Nat)
    (mem : Paging.Mem) (a : A) : Option (InitHeap A) :=
  mapPages frameSource root heapPages mem a

structure MemoryInfo where
  usableBytes : Nat
  heapStart : Nat
  heapSize : Nat
  deriving DecidableEq, Repr

/-- The sum of `init`, in `u64`: a region that ends before it starts and a
total past 64 bits are panics. -/
def usableBytes (memoryMap : MemoryMap) : Option Nat :=
  (memoryMap.filter fun region => region.regionType = .usable).foldlM
    (fun total region =>
      if region.range.startFrameNumber ≤ region.range.endFrameNumber then
        let size :=
          (region.range.endFrameNumber - region.range.startFrameNumber) * 4096
        if size < 2 ^ 64 ∧ total + size < 2 ^ 64 then some (total + size)
        else none
      else none) 0

/-- What `memory::init` leaves: the memory with the heap mapped, the local
allocator it used, and the summary for `mem`. -/
structure MemoryInit where
  mem : Paging.Mem
  allocator : BootInfoFrameAllocator
  info : MemoryInfo

/-- `memory::init`. Its `expect` makes a heap that cannot be mapped a
panic. -/
def memoryInit (memoryMap : MemoryMap) (root : Nat) (mem : Paging.Mem) :
    Option MemoryInit := do
  let h ← initHeap BootInfoFrameAllocator.allocateFrame root mem
    (BootInfoFrameAllocator.init memoryMap)
  match h.result with
  | .error _ => none
  | .ok () => do
      let total ← usableBytes memoryMap
      pure ⟨h.mem, h.allocator, ⟨total, heapStart, heapSize⟩⟩

end ProtoOs.Ref
