import Alaska.Runtime.Heap
import Alaska.Runtime.HandleTable
import Alaska.Runtime.HugeObjectAllocator
import Alaska.Runtime.LocalityPageCompaction

/-!
# The runtime and its thread caches

`ThreadCache.cpp` over the whole state: the memory, the handle table, the heap, the huge
objects and the thread caches. A thread cache is identified by its id, which also stands
for it as the owner of slabs and pages. Every operation is one whole call; `none` is a
failed assertion or a null dereference, after which the program does not go on.
-/

namespace Alaska

open Memory

structure ThreadCache where
  handleSlab : Nat
  sizeClasses : Nat → Option Nat
  localityPage : Option Nat

structure Runtime where
  store : Store
  table : HandleTable
  heap : Heap
  huge : HugeObjectAllocator
  cacheCount : Nat
  caches : Nat → ThreadCache

namespace Runtime

/-- A fresh runtime whose heap is at `heapStart`. -/
def create (heapStart : Nat) : Runtime where
  store := ⟨fun _ => 0, fun _ => Mapping.zero⟩
  table := HandleTable.create
  heap := Heap.create heapStart
  huge := []
  cacheCount := 0
  caches := fun _ => ⟨0, fun _ => none, none⟩

/-- `new_threadcache`. -/
def newThreadcache (rt : Runtime) : Runtime :=
  let slab := rt.table.newSlab rt.cacheCount
  { rt with
    table := slab.2
    cacheCount := rt.cacheCount + 1
    caches := Function.update rt.caches rt.cacheCount ⟨slab.1, fun _ => none, none⟩ }

def setPointer (rt : Runtime) (m pointer : Nat) : Runtime :=
  { rt with store := rt.store.setPointer m pointer }

def setBytes (rt : Runtime) (bytes : Bytes) : Runtime :=
  { rt with store := { rt.store with bytes := bytes } }

/-- `memcpy(destination, source, size)`. -/
def memcpy (rt : Runtime) (destination source size : Nat) : Runtime :=
  rt.setBytes (rt.store.bytes.memmove destination source size)

/-- `memset(destination, value, size)`. -/
def memset (rt : Runtime) (destination : Nat) (value : UInt8) (size : Nat) : Runtime :=
  rt.setBytes (rt.store.bytes.memset destination value size)

/-! ## Mappings -/

/-- `handle_slab->alloc()` for slab `idx`. -/
def slabAlloc (rt : Runtime) (idx : Nat) : Nat × Runtime :=
  let r := rt.table.alloc rt.store.mappings idx
  (r.1, { rt with table := r.2.1, store := { rt.store with mappings := r.2.2 } })

/-- The exchange of a full handle slab in `new_mapping`. -/
def newHandleSlab (rt : Runtime) (tid : Nat) : Runtime :=
  let slab := rt.table.newSlab tid
  { rt with
    table := slab.2.setOwner (rt.caches tid).handleSlab none
    caches := Function.update rt.caches tid { rt.caches tid with handleSlab := slab.1 } }

/-- One attempt of `new_mapping`. -/
def tryMapping (rt : Runtime) (tid : Nat) : Nat × Runtime :=
  let r := rt.slabAlloc (rt.caches tid).handleSlab
  if r.1 = 0 then
    let rt := r.2.newHandleSlab tid
    rt.slabAlloc (rt.caches tid).handleSlab
  else
    r

/-- The recursion of `new_mapping`, which skips the handle ids 0 and 10. -/
def newMappingWithin : Nat → Runtime → Nat → Option (Nat × Runtime)
  | 0, _, _ => none
  | depth + 1, rt, tid =>
      let r := rt.tryMapping tid
      if Mapping.handleId r.1 = 0 ∨ Mapping.handleId r.1 = 10 then
        newMappingWithin depth r.2 tid
      else
        some r

/-- `new_mapping`; a deeper recursion would not fit any stack. -/
def newMapping (rt : Runtime) (tid : Nat) : Option (Nat × Runtime) :=
  newMappingWithin (2 ^ 64) rt tid

/-- `handle_table.put(m, this)`. -/
def put (rt : Runtime) (tid m : Nat) : Option Runtime :=
  (rt.table.put rt.store.mappings m tid).map fun r =>
    { rt with table := r.1, store := { rt.store with mappings := r.2 } }

/-! ## Backing data -/

/-- `new_sized_page`. -/
def newSizedPage (rt : Runtime) (tid cls : Nat) : Option (Nat × Runtime) := do
  let (n, heap) ← rt.heap.getSizedpage (classToSize cls) tid
  let heap := (heap.setOwner n (some tid)).putOldPage ((rt.caches tid).sizeClasses cls)
  let cache := rt.caches tid
  let cache := { cache with sizeClasses := Function.update cache.sizeClasses cls (some n) }
  if heap.available n > 0 then
    some (n, { rt with heap := heap, caches := Function.update rt.caches tid cache })
  else
    none

/-- `new_locality_page`. -/
def newLocalityPage (rt : Runtime) (tid requiredSize : Nat) : Option (Nat × Runtime) := do
  let (n, heap) ← rt.heap.getLocalitypage requiredSize tid
  let heap := heap.putOldPage (rt.caches tid).localityPage
  let cache := { rt.caches tid with localityPage := some n }
  if heap.available n > 0 then
    some (n, { rt with heap := heap, caches := Function.update rt.caches tid cache })
  else
    none

/-- `page->alloc(m, size)` on a sized page. -/
def sizedAlloc (rt : Runtime) (n m size : Nat) : Option (Nat × Runtime) :=
  match rt.heap.pages n with
  | .sized page =>
      let r := page.alloc rt.store m size
      some (r.object, { rt with heap := rt.heap.setPage n (.sized r.page), store := r.store })
  | .locality _ => none

/-- The page of a thread cache for a class, or a new one. -/
def currentSizedPage (rt : Runtime) (tid cls : Nat) : Option (Nat × Runtime) :=
  match (rt.caches tid).sizeClasses cls with
  | some page => some (page, rt)
  | none => rt.newSizedPage tid cls

def allocateBackingData (rt : Runtime) (tid m size : Nat) : Option (Nat × Runtime) := do
  let cls := sizeToClass size
  let (page, rt) ← rt.currentSizedPage tid cls
  let (ptr, rt) ← rt.sizedAlloc page m size
  if ptr = 0 then
    let (page, rt) ← rt.newSizedPage tid cls
    let (ptr, rt) ← rt.sizedAlloc page m size
    if ptr = 0 then none else some (ptr, rt)
  else
    some (ptr, rt)

/-- `page->release_local(m, ptr)`, or `release_remote`. -/
def release (rt : Runtime) (n ptr : Nat) (isLocal : Bool) : Option Runtime :=
  match rt.heap.pages n with
  | .sized page =>
      let r := if isLocal then page.releaseLocal rt.store ptr else page.releaseRemote rt.store ptr
      some { rt with heap := rt.heap.setPage n (.sized r.1), store := r.2 }
  | .locality page =>
      (page.release rt.store.mappings ptr).map fun page =>
        { rt with heap := rt.heap.setPage n (.locality page) }

/-- `free_allocation` after the lookup of the page: a pointer without a page is huge. -/
def freeOn (rt : Runtime) (tid ptr : Nat) : Option Nat → Option Runtime
  | none => some { rt with huge := (rt.huge.free ptr).2 }
  | some n => rt.release n ptr (decide (rt.heap.owners n = some tid))

/-- `free_allocation`. -/
def freeAllocation (rt : Runtime) (tid m : Nat) : Option Runtime :=
  rt.freeOn tid (rt.store.mappings m).getPointer
    (rt.heap.getUnaligned (rt.store.mappings m).getPointer)

/-- `page->size_of(ptr)`. -/
def sizeOf (rt : Runtime) (n ptr : Nat) : Option Nat :=
  match rt.heap.pages n with
  | .sized page => some (page.sizeOf ptr)
  | .locality page => page.sizeOf rt.store.mappings ptr

/-! ## Huge objects -/

/-- `mmap` may place `size` bytes at `address`: nothing else the runtime uses is there. -/
def Fresh (rt : Runtime) (address size : Nat) : Prop :=
  0 < address ∧ address % 4096 = 0 ∧ address + size ≤ 2 ^ 47 ∧
    (address + size ≤ rt.heap.start ∨ rt.heap.start + heapSize ≤ address) ∧
    (address + size ≤ handleTableLocation ∨
      handleTableLocation + rt.table.capacity * slabSize ≤ address) ∧
    ∀ header ∈ rt.huge, address + size ≤ header.address ∨
      header.address + header.mappingSize ≤ address

instance (rt : Runtime) (address size : Nat) : Decidable (rt.Fresh address size) :=
  inferInstanceAs (Decidable (_ ∧ _ ∧ _ ∧ _ ∧ _ ∧ _))

/-- `huge_allocator.allocate(size)` when `mmap` returns zeroed memory at `address`. -/
def hugeAllocate (rt : Runtime) (size address : Nat) : Option (Nat × Runtime) :=
  let mapped := HugeObjectAllocator.mappingSize size
  if rt.Fresh address mapped then
    let r := rt.huge.allocate size address
    some (r.1, { rt with huge := r.2 }.memset address 0 mapped)
  else
    none

/-- `huge_allocator.free(ptr)`. -/
def hugeFree (rt : Runtime) (ptr : Nat) : Runtime := { rt with huge := (rt.huge.free ptr).2 }

/-! ## The client interface -/

def halloc (rt : Runtime) (tid size : Nat) (zero : Bool) (address : Nat) :
    Option (Nat × Runtime) :=
  if size = 0 then
    some (0, rt)
  else if shouldBeHugeObject size then
    rt.hugeAllocate size address
  else do
    let (m, rt) ← rt.newMapping tid
    let (ptr, rt) ← rt.allocateBackingData tid m size
    let rt := if zero then rt.memset ptr 0 size else rt
    some (Mapping.toHandle m, rt.setPointer m ptr)

def hfree (rt : Runtime) (tid handle : Nat) : Option Runtime :=
  match Mapping.fromHandleSafe handle with
  | none => some (rt.hugeFree handle)
  | some m => do
      let rt ← rt.freeAllocation tid m
      (rt.setPointer m 0).put tid m

/-- The copy size of `hrealloc`. -/
def copySize (originalSize newSize : Nat) : Nat :=
  if originalSize > newSize then newSize else originalSize

/-- Case 1 of `hrealloc`: handle to huge. -/
def hreallocToHuge (rt : Runtime) (tid handle originalData originalSize newSize address : Nat) :
    Option (Nat × Runtime) := do
  let (newData, rt) ← rt.hugeAllocate newSize address
  let rt := rt.memcpy newData originalData (copySize originalSize newSize)
  let rt ← rt.hfree tid handle
  some (newData, rt)

/-- Case 2 of `hrealloc`: huge to huge. -/
def hreallocHuge (rt : Runtime) (handle newSize address : Nat) : Option (Nat × Runtime) := do
  let originalSize := rt.huge.sizeOf handle
  let (newData, rt) ← rt.hugeAllocate newSize address
  let rt := rt.memcpy newData handle (copySize originalSize newSize)
  some (newData, rt)

/-- Case 3 of `hrealloc`: handle to handle. -/
def hreallocHandle (rt : Runtime) (tid handle m originalData originalSize newSize : Nat) :
    Option (Nat × Runtime) := do
  let (newData, rt) ← rt.allocateBackingData tid m newSize
  let rt := rt.memcpy newData originalData (copySize originalSize newSize)
  let rt ← rt.freeAllocation tid m
  some (handle, rt.setPointer m newData)

/-- Case 4 of `hrealloc`: huge to handle. -/
def hreallocFromHuge (rt : Runtime) (tid handle newSize : Nat) : Option (Nat × Runtime) := do
  let originalSize := rt.huge.sizeOf handle
  let (m, rt) ← rt.newMapping tid
  let (newData, rt) ← rt.allocateBackingData tid m newSize
  let rt := rt.memcpy newData handle (copySize originalSize newSize)
  let rt := rt.setPointer m newData
  some (Mapping.toHandle m, rt.hugeFree handle)

def hrealloc (rt : Runtime) (tid handle newSize address : Nat) : Option (Nat × Runtime) :=
  match Mapping.fromHandleSafe handle with
  | none =>
      if shouldBeHugeObject newSize then
        rt.hreallocHuge handle newSize address
      else
        rt.hreallocFromHuge tid handle newSize
  | some m => do
      let originalData := (rt.store.mappings m).getPointer
      let page ← rt.heap.getUnaligned originalData
      let originalSize ← rt.sizeOf page originalData
      if shouldBeHugeObject newSize then
        rt.hreallocToHuge tid handle originalData originalSize newSize address
      else
        rt.hreallocHandle tid handle m originalData originalSize newSize

/-- `get_size` after the lookup of the page. -/
def sizeOn (rt : Runtime) (ptr : Nat) : Option Nat → Option Nat
  | none => some (rt.huge.sizeOf ptr)
  | some n => rt.sizeOf n ptr

def getSize (rt : Runtime) (handle : Nat) : Option Nat :=
  match Mapping.fromHandleSafe handle with
  | none => some (rt.huge.sizeOf handle)
  | some m =>
      if (rt.store.mappings m).isFree then
        some 0
      else
        rt.sizeOn (rt.store.mappings m).getPointer
          (rt.heap.getUnaligned (rt.store.mappings m).getPointer)

/-- The part of `localize` after its checks: the object moves to locality page `target`. -/
def localizeTo (rt : Runtime) (source target m ptr size epoch : Nat) : Option Runtime :=
  match rt.heap.pages target with
  | .sized _ => none
  | .locality page =>
      let r := page.alloc m size
      if r.1 = 0 then
        none
      else
        let page := { r.2 with lastLocalizationEpoch := epoch }
        let rt := { rt with heap := rt.heap.setPage target (.locality page) }
        let rt := rt.memcpy r.1 ptr size
        let rt := rt.memset ptr 0xFA size
        (rt.setPointer m r.1).release source ptr false

/-- `locality_page->available() < size * 2`, on unsigned values. -/
def localityFull (rt : Runtime) (n size : Nat) : Bool :=
  decide ((rt.heap.available n % 2 ^ 64).toNat < size * 2)

/-- The locality page `localize` allocates on. -/
def localityTarget (rt : Runtime) (tid size : Nat) : Option (Nat × Runtime) :=
  match (rt.caches tid).localityPage with
  | none => rt.newLocalityPage tid (size + 32)
  | some target =>
      if rt.localityFull target size then
        rt.newLocalityPage tid (size + 32)
      else
        some (target, rt)

/-- `localize` after the lookup of the page of the object. -/
def localizeFrom (rt : Runtime) (tid m ptr epoch : Nat) : Option Nat → Option (Bool × Runtime)
  | none => some (false, rt)
  | some source =>
      match rt.heap.pages source with
      | .locality _ => some (false, rt)  -- `should_localize_from` of a locality page
      | .sized page =>
          let size := page.sizeOf ptr
          if size > 512 then
            some (false, rt)
          else do
            let (target, rt) ← rt.localityTarget tid size
            if source = target then
              some (false, rt)
            else
              let rt ← rt.localizeTo source target m ptr size epoch
              some (true, rt)

/-- `localize`, on the address of a mapping. -/
def localize (rt : Runtime) (tid m epoch : Nat) : Option (Bool × Runtime) :=
  if (rt.store.mappings m).isPinned || (rt.store.mappings m).isFree then
    some (false, rt)
  else
    rt.localizeFrom tid m (rt.store.mappings m).getPointer epoch
      (rt.heap.getUnaligned (rt.store.mappings m).getPointer)

/-- `compact` on page `n`; a locality page whose pass fails has no object. -/
def compactPage (rt : Runtime) (n : Nat) : Option Runtime :=
  match rt.heap.pages n with
  | .sized page =>
      let r := page.compact rt.store
      some { rt with heap := rt.heap.setPage n (.sized r.2.1), store := r.2.2 }
  | .locality page =>
      (page.compact rt.store).map fun r =>
        { rt with heap := rt.heap.setPage n (.locality r.2.1), store := r.2.2 }

/-- `jumble` on page `n`; only sized pages are asked. -/
def jumblePage (rt : Runtime) (n : Nat) : Option Runtime :=
  match rt.heap.pages n with
  | .sized page =>
      let r := page.jumble rt.store
      some { rt with heap := rt.heap.setPage n (.sized r.2.1), store := r.2.2 }
  | .locality _ => none

end Runtime

end Alaska
