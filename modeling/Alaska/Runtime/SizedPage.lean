import Alaska.Runtime.Mapping
import Alaska.Runtime.SizedAllocator
import Alaska.Runtime.SizeClass

/-!
# Sized pages

`SizedPage.cpp`: a two-megabyte page that allocates objects of one size class. An array
of headers at the start of the page names the mapping of the object in each slot, and
the slots behind it are handed out by a sized allocator. The headers are kept as a
function of the slot index, beside the bytes of the page.

`Layout` collects what `set_size_class` fixes once, and `Holds` says that the slots the
allocator can still hand out are exactly as the lists and the bump pointer describe,
and that no header names a mapping for them.
-/

namespace Alaska

open Memory

/-- `SizedPage::Header`, a 40-bit field over a 24-bit one. -/
@[ext]
structure Header where
  mapping : Nat
  sizeSlack : Nat
  mapping_lt : mapping < 2 ^ 40
  sizeSlack_lt : sizeSlack < 2 ^ 24
  deriving DecidableEq

namespace Header

def setMapping (h : Header) (m : Nat) : Header :=
  { h with mapping := m / 8 % 2 ^ 40, mapping_lt := Nat.mod_lt _ (by decide) }

/-- The assignment to `size_slack`. -/
def setSizeSlack (h : Header) (slack : Nat) : Header :=
  { h with sizeSlack := slack % 2 ^ 24, sizeSlack_lt := Nat.mod_lt _ (by decide) }

def getMapping (h : Header) : Nat := h.mapping * 8

def isFree (h : Header) : Bool := h.getMapping == 0

/-- A header of zeroed memory. -/
def zero : Header := ⟨0, 0, by decide, by decide⟩

@[simp]
theorem isFree_zero : zero.isFree = true :=
  rfl

/-- The mapping a header names; `none` when the slot is free. -/
def named (h : Header) : Option Nat := if h.isFree then none else some h.getMapping

theorem named_eq_some {h : Header} {m : Nat} :
    h.named = some m ↔ h.isFree = false ∧ h.getMapping = m := by
  cases free : h.isFree <;> simp [named, free]

theorem named_eq_none {h : Header} : h.named = none ↔ h.isFree = true := by
  cases free : h.isFree <;> simp [named, free]

/-- A header that takes over both fields of another one equals it. -/
theorem setSizeSlack_setMapping (h other : Header) :
    (h.setMapping other.getMapping).setSizeSlack other.sizeSlack = other := by
  have := other.mapping_lt
  have := other.sizeSlack_lt
  ext
  · simp only [setSizeSlack, setMapping, getMapping]
    omega
  · simp only [setSizeSlack]
    omega

theorem clear_eq_zero (h : Header) : (h.setMapping 0).setSizeSlack 0 = zero :=
  rfl

theorem getMapping_setMapping {h : Header} {m : Nat} (inTable : Mapping.InTable m) :
    (h.setMapping m).getMapping = m := by
  rcases inTable with ⟨lower, upper, aligned⟩
  simp only [getMapping, setMapping]
  omega

/-- A mapping that some header names survives the 40 bits of every header. -/
theorem named_setMapping_of_named {h other : Header} {m : Nat} (named : other.named = some m) :
    (h.setMapping m).named = some m := by
  rcases named_eq_some.mp named with ⟨live, rfl⟩
  have kept : (h.setMapping other.getMapping).getMapping = other.getMapping := by
    have := other.mapping_lt
    simp only [getMapping, setMapping]
    omega
  rw [named_eq_some]
  refine ⟨?_, kept⟩
  rwa [isFree, kept]

theorem named_setMapping {h : Header} {m : Nat} (inTable : Mapping.InTable m) :
    (h.setMapping m).named = some m := by
  rw [named_eq_some]
  refine ⟨?_, getMapping_setMapping inTable⟩
  simp only [isFree, getMapping_setMapping inTable, beq_eq_false_iff_ne]
  have := inTable.1
  omega

end Header

/-- The memory all pages and the handle table live in. -/
structure Store where
  bytes : Bytes
  mappings : Mappings

namespace Store

/-- `m->set_pointer(pointer)` on the mapping at address `m`. -/
def setPointer (s : Store) (m pointer : Nat) : Store :=
  { s with mappings := Function.update s.mappings m ((s.mappings m).setPointer pointer) }

/-- `m->set_pinned(pinned)`. -/
def setPinned (s : Store) (m : Nat) (pinned : Bool) : Store :=
  { s with mappings := Function.update s.mappings m ((s.mappings m).setPinned pinned) }

@[simp]
theorem bytes_setPointer {s : Store} {m pointer : Nat} : (s.setPointer m pointer).bytes = s.bytes :=
  rfl

@[simp]
theorem mappings_setPointer_self {s : Store} {m pointer : Nat} :
    (s.setPointer m pointer).mappings m = (s.mappings m).setPointer pointer := by
  simp [setPointer]

theorem mappings_setPointer_of_ne {s : Store} {m other pointer : Nat} (ne : other ≠ m) :
    (s.setPointer m pointer).mappings other = s.mappings other := by
  simp [setPointer, ne]

end Store

structure SizedPage where
  memory : Nat
  sizeClass : Nat
  objectSize : Nat
  headers : Nat → Header
  objects : Nat
  capacity : Nat
  liveObjects : Nat
  allocator : SizedAllocator

namespace SizedPage

variable {p p' : SizedPage} {s s' : Store}

/-- The value of `capacity`: the quotient of doubles is exact enough to truncate correctly. -/
def capacityOf (objectSize : Nat) : Nat := pageSize / (roundUp objectSize alignment + 8)

/-- A page over `memory` after `set_size_class(cls)`. -/
def setSizeClass (memory cls : Nat) : SizedPage where
  memory := memory
  sizeClass := cls
  objectSize := classToSize cls
  capacity := capacityOf (classToSize cls)
  liveObjects := 0
  headers := fun _ => Header.zero
  objects := roundUp (memory + 8 * capacityOf (classToSize cls)) alignment
  allocator := SizedAllocator.configure
    (roundUp (memory + 8 * capacityOf (classToSize cls)) alignment)
    (classToSize cls) (capacityOf (classToSize cls))

def indToObject (p : SizedPage) (oid : Nat) : Nat := p.objects + oid * p.objectSize

def objectToInd (p : SizedPage) (ob : Nat) : Nat := (ob - p.objects) / p.objectSize

def sizeOf (p : SizedPage) (ptr : Nat) : Nat :=
  p.objectSize - (p.headers (p.objectToInd ptr)).sizeSlack

def available (p : SizedPage) : Int := p.allocator.numFree

def setHeader (p : SizedPage) (oid : Nat) (h : Header) : SizedPage :=
  { p with headers := Function.update p.headers oid h }

/-- What `alloc` leaves behind: the object, null on failure, and the new state. -/
structure Allocated where
  object : Nat
  page : SizedPage
  store : Store

/-- `alloc`; the slack field keeps the low 24 bits of a 64-bit difference. -/
def alloc (p : SizedPage) (s : Store) (m size : Nat) : Allocated :=
  let o := p.allocator.alloc s.bytes
  let p := { p with allocator := o.allocator }
  let s := { s with bytes := o.mem }
  if o.object = 0 then
    { object := 0, page := p, store := s }
  else
    let oid := p.objectToInd o.object
    let h := (p.headers oid).setMapping m
    let h := h.setSizeSlack (p.objectSize + (2 ^ 64 - alignedSize size))
    { object := o.object, page := p.setHeader oid h, store := s }

/-- The header `alloc` writes. -/
def allocHeader (p : SizedPage) (m size : Nat) : Header :=
  (Header.zero.setMapping m).setSizeSlack (p.objectSize + (2 ^ 64 - alignedSize size))

/-- The slack of an object that fits its slot. -/
theorem sizeSlack_allocHeader {m size : Nat} (fits : alignedSize size ≤ p.objectSize)
    (small : p.objectSize < 2 ^ 24) :
    (p.allocHeader m size).sizeSlack = p.objectSize - alignedSize size := by
  have slack : (p.allocHeader m size).sizeSlack =
      (p.objectSize + (2 ^ 64 - alignedSize size)) % 2 ^ 24 := rfl
  rw [slack]
  generalize alignedSize size = aligned at fits
  omega

theorem named_allocHeader {m size : Nat} (inTable : Mapping.InTable m) :
    (p.allocHeader m size).named = some m :=
  Header.named_setMapping (h := Header.zero) inTable

theorem alloc_of_null {m size : Nat} (null : (p.allocator.alloc s.bytes).object = 0) :
    p.alloc s m size =
      { object := 0
        page := { p with allocator := (p.allocator.alloc s.bytes).allocator }
        store := { s with bytes := (p.allocator.alloc s.bytes).mem } } := by
  simp [alloc, null]

theorem alloc_of_object {m size : Nat} (found : (p.allocator.alloc s.bytes).object ≠ 0) :
    p.alloc s m size =
      { object := (p.allocator.alloc s.bytes).object
        page := setHeader { p with allocator := (p.allocator.alloc s.bytes).allocator }
          (p.objectToInd (p.allocator.alloc s.bytes).object) (p.allocHeader m size)
        store := { s with bytes := (p.allocator.alloc s.bytes).mem } } := by
  simp [alloc, found, allocHeader, Header.setMapping, Header.setSizeSlack, objectToInd]

/-- The body shared by `release_local` and `release_remote`, which push to different lists. -/
def releaseWith (release : SizedAllocator → Bytes → Nat → SizedAllocator × Bytes)
    (p : SizedPage) (s : Store) (ptr : Nat) : SizedPage × Store :=
  let oid := p.objectToInd ptr
  let h := (p.headers oid).setMapping 0
  let p := p.setHeader oid (h.setSizeSlack 0)
  ({ p with allocator := (release p.allocator s.bytes ptr).1 },
    { s with bytes := (release p.allocator s.bytes ptr).2 })

def releaseLocal : SizedPage → Store → Nat → SizedPage × Store :=
  releaseWith SizedAllocator.releaseLocal

def releaseRemote : SizedPage → Store → Nat → SizedPage × Store :=
  releaseWith SizedAllocator.releaseRemote

/-! ## Layout -/

/-- Memory the page manager hands out: page aligned user memory. -/
structure PageMemory (memory : Nat) : Prop where
  pos : 0 < memory
  aligned : memory % 4096 = 0
  below : memory + pageSize ≤ 2 ^ 47

structure Layout (p : SizedPage) : Prop where
  memory : PageMemory p.memory
  class_lt : p.sizeClass < numSizeClasses
  objectSize : p.objectSize = classToSize p.sizeClass
  capacity : p.capacity = capacityOf p.objectSize
  objects : p.objects = roundUp (p.memory + 8 * p.capacity) alignment
  liveObjects : p.liveObjects = 0

theorem layout_setSizeClass {memory cls : Nat} (pageMemory : PageMemory memory)
    (class_lt : cls < numSizeClasses) : (setSizeClass memory cls).Layout :=
  ⟨pageMemory, class_lt, rfl, rfl, rfl, rfl⟩

/-- Different slots do not overlap. -/
theorem slots_apart (p : SizedPage) {index other : Nat} (ne : index ≠ other) :
    p.indToObject index + p.objectSize ≤ p.indToObject other ∨
      p.indToObject other + p.objectSize ≤ p.indToObject index := by
  have step : ∀ {low high : Nat}, low < high →
      p.indToObject low + p.objectSize ≤ p.indToObject high := by
    intro low high lt
    have le : (low + 1) * p.objectSize ≤ high * p.objectSize := Nat.mul_le_mul_right _ lt
    rw [Nat.succ_mul] at le
    simp only [indToObject]
    omega
  rcases Nat.lt_or_gt_of_ne ne with lt | gt
  · exact Or.inl (step lt)
  · exact Or.inr (step gt)

namespace Layout

theorem size_ge (layout : p.Layout) : 16 ≤ p.objectSize := by
  rw [layout.objectSize]
  exact (classToSize_spec _ layout.class_lt).2.1

theorem size_lt (layout : p.Layout) : p.objectSize < 2 ^ 24 := by
  rw [layout.objectSize]
  exact (classToSize_spec _ layout.class_lt).2.2

theorem size_aligned (layout : p.Layout) : p.objectSize % 16 = 0 := by
  rw [layout.objectSize]
  exact (classToSize_spec _ layout.class_lt).1

/-- The headers and the slots, without the rounding between them, fit the page. -/
theorem capacity_mul_le (layout : p.Layout) : p.capacity * (p.objectSize + 8) ≤ pageSize := by
  have aligned := layout.size_aligned
  have rounded : roundUp p.objectSize alignment = p.objectSize := by
    simp only [roundUp, alignment]
    omega
  rw [layout.capacity, capacityOf, rounded]
  exact Nat.div_mul_le_self _ _

theorem headers_le (layout : p.Layout) : p.memory + 8 * p.capacity ≤ p.objects := by
  rw [layout.objects]
  simp only [roundUp, alignment]
  omega

/--
The slots end inside the page. An odd number of headers wastes eight bytes on the
alignment of the first object, and the capacity leaves them: the total is even in units
of sixteen bytes only when the number of headers is.
-/
theorem objects_le (layout : p.Layout) :
    p.objects + p.capacity * p.objectSize ≤ p.memory + pageSize := by
  have aligned := layout.size_aligned
  have pageAligned := layout.memory.aligned
  have fits := layout.capacity_mul_le
  have product : p.capacity * p.objectSize % 16 = 0 := by
    rw [Nat.mul_mod, aligned, Nat.mul_zero, Nat.zero_mod]
  rw [Nat.mul_add] at fits
  rw [layout.objects]
  simp only [roundUp, alignment, pageSize] at *
  omega

theorem objects_pos (layout : p.Layout) : 0 < p.objects := by
  have := layout.headers_le
  have := layout.memory.pos
  omega

/-- Every slot lies inside the page, behind the headers. -/
theorem slot_inside (layout : p.Layout) {index : Nat} (lt : index < p.capacity) :
    p.memory + 8 * p.capacity ≤ p.indToObject index ∧
      p.indToObject index + p.objectSize ≤ p.memory + pageSize := by
  have fits := layout.objects_le
  have headers := layout.headers_le
  have le : (index + 1) * p.objectSize ≤ p.capacity * p.objectSize := Nat.mul_le_mul_right _ lt
  rw [Nat.succ_mul] at le
  simp only [indToObject]
  omega

theorem slot_lt (layout : p.Layout) {index : Nat} (lt : index < p.capacity) :
    p.indToObject index + p.objectSize ≤ 2 ^ 47 := by
  have := (layout.slot_inside lt).2
  have := layout.memory.below
  omega

theorem objectToInd_indToObject (layout : p.Layout) (index : Nat) {offset : Nat}
    (small : offset < p.objectSize) : p.objectToInd (p.indToObject index + offset) = index := by
  have := layout.size_ge
  simp only [objectToInd, indToObject]
  rw [show p.objects + index * p.objectSize + offset - p.objects = offset + p.objectSize * index by
    rw [Nat.mul_comm]; omega]
  rw [Nat.add_mul_div_left _ _ (by omega), Nat.div_eq_of_lt small, Nat.zero_add]

theorem objectToInd_slot (layout : p.Layout) (index : Nat) :
    p.objectToInd (p.indToObject index) = index := by
  have := layout.size_ge
  exact layout.objectToInd_indToObject index (show 0 < p.objectSize by omega)

theorem indToObject_injective (layout : p.Layout) {index other : Nat}
    (equal : p.indToObject index = p.indToObject other) : index = other := by
  rw [← layout.objectToInd_slot index, equal, layout.objectToInd_slot]

end Layout

/-! ## Representation invariant -/

/-- The fields of a page that no operation changes. -/
structure SameLayout (p p' : SizedPage) : Prop where
  memory : p'.memory = p.memory
  sizeClass : p'.sizeClass = p.sizeClass
  objectSize : p'.objectSize = p.objectSize
  objects : p'.objects = p.objects
  capacity : p'.capacity = p.capacity
  liveObjects : p'.liveObjects = p.liveObjects

theorem SameLayout.refl (p : SizedPage) : SameLayout p p := ⟨rfl, rfl, rfl, rfl, rfl, rfl⟩

theorem SameLayout.trans {p'' : SizedPage} (first : SameLayout p p') (second : SameLayout p' p'') :
    SameLayout p p'' :=
  ⟨second.memory.trans first.memory, second.sizeClass.trans first.sizeClass,
    second.objectSize.trans first.objectSize, second.objects.trans first.objects,
    second.capacity.trans first.capacity, second.liveObjects.trans first.liveObjects⟩

theorem SameLayout.indToObject (same : SameLayout p p') : p'.indToObject = p.indToObject := by
  funext index
  simp [SizedPage.indToObject, same.objects, same.objectSize]

theorem Layout.of_same (layout : p.Layout) (same : SameLayout p p') : p'.Layout where
  memory := by rw [same.memory]; exact layout.memory
  class_lt := by rw [same.sizeClass]; exact layout.class_lt
  objectSize := by rw [same.objectSize, same.sizeClass]; exact layout.objectSize
  capacity := by rw [same.capacity, same.objectSize]; exact layout.capacity
  objects := by rw [same.objects, same.memory, same.capacity]; exact layout.objects
  liveObjects := by rw [same.liveObjects]; exact layout.liveObjects

/-- The allocator hands out the slots of the page. -/
structure Configured (p : SizedPage) : Prop where
  start : p.allocator.objectsStart = p.objects
  size : p.allocator.objectSize = p.objectSize

theorem Configured.slot_eq (configured : p.Configured) : p.allocator.slot = p.indToObject := by
  funext index
  simp [SizedAllocator.slot, indToObject, configured.start, configured.size]

/-- Slots `locals` and `remotes` are on the free lists and slots from `bumped` on are untouched. -/
structure Holds (p : SizedPage) (bytes : Bytes) (locals remotes : List Nat) (bumped : Nat) :
    Prop where
  layout : p.Layout
  configured : p.Configured
  lists : p.allocator.Holds bytes p.capacity locals remotes bumped
  free : ∀ index ∈ SizedAllocator.freeSlots locals remotes bumped p.capacity,
    (p.headers index).isFree = true

namespace Holds

variable {locals remotes : List Nat} {bumped index : Nat} {bytes bytes' : Bytes}

theorem setSizeClass {memory cls : Nat} (bytes : Bytes) (pageMemory : PageMemory memory)
    (class_lt : cls < numSizeClasses) : (setSizeClass memory cls).Holds bytes [] [] 0 := by
  have layout := layout_setSizeClass pageMemory class_lt
  have fits := layout.objects_le
  have below := pageMemory.below
  refine ⟨layout, ⟨rfl, rfl⟩, ?_, fun _ _ => rfl⟩
  refine SizedAllocator.Holds.configure bytes ?_ layout.objects_pos ?_
  · exact Nat.le_trans (by decide) layout.size_ge
  · exact Nat.lt_of_le_of_lt (fits.trans below) (by decide)

theorem available_eq (holds : p.Holds bytes locals remotes bumped) :
    p.available = (SizedAllocator.freeSlots locals remotes bumped p.capacity).length :=
  holds.lists.numFree_eq

/-- Writes outside the slots on the free lists do not disturb a page. -/
theorem congr (holds : p.Holds bytes locals remotes bumped)
    (same : ∀ index ∈ locals ++ remotes, ∀ address, p.indToObject index ≤ address →
      address < p.indToObject index + p.objectSize → bytes' address = bytes address) :
    p.Holds bytes' locals remotes bumped where
  layout := holds.layout
  configured := holds.configured
  free := holds.free
  lists := by
    refine holds.lists.congr ?_
    intro index member address lower upper
    rw [holds.configured.slot_eq] at lower upper
    have := holds.layout.size_ge
    exact same index member address lower (by omega)

/-- What a successful `alloc` does: a free slot gets a header and leaves the free slots. -/
structure AllocSpec (p : SizedPage) (s : Store) (m size : Nat) (free : List Nat)
    (result : Allocated) (index : Nat) (locals remotes : List Nat) (bumped : Nat) : Prop where
  object : result.object = p.indToObject index
  index_lt : index < p.capacity
  holds : result.page.Holds result.store.bytes locals remotes bumped
  perm : free.Perm (index :: SizedAllocator.freeSlots locals remotes bumped p.capacity)
  same : SameLayout p result.page
  header : result.page.headers index = p.allocHeader m size
  others : ∀ other, other ≠ index → result.page.headers other = p.headers other
  mappings : result.store.mappings = s.mappings
  bytes : ∀ address, (∀ other ∈ free, address < p.indToObject other ∨
    p.indToObject other + p.objectSize ≤ address) → result.store.bytes address = s.bytes address

/-- `alloc` takes a free slot, and fails only when there is none. -/
theorem alloc (holds : p.Holds s.bytes locals remotes bumped) (m size : Nat) :
    ((p.alloc s m size).object = 0 ∧
      SizedAllocator.freeSlots locals remotes bumped p.capacity = [] ∧
      (p.alloc s m size).page.Holds s.bytes [] [] p.capacity ∧
      SameLayout p (p.alloc s m size).page ∧
      (p.alloc s m size).page.headers = p.headers ∧ (p.alloc s m size).store = s) ∨
    ∃ index locals' remotes' bumped',
      AllocSpec p s m size (SizedAllocator.freeSlots locals remotes bumped p.capacity)
        (p.alloc s m size) index locals' remotes' bumped' := by
  have layout := holds.layout
  have slot_eq := holds.configured.slot_eq
  cases holds.lists.alloc with
  | full object exhausted lists same memSame =>
      left
      have sameLayout : SameLayout p
          { p with allocator := (p.allocator.alloc s.bytes).allocator } :=
        ⟨rfl, rfl, rfl, rfl, rfl, rfl⟩
      rw [alloc_of_null object]
      refine ⟨rfl, exhausted, ⟨layout.of_same sameLayout, ⟨?_, ?_⟩, ?_, ?_⟩, sameLayout, rfl, ?_⟩
      · exact same.start.trans holds.configured.start
      · exact same.size.trans holds.configured.size
      · rwa [memSame] at lists
      · simp [SizedAllocator.freeSlots]
      · rw [memSame]
  | taken index locals' remotes' bumped' object lists perm same only _ =>
      right
      have member : index ∈ SizedAllocator.freeSlots locals remotes bumped p.capacity :=
        perm.mem_iff.mpr List.mem_cons_self
      have index_lt := holds.lists.freeSlots_lt member
      have found : (p.allocator.alloc s.bytes).object ≠ 0 := by
        rw [object]
        exact (holds.lists.slot_pos index).ne'
      have notFree : index ∉ SizedAllocator.freeSlots locals' remotes' bumped' p.capacity :=
        (List.nodup_cons.mp (perm.nodup_iff.mp holds.lists.freeSlots_nodup)).1
      rw [slot_eq] at object
      refine ⟨index, locals', remotes', bumped', ?_⟩
      rw [alloc_of_object found, object, layout.objectToInd_slot]
      have sameLayout : SameLayout p (setHeader
          { p with allocator := (p.allocator.alloc s.bytes).allocator } index
          (p.allocHeader m size)) :=
        ⟨rfl, rfl, rfl, rfl, rfl, rfl⟩
      refine ⟨rfl, index_lt, ⟨layout.of_same sameLayout, ⟨?_, ?_⟩, ?_, ?_⟩, perm, sameLayout, ?_,
        ?_, rfl, ?_⟩
      · exact same.start.trans holds.configured.start
      · exact same.size.trans holds.configured.size
      · exact lists
      · intro other stillFree
        have ne : other ≠ index := fun equal => notFree (equal ▸ stillFree)
        simp only [setHeader, Function.update_of_ne ne]
        exact holds.free other (perm.mem_iff.mpr (List.mem_cons_of_mem _ stillFree))
      · simp [setHeader]
      · intro other ne
        simp [setHeader, Function.update_of_ne ne]
      · intro address outside
        refine only address fun other listed => ?_
        rw [slot_eq]
        have := layout.size_ge
        rcases outside other listed with below | above
        · exact Or.inl below
        · exact Or.inr (by omega)

/-- What a release does: the slot loses its header and becomes free. -/
structure ReleaseSpec (p : SizedPage) (s : Store) (index : Nat) (result : SizedPage × Store) :
    Prop where
  same : SameLayout p result.1
  header : result.1.headers index = Header.zero
  others : ∀ other, other ≠ index → result.1.headers other = p.headers other
  mappings : result.2.mappings = s.mappings
  bytes : ∀ address, address < p.indToObject index ∨ p.indToObject index + p.objectSize ≤ address →
    result.2.bytes address = s.bytes address

/-- A slot whose header names a mapping is on no list and was handed out. -/
theorem not_mem_freeSlots (holds : p.Holds bytes locals remotes bumped)
    (live : (p.headers index).isFree = false) :
    index ∉ SizedAllocator.freeSlots locals remotes bumped p.capacity := by
  intro member
  rw [holds.free index member] at live
  exact Bool.noConfusion live

theorem lt_bumped (holds : p.Holds bytes locals remotes bumped) (lt : index < p.capacity)
    (live : (p.headers index).isFree = false) : index < bumped := by
  have := holds.not_mem_freeSlots live
  rw [SizedAllocator.mem_freeSlots] at this
  omega

theorem releaseSpec (holds : p.Holds s.bytes locals remotes bumped)
    {release : SizedAllocator → Bytes → Nat → SizedAllocator × Bytes}
    (writes : ∀ address, address < p.indToObject index ∨ p.indToObject index + 8 ≤ address →
      (release p.allocator s.bytes (p.indToObject index)).2 address = s.bytes address) :
    ReleaseSpec p s index (releaseWith release p s (p.indToObject index)) := by
  have oid := holds.layout.objectToInd_slot index
  simp only [releaseWith, oid]
  refine ⟨⟨rfl, rfl, rfl, rfl, rfl, rfl⟩, ?_, ?_, rfl, ?_⟩
  · simp [setHeader, Header.clear_eq_zero]
  · intro other ne
    simp [setHeader, Function.update_of_ne ne]
  · intro address outside
    have := holds.layout.size_ge
    exact writes address (by omega)

theorem releaseLocal (holds : p.Holds s.bytes locals remotes bumped) (lt : index < p.capacity)
    (live : (p.headers index).isFree = false) :
    (p.releaseLocal s (p.indToObject index)).1.Holds (p.releaseLocal s (p.indToObject index)).2.bytes
        (index :: locals) remotes bumped ∧
      ReleaseSpec p s index (p.releaseLocal s (p.indToObject index)) := by
  have spec : ReleaseSpec p s index (p.releaseLocal s (p.indToObject index)) :=
    holds.releaseSpec fun address outside => Bytes.store64_outside outside
  have fresh : index ∉ locals ++ remotes := fun listed =>
    holds.not_mem_freeSlots live (SizedAllocator.mem_freeSlots.mpr (Or.inl listed))
  have lists := holds.lists.freeLocal (holds.lt_bumped lt live) fresh
  rw [holds.configured.slot_eq] at lists
  refine ⟨⟨holds.layout.of_same spec.same, ⟨?_, ?_⟩, lists, ?_⟩, spec⟩
  · exact holds.configured.start
  · exact holds.configured.size
  · intro other member
    by_cases equal : other = index
    · rw [equal, spec.header]
      rfl
    · rw [spec.others other equal]
      refine holds.free other ?_
      simp only [SizedAllocator.mem_freeSlots, List.cons_append, List.mem_cons, equal,
        false_or] at member ⊢
      exact member

theorem releaseRemote (holds : p.Holds s.bytes locals remotes bumped) (lt : index < p.capacity)
    (live : (p.headers index).isFree = false) :
    (p.releaseRemote s (p.indToObject index)).1.Holds
        (p.releaseRemote s (p.indToObject index)).2.bytes locals (index :: remotes) bumped ∧
      ReleaseSpec p s index (p.releaseRemote s (p.indToObject index)) := by
  have spec : ReleaseSpec p s index (p.releaseRemote s (p.indToObject index)) :=
    holds.releaseSpec fun address outside => Bytes.store64_outside outside
  have fresh : index ∉ locals ++ remotes := fun listed =>
    holds.not_mem_freeSlots live (SizedAllocator.mem_freeSlots.mpr (Or.inl listed))
  have lists := holds.lists.freeRemote (holds.lt_bumped lt live) fresh
  rw [holds.configured.slot_eq] at lists
  refine ⟨⟨holds.layout.of_same spec.same, ⟨?_, ?_⟩, lists, ?_⟩, spec⟩
  · exact holds.configured.start
  · exact holds.configured.size
  · intro other member
    by_cases equal : other = index
    · rw [equal, spec.header]
      rfl
    · rw [spec.others other equal]
      refine holds.free other ?_
      simp only [SizedAllocator.mem_freeSlots, List.mem_append, List.mem_cons, equal,
        false_or] at member ⊢
      exact member

end Holds

end SizedPage

end Alaska
