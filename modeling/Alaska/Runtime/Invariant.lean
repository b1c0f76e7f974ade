import Alaska.Runtime.Client
import Alaska.Runtime.Places

/-!
# The invariant of the runtime

`Runtime.Holds` relates the whole state of the runtime to the client's objects: every live
handle has exactly one place on the heap, every place belongs to a live handle, and the
bytes the client knows are in the place. In the middle of an operation one mapping may be
`held`, allocated but without an object, and one place may be `reserved`, named by a header
that no mapping points to yet.
-/

namespace Alaska

open Memory Mapping

/-- A place an operation reserved for mapping `mapping`, with the bytes it put there. -/
structure Reservation where
  place : Place
  mapping : Nat
  address : Nat
  object : Object

namespace HugeObjectAllocator

/-- The mappings of huge objects are page aligned user memory outside the heap. -/
structure Bounds (heapStart : Nat) (header : HugeHeader) : Prop where
  pos : 0 < header.address
  aligned : header.address % 4096 = 0
  below : header.address + header.mappingSize ≤ 2 ^ 47
  size_ge : 4096 ≤ header.mappingSize
  outside : header.address + header.mappingSize ≤ heapStart ∨
    heapStart + heapSize ≤ header.address

/-- Two mappings do not overlap. -/
def Apart (header other : HugeHeader) : Prop :=
  header.address + header.mappingSize ≤ other.address ∨
    other.address + other.mappingSize ≤ header.address

structure Holds (huge : HugeObjectAllocator) (heapStart : Nat) : Prop where
  bounds : ∀ header ∈ huge, Bounds heapStart header
  apart : huge.Pairwise Apart

variable {huge : HugeObjectAllocator} {heapStart : Nat} {header other : HugeHeader}

instance : Std.Symm Apart := ⟨fun _ _ => Or.symm⟩

theorem Holds.apart_of_ne (holds : huge.Holds heapStart) (member : header ∈ huge)
    (otherMember : other ∈ huge) (ne : header ≠ other) : Apart header other :=
  holds.apart.forall member otherMember ne

/-- The data pointer determines the header. -/
theorem Holds.header_ext (holds : huge.Holds heapStart) (member : header ∈ huge)
    (otherMember : other ∈ huge) (equal : header.data = other.data) : header = other := by
  by_contra ne
  have apart := holds.apart_of_ne member otherMember ne
  have := (holds.bounds header member).size_ge
  have := (holds.bounds other otherMember).size_ge
  simp only [HugeHeader.data, Apart] at equal apart
  omega

theorem Holds.findHeader_eq (holds : huge.Holds heapStart) (member : header ∈ huge) :
    huge.findHeader header.data = some header := by
  cases found : huge.findHeader header.data with
  | none =>
      have := List.find?_eq_none.mp found header member
      simp at this
  | some other =>
      have equal : other.data = header.data := by simpa using List.find?_some found
      rw [holds.header_ext (List.mem_of_find?_eq_some found) member equal]

theorem Holds.erase (holds : huge.Holds heapStart) (header : HugeHeader) :
    Holds (huge.erase header) heapStart where
  bounds := fun other member => holds.bounds other (List.mem_of_mem_erase member)
  apart := holds.apart.sublist List.erase_sublist

/-- No mapping is registered twice. -/
theorem Holds.nodup (holds : huge.Holds heapStart) : huge.Nodup := by
  refine holds.apart.imp_of_mem ?_
  rintro header _ member _ apart rfl
  have := (holds.bounds header member).size_ge
  simp only [Apart] at apart
  omega

end HugeObjectAllocator

namespace Runtime

/-- The mappings in use: those of live handles and the one an operation holds. -/
def Live (objects : Objects) (held : Option Nat) (m : Nat) : Prop :=
  (InTable m ∧ ∃ object, objects (toHandle m) = some object) ∨ held = some m

/-- Pages and slab of a thread cache are of the kinds the cache takes them for. -/
structure CacheHolds (table : HandleTable) (heap : Heap) (cache : ThreadCache) : Prop where
  slab : cache.handleSlab < table.slabCount
  classes : ∀ cls n, cache.sizeClasses cls = some n →
    n < heap.allocCount ∧ ∃ p, heap.pages n = .sized p ∧ p.sizeClass = cls
  locality : ∀ n, cache.localityPage = some n →
    n < heap.allocCount ∧ ∃ p, heap.pages n = .locality p

/-- The bytes the client knows are at `address`. -/
def Contains (bytes : Bytes) (address : Nat) (object : Object) : Prop :=
  ∀ index < object.size, ∀ byte, object.data index = some byte → bytes (address + index) = byte

/-- A live handle names the object in `place`. -/
structure Located (rt : Runtime) (pending : Option Reservation) (m : Nat) (object : Object)
    (place : Place) : Prop where
  named : rt.heap.named place = some m
  settled : ∀ reservation, pending = some reservation → reservation.place ≠ place
  addr : (rt.store.mappings m).getPointer = rt.heap.addr place
  room : object.size ≤ rt.heap.room place

/-- A live huge pointer is the data of `header`. -/
structure Mapped (rt : Runtime) (p : Nat) (object : Object) (header : HugeHeader) : Prop where
  member : header ∈ rt.huge
  data : header.data = p
  size : header.allocationSize = object.size
  room : object.size + HugeHeader.bytes ≤ header.mappingSize

structure Holds (rt : Runtime) (objects : Objects) (held : Option Nat)
    (pending : Option Reservation) : Prop where
  table : rt.table.Invariant rt.store.mappings (Live objects held)
  heap : rt.heap.Invariant rt.store.bytes
  huge : rt.huge.Holds rt.heap.start
  caches : ∀ tid < rt.cacheCount, CacheHolds rt.table rt.heap (rt.caches tid)
  fresh : ∀ m, held = some m → objects (toHandle m) = none
  sizes : ∀ p object, objects p = some object → 0 < object.size
  pointers : ∀ p object, objects p = some object →
    (∃ m, InTable m ∧ p = toHandle m) ∨ ∃ header, Mapped rt p object header
  located : ∀ m object, InTable m → objects (toHandle m) = some object →
    ∃ place, Located rt pending m object place
  valid : ∀ m object, InTable m → objects (toHandle m) = some object →
    (rt.store.mappings m).isFree = false
  names : ∀ place m, rt.heap.named place = some m →
    (∀ reservation, pending = some reservation → reservation.place ≠ place) →
    InTable m ∧ (rt.store.mappings m).getPointer = rt.heap.addr place ∧
      ∃ object, objects (toHandle m) = some object
  rooms : ∀ place m, rt.heap.named place = some m →
    rt.heap.room place % 16 = 0 ∧ 0 < rt.heap.room place
  reserved : ∀ reservation, pending = some reservation →
    rt.heap.named reservation.place = some reservation.mapping ∧
      rt.heap.addr reservation.place = reservation.address ∧
      reservation.object.size ≤ rt.heap.room reservation.place ∧
      Contains rt.store.bytes reservation.address reservation.object
  data : ∀ p object, objects p = some object → Contains rt.store.bytes (rt.backing p) object

variable {rt : Runtime} {objects : Objects} {held : Option Nat} {pending : Option Reservation}
  {p q m m' n : Nat} {object other : Object} {place place' : Place} {header : HugeHeader}

@[simp]
theorem backing_toHandle (inTable : InTable m) :
    rt.backing (toHandle m) = (rt.store.mappings m).getPointer := by
  rw [backing, fromHandleSafe_toHandle inTable]

theorem backing_user (user : fromHandleSafe p = none) : rt.backing p = p := by
  rw [backing, user]

theorem toHandle_ne_of_user (user : fromHandleSafe p = none) (inTable : InTable m) :
    toHandle m ≠ p := by
  rintro rfl
  rw [fromHandleSafe_toHandle inTable] at user
  exact nomatch user

namespace Holds

theorem fromHandleSafe_mapped (holds : rt.Holds objects held pending)
    (mapped : Mapped rt p object header) : fromHandleSafe p = none := by
  have bounds := holds.huge.bounds header mapped.member
  have := bounds.below
  have := bounds.size_ge
  have data := mapped.data
  simp only [HugeHeader.data, HugeHeader.bytes] at data
  exact fromHandleSafe_of_lt (by omega)

theorem backing_mapped (holds : rt.Holds objects held pending)
    (mapped : Mapped rt p object header) : rt.backing p = p :=
  backing_user (holds.fromHandleSafe_mapped mapped)

/-- A live pointer is that of a mapping or of a header, as its sign bit says. -/
theorem pointer_cases (holds : rt.Holds objects held pending) (isLive : objects p = some object) :
    (∃ m, InTable m ∧ p = toHandle m ∧ fromHandleSafe p = some m) ∨
      fromHandleSafe p = none ∧ ∃ header, Mapped rt p object header := by
  rcases holds.pointers p object isLive with ⟨m, inTable, rfl⟩ | ⟨header, mapped⟩
  · exact Or.inl ⟨m, inTable, rfl, fromHandleSafe_toHandle inTable⟩
  · exact Or.inr ⟨holds.fromHandleSafe_mapped mapped, header, mapped⟩

/-- The place of a live handle is the only settled one that names its mapping. -/
theorem place_unique (holds : rt.Holds objects held pending)
    (located : Located rt pending m object place) (isNamed : rt.heap.named place' = some m)
    (settled : ∀ reservation, pending = some reservation → reservation.place ≠ place') :
    place' = place := by
  have pointer := (holds.names place' m isNamed settled).2.1
  exact holds.heap.place_ext isNamed located.named (pointer.symm.trans located.addr)

end Holds

end Runtime

end Alaska
