import Alaska.Runtime.Invariant

/-!
# Steps of the heap

Every operation of a thread cache is a sequence of a few changes. Here a page is added, a
place is reserved, filled or released, and an object is written. Each change keeps the
invariant, and the specifications of the operations are put together from these lemmas.
-/

namespace Alaska

open Memory Mapping

namespace Runtime

variable {rt rt' : Runtime} {objects objects' : Objects} {held held' : Option Nat}
  {pending pending' : Option Reservation} {p q m m' n tid : Nat} {object other : Object}
  {place place' : Place} {header : HugeHeader} {touched : Place → Prop}

theorem CacheHolds.evolve {table table' : HandleTable} {heap heap' : Heap} {cache : ThreadCache}
    (holds : CacheHolds table heap cache) (slabs : table.slabCount ≤ table'.slabCount)
    (evolves : Heap.Evolves heap heap' touched) : CacheHolds table' heap' cache where
  slab := Nat.lt_of_lt_of_le holds.slab slabs
  classes := by
    intro cls n found
    rcases holds.classes cls n found with ⟨lt, p, isSized, isClass⟩
    rcases evolves.sized n lt p isSized with ⟨p', isSized', sameClass⟩
    exact ⟨Nat.lt_of_lt_of_le lt evolves.count_le, p', isSized', sameClass.trans isClass⟩
  locality := by
    intro n found
    rcases holds.locality n found with ⟨lt, p, isLocality⟩
    exact ⟨Nat.lt_of_lt_of_le lt evolves.count_le, evolves.locality n lt p isLocality⟩

/-- The region of an object inside its place. -/
theorem Located.inside (located : Located rt pending m object place)
    (holds : rt.Holds objects held pending) :
    rt.heap.start ≤ rt.heap.addr place ∧
      rt.heap.addr place + object.size ≤ rt.heap.start + heapSize := by
  have inside := holds.heap.inside located.named
  have := located.room
  have := rt.heap.room_le place
  omega

/-- The region of a huge object inside its mapping. -/
theorem Mapped.inside (mapped : Mapped rt p object header) :
    header.address + HugeHeader.bytes ≤ p ∧
      p + object.size ≤ header.address + header.mappingSize := by
  have data := mapped.data
  have := mapped.room
  simp only [HugeHeader.data] at data
  omega

/-- `rt'` is `rt` after an operation of the heap that changes only places in `touched`. -/
structure HeapStep (rt rt' : Runtime) (touched : Place → Prop) : Prop where
  evolves : Heap.Evolves rt.heap rt'.heap touched
  heap : rt'.heap.Invariant rt'.store.bytes
  table : rt'.table = rt.table
  mappings : rt'.store.mappings = rt.store.mappings
  huge : rt'.huge = rt.huge
  cacheCount : rt'.cacheCount = rt.cacheCount
  caches : ∀ tid < rt.cacheCount, CacheHolds rt.table rt'.heap (rt'.caches tid)

namespace HeapStep

variable {object : Object}

theorem backing (step : HeapStep rt rt' touched) (p : Nat) : rt'.backing p = rt.backing p := by
  rw [Runtime.backing, Runtime.backing, step.mappings]

theorem mapped (step : HeapStep rt rt' touched) (mapped : Mapped rt p object header) :
    Mapped rt' p object header :=
  ⟨step.huge ▸ mapped.member, mapped.data, mapped.size, mapped.room⟩

theorem located (step : HeapStep rt rt' touched) (located : Located rt pending m object place)
    (untouched : ¬ touched place)
    (settled : ∀ reservation, pending' = some reservation → reservation.place ≠ place) :
    Located rt' pending' m object place := by
  have same := step.evolves.same place m untouched located.named
  constructor
  · rw [step.evolves.named place untouched]
    exact located.named
  · exact settled
  · rw [step.mappings, same.1]
    exact located.addr
  · rw [same.2.2]
    exact located.room

/--
A step of the heap keeps the invariant when it touches no place of a remaining object and
leaves only such places and the reserved one.
-/
theorem holds (step : HeapStep rt rt' touched) (holds : rt.Holds objects held pending)
    (fewer : ∀ p object, objects' p = some object → objects p = some object)
    (table : rt.table.Invariant rt.store.mappings (Live objects' held'))
    (fresh : ∀ m, held' = some m → objects' (toHandle m) = none)
    (kept : ∀ m object place, objects' (toHandle m) = some object →
      Located rt pending m object place →
      ¬ touched place ∧ ∀ reservation, pending' = some reservation → reservation.place ≠ place)
    (names : ∀ place m, rt'.heap.named place = some m →
      (∀ reservation, pending' = some reservation → reservation.place ≠ place) →
      ¬ touched place ∧
        (∀ reservation, pending = some reservation → reservation.place ≠ place) ∧
        ((∃ object, objects (toHandle m) = some object) →
          ∃ object, objects' (toHandle m) = some object))
    (rooms : ∀ place m, touched place → rt'.heap.named place = some m →
      rt'.heap.room place % 16 = 0 ∧ 0 < rt'.heap.room place)
    (reserved : ∀ reservation, pending' = some reservation →
      rt'.heap.named reservation.place = some reservation.mapping ∧
        rt'.heap.addr reservation.place = reservation.address ∧
        reservation.object.size ≤ rt'.heap.room reservation.place ∧
        Contains rt'.store.bytes reservation.address reservation.object)
    (bytes : ∀ p object, objects' p = some object → ∀ index < object.size,
      rt'.store.bytes (rt.backing p + index) = rt.store.bytes (rt.backing p + index)) :
    rt'.Holds objects' held' pending' where
  table := by
    rw [step.table, step.mappings]
    exact table
  heap := step.heap
  huge := by
    rw [step.huge, step.evolves.start]
    exact holds.huge
  caches := by
    rw [step.cacheCount, step.table]
    exact step.caches
  fresh := fresh
  sizes := fun p object isLive => holds.sizes p object (fewer p object isLive)
  pointers := by
    intro p object isLive
    rcases holds.pointers p object (fewer p object isLive) with isHandle | ⟨header, mapped⟩
    · exact Or.inl isHandle
    · exact Or.inr ⟨header, step.mapped mapped⟩
  located := by
    intro m object inTable isLive
    rcases holds.located m object inTable (fewer _ object isLive) with ⟨place, located⟩
    have untouched := kept m object place isLive located
    exact ⟨place, step.located located untouched.1 untouched.2⟩
  valid := by
    intro m object inTable isLive
    rw [step.mappings]
    exact holds.valid m object inTable (fewer _ object isLive)
  names := by
    intro place m isNamed settled
    rcases names place m isNamed settled with ⟨untouched, settled, survives⟩
    have named := step.evolves.named place untouched
    rw [isNamed] at named
    rcases holds.names place m named.symm settled with ⟨inTable, pointer, isLive⟩
    refine ⟨inTable, ?_, survives isLive⟩
    rw [step.mappings, (step.evolves.same place m untouched named.symm).1]
    exact pointer
  rooms := by
    intro place m isNamed
    by_cases touches : touched place
    · exact rooms place m touches isNamed
    · have named := step.evolves.named place touches
      rw [isNamed] at named
      rw [(step.evolves.same place m touches named.symm).2.2]
      exact holds.rooms place m named.symm
  reserved := reserved
  data := by
    intro p object isLive index lt byte known
    rw [step.backing, bytes p object isLive index lt]
    exact holds.data p object (fewer p object isLive) index lt byte known

end HeapStep

namespace Holds

/-- The region of an object does not meet the places of other objects. -/
theorem region_apart_place (holds : rt.Holds objects held pending)
    (isLive : objects p = some object) (isNamed : rt.heap.named place = some m')
    (foreign : ∀ m, p = toHandle m → ¬ Located rt pending m object place) :
    rt.backing p + object.size ≤ rt.heap.addr place ∨
      rt.heap.addr place + rt.heap.extent place ≤ rt.backing p := by
  rcases holds.pointer_cases isLive with ⟨m, inTable, rfl, _⟩ | ⟨_, header, mapped⟩
  · rcases holds.located m object inTable isLive with ⟨own, located⟩
    have ne : own ≠ place := by
      rintro rfl
      exact foreign m rfl located
    rw [backing_toHandle inTable, located.addr]
    have apart := holds.heap.apart located.named isNamed ne
    have := located.room
    have := rt.heap.room_le own
    omega
  · rw [holds.backing_mapped mapped]
    have inside := holds.heap.inside isNamed
    have outside := (holds.huge.bounds header mapped.member).outside
    have := mapped.inside
    omega

/-- The region of an object is inside its place or outside the heap. -/
theorem region_occupied (holds : rt.Holds objects held pending)
    (isLive : objects p = some object) {index : Nat} (lt : index < object.size) :
    rt.heap.Occupied (rt.backing p + index) ∨ rt.backing p + index < rt.heap.start ∨
      rt.heap.start + heapSize ≤ rt.backing p + index := by
  rcases holds.pointer_cases isLive with ⟨m, inTable, rfl, _⟩ | ⟨_, header, mapped⟩
  · rcases holds.located m object inTable isLive with ⟨own, located⟩
    have := located.room
    have := rt.heap.room_le own
    rw [backing_toHandle inTable, located.addr]
    exact Or.inl ⟨own, m, located.named, by omega, by omega⟩
  · rw [holds.backing_mapped mapped]
    have outside := (holds.huge.bounds header mapped.member).outside
    have := mapped.inside
    omega

/-- The regions of different objects do not overlap. -/
theorem regions_apart (holds : rt.Holds objects held pending)
    (isLive : objects p = some object) (otherLive : objects q = some other) (ne : p ≠ q) :
    rt.backing p + object.size ≤ rt.backing q ∨ rt.backing q + other.size ≤ rt.backing p := by
  rcases holds.pointer_cases otherLive with ⟨m', inTable', rfl, _⟩ | ⟨_, header', mapped'⟩
  · rcases holds.located m' other inTable' otherLive with ⟨place', located'⟩
    have apart := holds.region_apart_place isLive located'.named fun m equal located =>
      ne (equal.trans (congrArg toHandle
        (Option.some.inj (located.named.symm.trans located'.named))))
    have := located'.room
    have := rt.heap.room_le place'
    rw [backing_toHandle inTable', located'.addr]
    omega
  · rw [holds.backing_mapped mapped']
    have inside' := mapped'.inside
    have outside' := (holds.huge.bounds header' mapped'.member).outside
    rcases holds.pointer_cases isLive with ⟨m, inTable, rfl, _⟩ | ⟨_, header, mapped⟩
    · rcases holds.located m object inTable isLive with ⟨place, located⟩
      have inside := located.inside holds
      rw [backing_toHandle inTable, located.addr]
      omega
    · rw [holds.backing_mapped mapped]
      have inside := mapped.inside
      have headers : header ≠ header' := by
        rintro rfl
        exact ne (mapped.data.symm.trans mapped'.data)
      have apart := holds.huge.apart_of_ne mapped.member mapped'.member headers
      simp only [HugeObjectAllocator.Apart] at apart
      omega

/-! ### Steps of the heap -/

/-- More pages, and other pages for the thread caches. -/
theorem extend (holds : rt.Holds objects held pending) {heap' : Heap}
    {caches' : Nat → ThreadCache} (extension : Heap.Extends rt.heap heap')
    (heap : heap'.Invariant rt.store.bytes)
    (caches : ∀ tid < rt.cacheCount, CacheHolds rt.table heap' (caches' tid)) :
    Holds { rt with heap := heap', caches := caches' } objects held pending := by
  have step : HeapStep rt { rt with heap := heap', caches := caches' } fun _ => False :=
    ⟨extension.evolves, heap, rfl, rfl, rfl, rfl, caches⟩
  refine step.holds holds (fun _ _ isLive => isLive) holds.table holds.fresh ?_ ?_ ?_ ?_ ?_
  · intro m object place _ located
    exact ⟨id, located.settled⟩
  · intro place m _ settled
    exact ⟨id, settled, id⟩
  · intro place m touches
    exact touches.elim
  · intro reservation isPending
    rcases holds.reserved reservation isPending with ⟨isNamed, addr, room, contains⟩
    have same := extension.evolves.same reservation.place _ id isNamed
    refine ⟨(extension.evolves.named _ id).trans isNamed, same.1.trans addr, ?_, contains⟩
    exact room.trans (Nat.le_of_eq same.2.2.symm)
  · intro p object _ index _
    rfl

/-- The runtime after an operation on one place of page `n`. -/
theorem heapStep (holds : rt.Holds objects held pending) {page : HeapPage} {s : Store}
    {index : Nat} (lt : n < rt.heap.allocCount)
    (changed : HeapPage.Changed (rt.heap.pages n) page index)
    (heap : (rt.heap.setPage n page).Invariant s.bytes) (mappings : s.mappings = rt.store.mappings) :
    HeapStep rt { rt with heap := rt.heap.setPage n page, store := s } (· = ⟨n, index⟩) where
  evolves := Heap.evolves_of_changed lt changed
  heap := heap
  table := rfl
  mappings := mappings
  huge := rfl
  cacheCount := rfl
  caches := fun tid tid_lt =>
    (holds.caches tid tid_lt).evolve (Nat.le_refl _) (Heap.evolves_of_changed lt changed)

/-- A step on a place that names nothing before and afterwards. -/
theorem idle (holds : rt.Holds objects held pending) (step : HeapStep rt rt' (· = place))
    (before : rt.heap.named place = none) (after : rt'.heap.named place = none)
    (bytes : rt'.store.bytes = rt.store.bytes) : rt'.Holds objects held pending := by
  have unnamed : ∀ own m, rt.heap.named own = some m → own ≠ place := by
    rintro own m isNamed rfl
    rw [before] at isNamed
    exact nomatch isNamed
  refine step.holds holds (fun _ _ isLive => isLive) holds.table holds.fresh ?_ ?_ ?_ ?_ ?_
  · intro m object own _ located
    exact ⟨unnamed own m located.named, located.settled⟩
  · intro own m ownNamed settled
    refine ⟨?_, settled, id⟩
    rintro rfl
    rw [after] at ownNamed
    exact nomatch ownNamed
  · rintro _ m rfl ownNamed
    rw [after] at ownNamed
    exact nomatch ownNamed
  · intro reservation isPending
    rcases holds.reserved reservation isPending with ⟨isNamed, addr, room, contains⟩
    have ne := unnamed _ _ isNamed
    have same := step.evolves.same reservation.place _ ne isNamed
    refine ⟨(step.evolves.named _ ne).trans isNamed, same.1.trans addr,
      room.trans (Nat.le_of_eq same.2.2.symm), ?_⟩
    rw [bytes]
    exact contains
  · intro p object _ index _
    rw [bytes]

/-- A free place becomes the reserved one; the bytes of the objects stay. -/
theorem reserve (holds : rt.Holds objects held none) (step : HeapStep rt rt' (· = place))
    (before : rt.heap.named place = none) (after : rt'.heap.named place = some m)
    (room : rt'.heap.room place % 16 = 0 ∧ 0 < rt'.heap.room place)
    (bytes : ∀ address, rt.heap.Occupied address ∨ address < rt.heap.start ∨
      rt.heap.start + heapSize ≤ address → rt'.store.bytes address = rt.store.bytes address) :
    rt'.Holds objects held
      (some ⟨place, m, rt'.heap.addr place, ⟨rt'.heap.room place, fun _ => none⟩⟩) := by
  refine step.holds holds (fun _ _ isLive => isLive) holds.table holds.fresh ?_ ?_ ?_ ?_ ?_
  · intro m object own _ located
    have ne : own ≠ place := by
      rintro rfl
      have isNamed := located.named
      rw [before] at isNamed
      exact nomatch isNamed
    refine ⟨ne, ?_⟩
    rintro _ ⟨rfl⟩
    exact ne.symm
  · intro own m _ settled
    refine ⟨fun equal => settled _ rfl equal.symm, ?_, id⟩
    rintro _ ⟨⟩
  · rintro _ m rfl isNamed
    exact room
  · rintro _ ⟨rfl⟩
    exact ⟨after, rfl, Nat.le_refl _, fun _ _ _ known => nomatch known⟩
  · intro p object isLive index lt
    exact bytes _ (holds.region_occupied isLive lt)

/-- The reserved place is released. -/
theorem discard {reservation : Reservation} (holds : rt.Holds objects held (some reservation))
    (step : HeapStep rt rt' (· = reservation.place))
    (after : rt'.heap.named reservation.place = none)
    (bytes : ∀ address, address < rt.heap.addr reservation.place ∨
      rt.heap.addr reservation.place + rt.heap.extent reservation.place ≤ address →
      rt'.store.bytes address = rt.store.bytes address) : rt'.Holds objects held none := by
  have isNamed := (holds.reserved reservation rfl).1
  refine step.holds holds (fun _ _ isLive => isLive) holds.table holds.fresh ?_ ?_ ?_ ?_ ?_
  · intro m object own _ located
    refine ⟨fun equal => located.settled _ rfl equal.symm, ?_⟩
    rintro _ ⟨⟩
  · intro own m ownNamed _
    have ne : own ≠ reservation.place := by
      rintro rfl
      rw [after] at ownNamed
      exact nomatch ownNamed
    refine ⟨ne, ?_, id⟩
    rintro _ ⟨rfl⟩
    exact ne.symm
  · rintro _ m rfl ownNamed
    rw [after] at ownNamed
    exact nomatch ownNamed
  · rintro _ ⟨⟩
  · intro p object isLive index lt
    have apart := holds.region_apart_place isLive isNamed fun m _ located =>
      located.settled _ rfl rfl
    exact bytes _ (by omega)

/-- The place of a live handle is released; the operation holds on to the mapping. -/
theorem release (holds : rt.Holds objects none pending) (inTable : InTable m)
    (isLive : objects (toHandle m) = some object) (located : Located rt pending m object place)
    (step : HeapStep rt rt' (· = place)) (after : rt'.heap.named place = none)
    (bytes : ∀ address, address < rt.heap.addr place ∨
      rt.heap.addr place + rt.heap.extent place ≤ address →
      rt'.store.bytes address = rt.store.bytes address) :
    rt'.Holds (objects.remove (toHandle m)) (some m) pending := by
  have foreign : ∀ {m' other place'}, objects.remove (toHandle m) (toHandle m') = some other →
      rt.heap.named place' = some m' → place' ≠ place := by
    rintro m' other place' survives isNamed rfl
    have equal := Option.some.inj (isNamed.symm.trans located.named)
    exact (Objects.remove_eq_some.mp survives).1 (congrArg toHandle equal)
  refine step.holds holds (fun _ _ survives => (Objects.remove_eq_some.mp survives).2) ?_ ?_ ?_ ?_ ?_ ?_ ?_
  · refine holds.table.shrink ?_ ?_
    · rintro m' (⟨inTable', other, survives⟩ | isHeld)
      · exact Or.inl ⟨inTable', other, (Objects.remove_eq_some.mp survives).2⟩
      · obtain rfl := Option.some.inj isHeld
        exact Or.inl ⟨inTable, object, isLive⟩
    · rintro m' (⟨inTable', other, wasLive⟩ | isHeld) dead
      swap
      · exact nomatch isHeld
      by_cases equal : m' = m
      · exact absurd (Or.inr (congrArg some equal.symm)) dead
      · refine absurd (Or.inl ⟨inTable', other, ?_⟩) dead
        refine Objects.remove_eq_some.mpr ⟨fun same => ?_, wasLive⟩
        exact equal (toHandle_injective inTable' inTable same)
  · intro m' isHeld
    obtain rfl := Option.some.inj isHeld
    exact objects.remove_self _
  · intro m' other own survives ownLocated
    exact ⟨foreign survives ownLocated.named, ownLocated.settled⟩
  · intro own m' ownNamed settled
    have ne : own ≠ place := by
      rintro rfl
      rw [after] at ownNamed
      exact nomatch ownNamed
    refine ⟨ne, settled, ?_⟩
    rintro ⟨other, wasLive⟩
    -- only `place` names the mapping of the released object
    have before := (step.evolves.named own ne).symm.trans ownNamed
    have inTable' := (holds.names own m' before settled).1
    refine ⟨other, Objects.remove_eq_some.mpr ⟨fun same => ?_, wasLive⟩⟩
    obtain rfl := toHandle_injective inTable' inTable same
    exact ne (holds.place_unique located before settled)
  · rintro _ m' rfl ownNamed
    rw [after] at ownNamed
    exact nomatch ownNamed
  · intro reservation isPending
    rcases holds.reserved reservation isPending with ⟨isNamed, addr, room, contains⟩
    have ne := located.settled reservation isPending
    have same := step.evolves.same reservation.place _ ne isNamed
    refine ⟨(step.evolves.named _ ne).trans isNamed, same.1.trans addr,
      room.trans (Nat.le_of_eq same.2.2.symm), ?_⟩
    intro index lt byte known
    have apart := holds.heap.apart isNamed located.named ne
    have := rt.heap.room_le reservation.place
    rw [← contains index lt byte known]
    exact bytes _ (by omega)
  · intro q other survives index lt
    have apart := holds.region_apart_place (Objects.remove_eq_some.mp survives).2 located.named
      fun m' equal ownLocated => foreign (equal ▸ survives) ownLocated.named rfl
    exact bytes _ (by omega)

/-! ### Writes -/

/-- The operation writes to the reserved place. -/
theorem fill {reservation : Reservation} (holds : rt.Holds objects held (some reservation))
    {bytes' : Bytes} (fits : object.size ≤ rt.heap.room reservation.place)
    (contains : Contains bytes' reservation.address object)
    (outside : ∀ address, address < reservation.address ∨
      reservation.address + rt.heap.extent reservation.place ≤ address →
      bytes' address = rt.store.bytes address) :
    (rt.setBytes bytes').Holds objects held (some { reservation with object := object }) := by
  rcases holds.reserved reservation rfl with ⟨isNamed, addr, _, _⟩
  have heap : rt.heap.Invariant bytes' := by
    refine holds.heap.setBytes fun address => ?_
    by_cases within : reservation.address ≤ address ∧
        address < reservation.address + rt.heap.extent reservation.place
    · rw [← addr] at within
      exact Or.inr (Or.inl ⟨_, _, isNamed, within.1, within.2⟩)
    · exact Or.inl (outside address (by omega))
  have evolves := (Heap.Extends.refl rt.heap).evolves
  have step : HeapStep rt (rt.setBytes bytes') fun _ => False :=
    ⟨evolves, heap, rfl, rfl, rfl, rfl, holds.caches⟩
  refine step.holds holds (fun _ _ isLive => isLive) holds.table holds.fresh ?_ ?_ ?_ ?_ ?_
  · intro m object place _ located
    refine ⟨id, ?_⟩
    rintro _ ⟨rfl⟩
    exact located.settled reservation rfl
  · intro place m _ settled
    refine ⟨id, fun before isPending => ?_, id⟩
    obtain rfl := Option.some.inj isPending
    exact settled { reservation with object := object } rfl
  · intro place m touches
    exact touches.elim
  · rintro _ ⟨rfl⟩
    exact ⟨isNamed, addr, fits, contains⟩
  · intro p object isLive index lt
    have apart := holds.region_apart_place isLive isNamed fun m _ located =>
      located.settled _ rfl rfl
    exact outside _ (by omega)

/-- The bytes of one live object change. -/
theorem write (holds : rt.Holds objects held none) (isLive : objects p = some object)
    (sameSize : other.size = object.size) {bytes' : Bytes}
    (contains : Contains bytes' (rt.backing p) other)
    (outside : ∀ address, address < rt.backing p ∨ rt.backing p + object.size ≤ address →
      bytes' address = rt.store.bytes address) :
    (rt.setBytes bytes').Holds (objects.insert p other) held none := by
  have sizes : ∀ {q object'}, objects.insert p other q = some object' →
      ∃ before, objects q = some before ∧ object'.size = before.size := by
    intro q object' inserted
    rcases Objects.insert_eq_some.mp inserted with ⟨rfl, rfl⟩ | ⟨_, wasLive⟩
    · exact ⟨object, isLive, sameSize⟩
    · exact ⟨object', wasLive, rfl⟩
  have live : ∀ q, (∃ object', objects.insert p other q = some object') ↔
      ∃ object', objects q = some object' := by
    intro q
    constructor
    · rintro ⟨object', inserted⟩
      rcases sizes inserted with ⟨before, wasLive, _⟩
      exact ⟨before, wasLive⟩
    · rintro ⟨before, wasLive⟩
      by_cases equal : q = p
      · exact ⟨other, Objects.insert_eq_some.mpr (Or.inl ⟨equal, rfl⟩)⟩
      · exact ⟨before, Objects.insert_eq_some.mpr (Or.inr ⟨equal, wasLive⟩)⟩
  constructor
  · have same : Live (objects.insert p other) held = Live objects held := by
      funext m
      simp only [Live, live]
    rw [same]
    exact holds.table
  · refine holds.heap.setBytes fun address => ?_
    by_cases within : rt.backing p ≤ address ∧ address < rt.backing p + object.size
    · have inside : address - rt.backing p < object.size := by omega
      have occupied := holds.region_occupied isLive inside
      rw [Nat.add_sub_of_le within.1] at occupied
      exact Or.inr occupied
    · exact Or.inl (outside address (by omega))
  · exact holds.huge
  · exact holds.caches
  · intro m isHeld
    have dead := holds.fresh m isHeld
    by_contra alive
    rcases (live _).mp (Option.ne_none_iff_exists'.mp alive) with ⟨object', isObject⟩
    rw [dead] at isObject
    exact nomatch isObject
  · intro q object' inserted
    rcases sizes inserted with ⟨before, wasLive, size⟩
    rw [size]
    exact holds.sizes q before wasLive
  · intro q object' inserted
    rcases sizes inserted with ⟨before, wasLive, size⟩
    rcases holds.pointers q before wasLive with isHandle | ⟨header, mapped⟩
    · exact Or.inl isHandle
    · refine Or.inr ⟨header, mapped.member, mapped.data, ?_, ?_⟩
      · rw [size]
        exact mapped.size
      · rw [size]
        exact mapped.room
  · intro m object' inTable inserted
    rcases sizes inserted with ⟨before, wasLive, size⟩
    rcases holds.located m before inTable wasLive with ⟨place, located⟩
    refine ⟨place, located.named, located.settled, located.addr, ?_⟩
    rw [size]
    exact located.room
  · intro m object' inTable inserted
    rcases sizes inserted with ⟨before, wasLive, _⟩
    exact holds.valid m before inTable wasLive
  · intro place m isNamed settled
    rcases holds.names place m isNamed settled with ⟨inTable, pointer, wasLive⟩
    exact ⟨inTable, pointer, (live _).mpr wasLive⟩
  · exact holds.rooms
  · rintro _ ⟨⟩
  · intro q object' inserted index lt byte known
    rcases Objects.insert_eq_some.mp inserted with ⟨rfl, rfl⟩ | ⟨ne, wasLive⟩
    · exact contains index lt byte known
    · have apart := holds.regions_apart wasLive isLive ne
      rw [← holds.data q object' wasLive index lt byte known]
      have here : (rt.setBytes bytes').backing q = rt.backing q := rfl
      exact outside _ (by omega)

end Holds

end Runtime

end Alaska
