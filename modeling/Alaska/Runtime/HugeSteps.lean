import Alaska.Runtime.MappingSteps

/-!
# Steps of the huge objects

A huge object is live from its allocation on, with nothing but zeros in it. The arithmetic
of the allocator wraps for requests close to 2^64, for which the mapping is smaller than
the object; `FitsMapping` excludes them.
-/

namespace Alaska

open Memory Mapping

namespace Runtime

open HugeObjectAllocator

variable {rt rt' : Runtime} {objects : Objects} {held : Option Nat}
  {pending : Option Reservation} {p m size address : Nat} {object : Object}

/-- An operation of the huge object allocator that does not write to an object. -/
structure HugeStep (rt rt' : Runtime) : Prop where
  table : rt'.table = rt.table
  heap : rt'.heap = rt.heap
  mappings : rt'.store.mappings = rt.store.mappings
  cacheCount : rt'.cacheCount = rt.cacheCount
  caches : rt'.caches = rt.caches

namespace Holds

/-- A fresh mapping does not overlap any object. -/
theorem fresh_apart (holds : rt.Holds objects held pending) (fresh : rt.Fresh address size)
    (isLive : objects p = some object) :
    rt.backing p + object.size ≤ address ∨ address + size ≤ rt.backing p := by
  rcases fresh with ⟨_, _, _, outside, _, apart⟩
  rcases holds.pointer_cases isLive with ⟨m, inTable, rfl, _⟩ | ⟨_, header, isMapped⟩
  · rcases holds.located m object inTable isLive with ⟨place, located⟩
    have inside := located.inside holds
    rw [backing_toHandle inTable, located.addr]
    omega
  · have inside := isMapped.inside
    have := apart header isMapped.member
    rw [holds.backing_mapped isMapped]
    omega

/-- The data pointer of a fresh mapping is no live pointer. -/
theorem fresh_dead (holds : rt.Holds objects held pending) (fresh : rt.Fresh address size)
    (size_ge : 4096 ≤ size) (user : fromHandleSafe (address + HugeHeader.bytes) = none) :
    objects (address + HugeHeader.bytes) = none := by
  rcases fresh with ⟨_, _, _, _, _, apart⟩
  by_contra alive
  rcases Option.ne_none_iff_exists'.mp alive with ⟨other, isLive⟩
  rcases holds.pointers _ other isLive with ⟨m, inTable, equal⟩ | ⟨header, isMapped⟩
  · exact toHandle_ne_of_user user inTable equal.symm
  · have data := isMapped.data
    have := apart header isMapped.member
    have := (holds.huge.bounds header isMapped.member).size_ge
    simp only [HugeHeader.data] at data
    omega

/-- A new huge pointer does not change the mappings in use. -/
theorem live_insert_user (user : fromHandleSafe p = none) :
    Live (objects.insert p object) held = Live objects held := by
  funext m
  apply propext
  constructor
  · rintro (⟨inTable, other, inserted⟩ | isHeld)
    · rcases Objects.insert_eq_some.mp inserted with ⟨equal, _⟩ | ⟨_, isLive⟩
      · exact absurd equal (toHandle_ne_of_user user inTable)
      · exact Or.inl ⟨inTable, other, isLive⟩
    · exact Or.inr isHeld
  · rintro (⟨inTable, other, isLive⟩ | isHeld)
    · exact Or.inl ⟨inTable, other, Objects.insert_eq_some.mpr
        (Or.inr ⟨toHandle_ne_of_user user inTable, isLive⟩)⟩
    · exact Or.inr isHeld

/-- `huge_allocator.allocate` makes its result a live object. -/
theorem hugeAllocate {result : Nat × Runtime} (holds : rt.Holds objects none none)
    (pos : 0 < object.size) (fits : FitsMapping object.size)
    (zero : ∀ index byte, object.data index = some byte → byte = 0)
    (allocated : rt.hugeAllocate object.size address = some result) :
    HugeStep rt result.2 ∧ objects result.1 = none ∧ fromHandleSafe result.1 = none ∧
      result.2.Holds (objects.insert result.1 object) none none := by
  have room := mappingSize_ge fits
  have size_ge := mappingSize_pos object.size
  simp only [Runtime.hugeAllocate, HugeObjectAllocator.allocate, HugeHeader.data] at allocated
  generalize mappingSize object.size = mapped at allocated room size_ge
  split at allocated
  swap
  · cases allocated
  next fresh =>
  obtain rfl := Option.some.inj allocated
  have dead := holds.fresh_dead fresh size_ge
  have objectsApart := fun {q other} => @holds.fresh_apart _ _ _ _ q _ _ other fresh
  rcases fresh with ⟨addressPos, aligned, below, outside, _, apart⟩
  have user : fromHandleSafe (address + HugeHeader.bytes) = none := by
    have bytes : HugeHeader.bytes = 32 := rfl
    exact fromHandleSafe_of_lt (by omega)
  have kept : ∀ other, (other < address ∨ address + mapped ≤ other) →
      rt.store.bytes.memset address 0 mapped other = rt.store.bytes other :=
    fun other out => Bytes.memset_outside out
  refine ⟨⟨rfl, rfl, rfl, rfl, rfl⟩, dead user, user, ?_⟩
  constructor
  · have live : Live (objects.insert (address + HugeHeader.bytes) object) none =
        Live objects none := live_insert_user user
    exact live ▸ holds.table
  · refine holds.heap.setBytes fun other => ?_
    by_cases within : address ≤ other ∧ other < address + mapped
    · exact Or.inr (Or.inr (by omega))
    · exact Or.inl (kept other (by omega))
  · constructor
    · intro header member
      rcases List.mem_cons.mp member with rfl | member
      · exact ⟨addressPos, aligned, below, size_ge, outside⟩
      · exact holds.huge.bounds header member
    · exact List.pairwise_cons.mpr ⟨apart, holds.huge.apart⟩
  · exact holds.caches
  · rintro _ ⟨⟩
  · intro q other inserted
    rcases Objects.insert_eq_some.mp inserted with ⟨_, rfl⟩ | ⟨_, isLive⟩
    · exact pos
    · exact holds.sizes q other isLive
  · intro q other inserted
    rcases Objects.insert_eq_some.mp inserted with ⟨rfl, rfl⟩ | ⟨_, isLive⟩
    · exact Or.inr ⟨_, List.mem_cons_self, rfl, rfl, room⟩
    · rcases holds.pointers q other isLive with isHandle | ⟨header, isMapped⟩
      · exact Or.inl isHandle
      · exact Or.inr ⟨header, List.mem_cons_of_mem _ isMapped.member, isMapped.data,
          isMapped.size, isMapped.room⟩
  · intro m other inTable inserted
    rcases Objects.insert_eq_some.mp inserted with ⟨equal, _⟩ | ⟨_, isLive⟩
    · exact absurd equal (toHandle_ne_of_user user inTable)
    · rcases holds.located m other inTable isLive with ⟨place, located⟩
      exact ⟨place, located.named, located.settled, located.addr, located.room⟩
  · intro m other inTable inserted
    rcases Objects.insert_eq_some.mp inserted with ⟨equal, _⟩ | ⟨_, isLive⟩
    · exact absurd equal (toHandle_ne_of_user user inTable)
    · exact holds.valid m other inTable isLive
  · intro place m isNamed settled
    rcases holds.names place m isNamed settled with ⟨inTable, pointer, other, isLive⟩
    exact ⟨inTable, pointer, other, Objects.insert_eq_some.mpr
      (Or.inr ⟨toHandle_ne_of_user user inTable, isLive⟩)⟩
  · exact holds.rooms
  · rintro _ ⟨⟩
  · intro q other inserted index lt byte known
    rcases Objects.insert_eq_some.mp inserted with ⟨rfl, rfl⟩ | ⟨_, isLive⟩
    · rw [backing_user user, zero index byte known]
      exact Bytes.memset_inside (by omega) (by omega)
    · rw [← holds.data q other isLive index lt byte known]
      have := objectsApart isLive
      exact kept (rt.backing q + index) (by omega)

/-- A huge pointer that its owner gives up. -/
theorem forget (holds : rt.Holds objects none none) (user : fromHandleSafe p = none) :
    rt.Holds (objects.remove p) none none where
  table := by
    have live : Live (objects.remove p) none = Live objects none := by
      funext m
      apply propext
      constructor
      · rintro (⟨inTable, other, survives⟩ | isHeld)
        · exact Or.inl ⟨inTable, other, (Objects.remove_eq_some.mp survives).2⟩
        · cases isHeld
      · rintro (⟨inTable, other, isLive⟩ | isHeld)
        · exact Or.inl ⟨inTable, other, Objects.remove_eq_some.mpr
            ⟨toHandle_ne_of_user user inTable, isLive⟩⟩
        · cases isHeld
    exact live ▸ holds.table
  heap := holds.heap
  huge := holds.huge
  caches := holds.caches
  fresh := by rintro _ ⟨⟩
  sizes := fun q other survives => holds.sizes q other (Objects.remove_eq_some.mp survives).2
  pointers := fun q other survives =>
    holds.pointers q other (Objects.remove_eq_some.mp survives).2
  located := fun m other inTable survives =>
    holds.located m other inTable (Objects.remove_eq_some.mp survives).2
  valid := fun m other inTable survives =>
    holds.valid m other inTable (Objects.remove_eq_some.mp survives).2
  names := by
    intro place m isNamed settled
    rcases holds.names place m isNamed settled with ⟨inTable, pointer, other, isLive⟩
    exact ⟨inTable, pointer, other, Objects.remove_eq_some.mpr
      ⟨toHandle_ne_of_user user inTable, isLive⟩⟩
  rooms := holds.rooms
  reserved := holds.reserved
  data := fun q other survives => holds.data q other (Objects.remove_eq_some.mp survives).2

theorem mem_free {huge : HugeObjectAllocator} {header : HugeHeader} (member : header ∈ huge)
    (ne : header.data ≠ p) : header ∈ (huge.free p).2 := by
  rw [HugeObjectAllocator.free]
  split
  · exact member
  · next other found =>
      have data : other.data = p := by simpa using List.find?_some found
      refine (List.mem_erase_of_ne ?_).mpr member
      rintro rfl
      exact ne data

/-- `huge_allocator.free` of a pointer that is not live. -/
theorem hugeFree (holds : rt.Holds objects none none) (dead : objects p = none) :
    (rt.hugeFree p).Holds objects none none where
  table := holds.table
  heap := holds.heap
  huge := by
    have free : (rt.huge.free p).2.Holds rt.heap.start := by
      rw [HugeObjectAllocator.free]
      split
      · exact holds.huge
      · exact holds.huge.erase _
    exact free
  caches := holds.caches
  fresh := holds.fresh
  sizes := holds.sizes
  pointers := by
    intro q object isLive
    rcases holds.pointers q object isLive with isHandle | ⟨header, mapped⟩
    · exact Or.inl isHandle
    · have ne : header.data ≠ p := by
        rintro rfl
        rw [mapped.data, isLive] at dead
        cases dead
      exact Or.inr ⟨header, mem_free mapped.member ne, mapped.data, mapped.size, mapped.room⟩
  located := by
    intro m object inTable isLive
    rcases holds.located m object inTable isLive with ⟨place, located⟩
    exact ⟨place, located.named, located.settled, located.addr, located.room⟩
  valid := holds.valid
  names := holds.names
  rooms := holds.rooms
  reserved := holds.reserved
  data := holds.data

end Holds

end Runtime

end Alaska
