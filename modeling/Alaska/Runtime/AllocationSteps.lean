import Alaska.Runtime.BackingSteps

/-!
# Allocation and release

`halloc` takes a mapping, reserves a place, fills it and sets the mapping to it; `hfree`
goes back the same way. Both keep the invariant of the runtime and change the client's
objects as the map says.
-/

namespace Alaska

open Memory Mapping HugeObjectAllocator

namespace Runtime

variable {rt rt' rt'' : Runtime} {objects : Objects} {held : Option Nat}
  {pending : Option Reservation} {p m n cls tid size address ptr : Nat} {object : Object}
  {place : Place} {bytes' : Bytes} {r : Nat × Runtime}

/-! ## The number of slabs -/

theorem table_newSizedPage (found : rt.newSizedPage tid cls = some r) : r.2.table = rt.table := by
  simp only [newSizedPage, Option.bind_eq_bind, Option.bind_eq_some_iff, Prod.exists] at found
  rcases found with ⟨n, heap', _, rest⟩
  split at rest
  · obtain rfl := Option.some.inj rest
    rfl
  · cases rest

theorem table_newLocalityPage (found : rt.newLocalityPage tid size = some r) :
    r.2.table = rt.table := by
  simp only [newLocalityPage, Option.bind_eq_bind, Option.bind_eq_some_iff, Prod.exists] at found
  rcases found with ⟨n, heap', _, rest⟩
  split at rest
  · obtain rfl := Option.some.inj rest
    rfl
  · cases rest

theorem table_sizedAlloc (allocated : rt.sizedAlloc n m size = some r) :
    r.2.table = rt.table := by
  simp only [sizedAlloc] at allocated
  split at allocated
  · obtain rfl := Option.some.inj allocated
    rfl
  · cases allocated

theorem table_allocateBackingData (allocated : rt.allocateBackingData tid m size = some r) :
    r.2.table = rt.table := by
  simp only [allocateBackingData, Option.bind_eq_bind, Option.bind_eq_some_iff, Prod.exists]
    at allocated
  rcases allocated with ⟨page, rt₁, current, ptr, rt₂, first, rest⟩
  have same : rt₂.table = rt.table := by
    refine (table_sizedAlloc first).trans ?_
    simp only [currentSizedPage] at current
    split at current
    · obtain rfl := (Prod.mk.inj (Option.some.inj current)).2
      rfl
    · exact table_newSizedPage current
  split at rest
  · simp only [Option.bind_eq_some_iff, Prod.exists] at rest
    rcases rest with ⟨page', rt₃, exchanged, ptr', rt₄, second, final⟩
    split at final
    · cases final
    · obtain rfl := Option.some.inj final
      exact ((table_sizedAlloc second).trans (table_newSizedPage exchanged)).trans same
  · obtain rfl := Option.some.inj rest
    exact same

theorem table_release {isLocal : Bool} (released : rt.release n ptr isLocal = some rt') :
    rt'.table = rt.table := by
  simp only [release] at released
  split at released
  · obtain rfl := Option.some.inj released
    rfl
  · rcases Option.map_eq_some_iff.mp released with ⟨_, _, rfl⟩
    rfl

theorem table_freeOn {page : Option Nat} (released : rt.freeOn tid ptr page = some rt') :
    rt'.table = rt.table := by
  cases page with
  | none =>
      obtain rfl := Option.some.inj released
      rfl
  | some n => exact table_release released

theorem table_freeAllocation (released : rt.freeAllocation tid m = some rt') :
    rt'.table = rt.table :=
  table_freeOn released

theorem table_hugeAllocate (allocated : rt.hugeAllocate size address = some r) :
    r.2.table = rt.table := by
  simp only [hugeAllocate] at allocated
  split at allocated
  · obtain rfl := Option.some.inj allocated
    rfl
  · cases allocated

theorem slabCount_put (taken : rt.put tid m = some rt') :
    rt'.table.slabCount = rt.table.slabCount := by
  simp only [put, HandleTable.put, Option.map_eq_some_iff] at taken
  rcases taken with ⟨table, found, rfl⟩
  split at found
  · obtain rfl := Option.some.inj found
    rfl
  · cases found

/-! ## Sizes -/

namespace Holds

/-- The page of a place knows the size of its object. -/
theorem sizeOf_place (holds : rt.Holds objects held none) (isNamed : rt.heap.named place = some m) :
    rt.sizeOf place.page (rt.heap.addr place) = some (rt.heap.room place) := by
  rcases place with ⟨n, index⟩
  rcases Heap.named_eq_some.mp isNamed with ⟨lt, pageNamed⟩
  have valid := holds.heap.valid n lt
  simp only at lt pageNamed
  simp only [Runtime.sizeOf, Heap.addr, Heap.room]
  cases isPage : rt.heap.pages n with
  | sized page =>
      rw [isPage] at valid pageNamed
      rcases valid with ⟨locals, remotes, bumped, pageHolds⟩
      have slot := pageHolds.layout.objectToInd_slot index
      simp only [HeapPage.addr, HeapPage.room, SizedPage.sizeOf, slot]
  | locality page =>
      rw [isPage] at valid pageNamed
      have backed := holds.backed_locality lt isPage (by rintro _ ⟨⟩)
      exact (LocalityPage.Holds.toIntact valid).sizeOf_start backed
        (LocalityPage.named_eq_some.mp pageNamed).1

/-- The header of a live huge pointer. -/
theorem sizeOf_mapped {header : HugeHeader} (holds : rt.Holds objects held pending)
    (mapped : Mapped rt p object header) : rt.huge.sizeOf p = object.size := by
  have found := holds.huge.findHeader_eq mapped.member
  rw [mapped.data] at found
  rw [HugeObjectAllocator.sizeOf, found]
  exact mapped.size

/-- `get_size` of a live pointer is at least the size of its object. -/
theorem getSize_live (holds : rt.Holds objects none none) (isLive : objects p = some object) :
    ∃ size, rt.getSize p = some size ∧ object.size ≤ size ∧ size ≤ 2 ^ 47 := by
  rcases holds.pointer_cases isLive with ⟨m, inTable, rfl, isHandle⟩ | ⟨notHandle, header, mapped⟩
  · rcases holds.located m object inTable isLive with ⟨place, located⟩
    have page := holds.heap.getUnaligned_addr located.named
    have lookup : rt.getSize (toHandle m) =
        rt.sizeOn (rt.store.mappings m).getPointer
          (rt.heap.getUnaligned (rt.store.mappings m).getPointer) := by
      rw [Runtime.getSize, isHandle]
      exact if_neg (by simp [holds.valid m object inTable isLive])
    refine ⟨rt.heap.room place, ?_, located.room, ?_⟩
    · rw [lookup, located.addr, page]
      exact holds.sizeOf_place located.named
    · have inside := holds.heap.inside located.named
      have room := rt.heap.room_le place
      have below := holds.heap.placed.below
      omega
  · refine ⟨object.size, ?_, Nat.le_refl _, ?_⟩
    · rw [Runtime.getSize, notHandle]
      exact congrArg some (holds.sizeOf_mapped mapped)
    · have room := mapped.room
      have below := (holds.huge.bounds header mapped.member).below
      omega

end Holds

/-! ## The registered huge objects -/

@[simp]
theorem huge_setPointer (rt : Runtime) (m pointer : Nat) :
    (rt.setPointer m pointer).huge = rt.huge :=
  rfl

@[simp]
theorem huge_memcpy (rt : Runtime) (destination source size : Nat) :
    (rt.memcpy destination source size).huge = rt.huge :=
  rfl

namespace Holds

/-- `huge_allocator.allocate` registers its result, which was not registered before. -/
theorem owns_hugeAllocate (holds : rt.Holds objects held pending)
    (allocated : rt.hugeAllocate size address = some r) :
    (∀ q, r.2.huge.owns q = true ↔ rt.huge.owns q = true ∨ q = r.1) ∧
      ¬ rt.huge.owns r.1 = true := by
  simp only [Runtime.hugeAllocate, Option.ite_none_right_eq_some, Option.some.injEq] at allocated
  rcases allocated with ⟨fresh, rfl⟩
  have size_ge := mappingSize_pos size
  generalize mappingSize size = mapped at fresh size_ge
  rcases fresh with ⟨_, _, _, _, _, apart⟩
  constructor
  · intro q
    simp only [owns_iff, Runtime.memset, setBytes, HugeObjectAllocator.allocate, List.mem_cons]
    constructor
    · rintro ⟨header, rfl | member, isData⟩
      · exact Or.inr isData.symm
      · exact Or.inl ⟨header, member, isData⟩
    · rintro (⟨header, member, isData⟩ | rfl)
      · exact ⟨header, Or.inr member, isData⟩
      · exact ⟨_, Or.inl rfl, rfl⟩
  · rw [owns_iff]
    rintro ⟨header, member, same⟩
    have := apart header member
    have := (holds.huge.bounds header member).size_ge
    simp only [HugeObjectAllocator.allocate, HugeHeader.data] at same
    omega

/-- `huge_allocator.free` removes the one header of its pointer. -/
theorem owns_hugeFree (holds : rt.Holds objects held pending) (q : Nat) :
    (rt.hugeFree p).huge.owns q = true ↔ rt.huge.owns q = true ∧ q ≠ p := by
  simp only [owns_iff, Runtime.hugeFree]
  constructor
  · rintro ⟨header, member, rfl⟩
    rw [HugeObjectAllocator.free] at member
    split at member
    · next unknown =>
        refine ⟨⟨header, member, rfl⟩, fun same => ?_⟩
        have found := holds.huge.findHeader_eq member
        rw [same, unknown] at found
        cases found
    · next other found =>
        have kept := List.mem_of_mem_erase member
        refine ⟨⟨header, kept, rfl⟩, fun same => ?_⟩
        have again := holds.huge.findHeader_eq kept
        rw [same, found] at again
        obtain rfl := Option.some.inj again
        exact holds.huge.nodup.not_mem_erase member
  · rintro ⟨⟨header, member, rfl⟩, ne⟩
    exact ⟨header, mem_free member ne, rfl⟩

end Holds

/-! ## What an operation leaves alone -/

/-- The live pointers keep their backing, and no thread cache goes away. -/
structure Keeps (rt rt' : Runtime) (objects : Objects) : Prop where
  backing : ∀ p object, objects p = some object → rt'.backing p = rt.backing p
  cacheCount : rt.cacheCount ≤ rt'.cacheCount

namespace Keeps

theorem refl (rt : Runtime) (objects : Objects) : Keeps rt rt objects :=
  ⟨fun _ _ _ => rfl, Nat.le_refl _⟩

theorem trans (first : Keeps rt rt' objects) (second : Keeps rt' rt'' objects) :
    Keeps rt rt'' objects where
  backing p object isLive := (second.backing p object isLive).trans (first.backing p object isLive)
  cacheCount := first.cacheCount.trans second.cacheCount

theorem setBytes (rt : Runtime) (objects : Objects) (bytes' : Bytes) :
    Keeps rt (rt.setBytes bytes') objects :=
  ⟨fun _ _ _ => rfl, Nat.le_refl _⟩

/-- Setting a mapping only moves its own object. -/
theorem setPointer_remove (holds : rt.Holds objects held pending) (m ptr : Nat) :
    Keeps rt (rt.setPointer m ptr) (objects.remove (toHandle m)) := by
  refine ⟨fun p object survives => ?_, Nat.le_refl _⟩
  rcases Objects.remove_eq_some.mp survives with ⟨ne, isLive⟩
  exact holds.backing_setPointer_of_ne ne isLive

/-- Setting a mapping that names no object. -/
theorem setPointer (holds : rt.Holds objects held pending) (dead : objects (toHandle m) = none)
    (ptr : Nat) : Keeps rt (rt.setPointer m ptr) objects := by
  have others := setPointer_remove holds m ptr
  rwa [Objects.remove, ← dead, Function.update_eq_self] at others

/-- Fewer objects are left alone as well. -/
theorem remove (keeps : Keeps rt rt' objects) (p : Nat) : Keeps rt rt' (objects.remove p) :=
  ⟨fun q object survives => keeps.backing q object (Objects.remove_eq_some.mp survives).2,
    keeps.cacheCount⟩

end Keeps

theorem TableStep.keeps (step : TableStep rt rt' objects) (holds : rt.Holds objects held pending) :
    Keeps rt rt' objects :=
  ⟨fun _ _ isLive => step.backing holds isLive, step.cacheCount⟩

theorem SameTable.keeps (same : SameTable rt rt') (objects : Objects) : Keeps rt rt' objects :=
  ⟨fun p _ _ => same.backing p, Nat.le_of_eq same.cacheCount.symm⟩

theorem HugeStep.keeps (step : HugeStep rt rt') (objects : Objects) : Keeps rt rt' objects := by
  refine ⟨fun p _ _ => ?_, Nat.le_of_eq step.cacheCount.symm⟩
  rw [Runtime.backing, Runtime.backing, step.mappings]

/-! ## Allocation -/

/-- An object of `size` bytes that are unknown, or zero. -/
def freshObject (size : Nat) (zero : Bool) : Object :=
  ⟨size, fun _ => if zero then some 0 else none⟩

namespace Holds

/-- The reserved place, filled with an object that is to replace what was reserved. -/
theorem Reserved.fill {room : Nat} (reserved : Reserved rt objects held m room address place)
    (fits : object.size ≤ room) (contains : Contains bytes' address object)
    (outside : ∀ other, other < address ∨ address + room ≤ other →
      bytes' other = rt.store.bytes other) :
    (rt.setBytes bytes').Holds objects held (some ⟨place, m, address, object⟩) := by
  have room_le := reserved.room
  have extent_le := rt.heap.room_le place
  refine reserved.holds.fill (fits.trans room_le) contains fun other away => ?_
  simp only at away
  exact outside other (by omega)

/-- A held mapping gets the reserved place, filled with the first bytes of its object. -/
theorem Reserved.commit {room : Nat} (reserved : Reserved rt objects (some m) m room address place)
    (pos : 0 < object.size) (fits : object.size ≤ room)
    (contains : Contains bytes' address object)
    (outside : ∀ other, other < address ∨ address + room ≤ other →
      bytes' other = rt.store.bytes other) :
    ((rt.setBytes bytes').setPointer m address).Holds (objects.insert (toHandle m) object) none
        none ∧
      Keeps rt ((rt.setBytes bytes').setPointer m address) objects := by
  have filled := reserved.fill fits contains outside
  have dead := filled.fresh m rfl
  have committed := @Holds.commit _ _ ⟨place, m, address, object⟩ pos filled
  exact ⟨committed, (Keeps.setBytes rt objects bytes').trans (.setPointer filled dead address)⟩

/-- What an allocation does: `object` is at `r.1` now, which no object was at before. -/
structure Inserted (rt : Runtime) (objects : Objects) (object : Object) (r : Nat × Runtime) :
    Prop where
  holds : r.2.Holds (objects.insert r.1 object) none none
  keeps : Keeps rt r.2 objects
  dead : objects r.1 = none
  owns : ∀ q, r.2.huge.owns q = true ↔
    rt.huge.owns q = true ∨ fromHandleSafe r.1 = none ∧ q = r.1
  unowned : fromHandleSafe r.1 = none → ¬ rt.huge.owns r.1 = true

/-- A mapping is taken and a place is reserved for it. -/
theorem takeMapping {taken : Nat × Runtime} (holds : rt.Holds objects none none)
    (tid_lt : tid < rt.cacheCount) (size_pos : 0 < size) (small : shouldBeHugeObject size = false)
    (mapping : rt.newMapping tid = some taken)
    (backing : taken.2.allocateBackingData tid taken.1 size = some r)
    (count_le : r.2.table.slabCount ≤ 2 ^ 21) :
    Keeps rt r.2 objects ∧ objects (toHandle taken.1) = none ∧ r.2.huge = rt.huge ∧
      ∃ place, Reserved r.2 objects (some taken.1) taken.1 size r.1 place := by
  rw [table_allocateBackingData backing] at count_le
  rcases holds.newMapping tid_lt mapping count_le with ⟨step, taken_holds⟩
  have tid_lt' := Nat.lt_of_lt_of_le tid_lt step.cacheCount
  rcases taken_holds.allocateBackingData tid_lt' taken_holds.inTable_of_held size_pos small backing
    with ⟨same, place, reserved⟩
  exact ⟨(step.keeps holds).trans (same.keeps objects), taken_holds.fresh _ rfl,
    same.huge.trans step.huge, place, reserved⟩

/-- `halloc` returns a pointer that was not live, to an object with nothing in it. -/
theorem halloc {zero : Bool} (holds : rt.Holds objects none none) (tid_lt : tid < rt.cacheCount)
    (pos : 0 < size) (fits : FitsMapping size) (result : rt.halloc tid size zero address = some r)
    (count_le : r.2.table.slabCount ≤ 2 ^ 21) :
    Inserted rt objects (freshObject size zero) r := by
  simp only [Runtime.halloc, if_neg pos.ne'] at result
  split at result
  · have zeros : ∀ index byte, (freshObject size zero).data index = some byte → byte = 0 := by
      intro index byte known
      cases zero with
      | false => exact nomatch known
      | true => exact (Option.some.inj known).symm
    have request : rt.hugeAllocate (freshObject size zero).size address = some r := result
    rcases holds.hugeAllocate pos fits zeros request with ⟨step, dead, user, after⟩
    rcases holds.owns_hugeAllocate result with ⟨owns, unowned⟩
    refine ⟨after, step.keeps objects, dead, ?_, fun _ => unowned⟩
    simpa only [user, true_and] using owns
  · next small =>
      have small : shouldBeHugeObject size = false := by simpa using small
      simp only [Option.bind_eq_bind, Option.bind_eq_some_iff, Prod.exists] at result
      rcases result with ⟨m, rt₁, mapping, ptr, rt₂, backing, final⟩
      have tableSame : r.2.table = rt₂.table := by
        obtain rfl := Option.some.inj final
        split <;> rfl
      rw [tableSame] at count_le
      rcases holds.takeMapping tid_lt pos small mapping backing count_le with
        ⟨keeps, dead, huge, place, reserved⟩
      have isHandle := fromHandleSafe_toHandle reserved.holds.inTable_of_held
      obtain ⟨bytes', written, contains, outside⟩ : ∃ bytes',
          (if zero then rt₂.memset ptr 0 size else rt₂) = rt₂.setBytes bytes' ∧
            Contains bytes' ptr (freshObject size zero) ∧
            ∀ other, other < ptr ∨ ptr + size ≤ other → bytes' other = rt₂.store.bytes other := by
        cases zero with
        | false =>
            exact ⟨rt₂.store.bytes, rfl, fun _ _ _ known => (nomatch known), fun _ _ => rfl⟩
        | true =>
            refine ⟨rt₂.store.bytes.memset ptr 0 size, rfl, ?_, fun _ out => Bytes.memset_outside out⟩
            intro index lt byte known
            rw [← Option.some.inj known]
            have lt : index < size := lt
            exact Bytes.memset_inside (by omega) (by omega)
      obtain rfl := Option.some.inj final
      rw [written]
      have room : (freshObject size zero).size ≤ size := Nat.le_refl _
      have committed := reserved.commit pos room contains outside
      have owned : (rt₂.setBytes bytes').huge = rt.huge := huge
      refine ⟨committed.1, keeps.trans committed.2, dead, ?_, ?_⟩
      · simp [isHandle, owned]
      · simp [isHandle]

/-! ## Release -/

/-- What a release does: the object of `p` is gone, and a huge one is not registered. -/
structure Removed (rt : Runtime) (objects : Objects) (p : Nat) (rt' : Runtime) : Prop where
  holds : rt'.Holds (objects.remove p) none none
  keeps : Keeps rt rt' (objects.remove p)
  owns : ∀ q, rt'.huge.owns q = true ↔
    rt.huge.owns q = true ∧ ¬ (fromHandleSafe p = none ∧ q = p)

/-- `hfree` of a live pointer succeeds, and the pointer is not live any more. -/
theorem hfree (holds : rt.Holds objects none none) (tid : Nat) (isLive : objects p = some object) :
    ∃ rt', rt.hfree tid p = some rt' ∧ Removed rt objects p rt' := by
  rcases holds.pointer_cases isLive with ⟨m, inTable, rfl, isHandle⟩ | ⟨notHandle, _⟩
  · rcases holds.freeAllocation tid inTable isLive (fun _ isPending => nomatch isPending) with
      ⟨rt₁, released, same, held⟩
    have dead := held.fresh m rfl
    have nulled := held.setHeld 0
    rcases nulled.put tid with ⟨rt', taken, step, after, _⟩
    have huge : rt'.huge = rt.huge := step.huge.trans same.huge
    refine ⟨rt', ?_, after, ?_, ?_⟩
    · rw [Runtime.hfree, isHandle]
      dsimp only
      rw [Option.bind_eq_bind, released, Option.bind_some, taken]
    · exact (same.keeps _).trans ((Keeps.setPointer held dead 0).trans (step.keeps nulled))
    · simp [huge, isHandle]
  · refine ⟨rt.hugeFree p, ?_, ?_, ⟨fun _ _ _ => rfl, Nat.le_refl _⟩, fun q => ?_⟩
    · rw [Runtime.hfree, notHandle]
    · exact (holds.forget notHandle).hugeFree (objects.remove_self p)
    · rw [holds.owns_hugeFree, notHandle]
      simp

end Holds

end Runtime

end Alaska
