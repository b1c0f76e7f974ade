import Alaska.Runtime.HeapSteps

/-!
# Steps of the mappings

An operation takes a mapping from the table, sets it to a place, and gives it back. Between
these steps the mapping is held: it is in use, but it names no object.
-/

namespace Alaska

open Memory Mapping

namespace Runtime

variable {rt rt' rt'' : Runtime} {objects : Objects} {held held' : Option Nat}
  {pending : Option Reservation} {p m tid idx : Nat} {object : Object} {place : Place}
  {reservation : Reservation}

namespace Holds

theorem inTable_of_held (holds : rt.Holds objects (some m) pending) : InTable m :=
  holds.table.inTable (Or.inr rfl)

theorem backing_setPointer_of_ne (holds : rt.Holds objects held pending) {pointer : Nat}
    (ne : p ≠ toHandle m) (isLive : objects p = some object) :
    (rt.setPointer m pointer).backing p = rt.backing p := by
  rcases holds.pointer_cases isLive with ⟨m', inTable', rfl, _⟩ | ⟨notHandle, _⟩
  · have other : m' ≠ m := fun same => ne (congrArg toHandle same)
    rw [backing_toHandle inTable', backing_toHandle inTable']
    exact congrArg Mapping.getPointer (Store.mappings_setPointer_of_ne other)
  · rw [Runtime.backing, Runtime.backing, notHandle]

/-- The held mapping is set to the reserved place, and the object becomes live. -/
theorem commit (pos : 0 < reservation.object.size)
    (holds : rt.Holds objects (some reservation.mapping) (some reservation)) :
    (rt.setPointer reservation.mapping reservation.address).Holds
      (objects.insert (toHandle reservation.mapping) reservation.object) none none := by
  have inTable := holds.inTable_of_held
  have dead := holds.fresh reservation.mapping rfl
  rcases holds.reserved reservation rfl with ⟨isNamed, addr, room, contains⟩
  have small := holds.heap.addr_lt isNamed
  generalize mappingEq : reservation.mapping = m at inTable dead isNamed
  have word : ((rt.setPointer m reservation.address).store.mappings m).getPointer =
      reservation.address := by
    have self : (rt.setPointer m reservation.address).store.mappings m =
        (rt.store.mappings m).setPointer reservation.address := Store.mappings_setPointer_self
    rw [self]
    exact getPointer_setPointer (by omega)
  have otherWords : ∀ m' ≠ m,
      (rt.setPointer m reservation.address).store.mappings m' = rt.store.mappings m' :=
    fun m' ne => Store.mappings_setPointer_of_ne ne
  have others : ∀ {q object'}, objects q = some object' →
      q ≠ toHandle m ∧ objects.insert (toHandle m) reservation.object q = some object' := by
    intro q object' isLive
    have ne : q ≠ toHandle m := by
      rintro rfl
      rw [dead] at isLive
      exact nomatch isLive
    exact ⟨ne, Objects.insert_eq_some.mpr (Or.inr ⟨ne, isLive⟩)⟩
  constructor
  · have live : ∀ m', Live (objects.insert (toHandle m) reservation.object) none m' ↔
        Live objects (some m) m' := by
      intro m'
      constructor
      · rintro (⟨inTable', object', isLive⟩ | isHeld)
        · rcases Objects.insert_eq_some.mp isLive with ⟨same, _⟩ | ⟨_, isLive⟩
          · exact Or.inr (congrArg some (toHandle_injective inTable inTable' same.symm))
          · exact Or.inl ⟨inTable', object', isLive⟩
        · exact nomatch isHeld
      · rintro (⟨inTable', object', isLive⟩ | isHeld)
        · exact Or.inl ⟨inTable', object', (others isLive).2⟩
        · obtain rfl := Option.some.inj isHeld
          exact Or.inl ⟨inTable, reservation.object, objects.insert_self _ _⟩
    have same : Live (objects.insert (toHandle m) reservation.object) none =
        Live objects (some m) := funext fun m' => propext (live m')
    rw [same, ← mappingEq]
    refine holds.table.congr fun m' notLive => ?_
    rw [mappingEq]
    refine otherWords m' ?_
    rintro rfl
    exact notLive (Or.inr (congrArg some mappingEq))
  · exact holds.heap
  · exact holds.huge
  · exact holds.caches
  · intro _ isHeld
    exact nomatch isHeld
  · intro q object' isLive
    rcases Objects.insert_eq_some.mp isLive with ⟨_, rfl⟩ | ⟨_, isLive⟩
    · exact pos
    · exact holds.sizes q object' isLive
  · intro q object' isLive
    rcases Objects.insert_eq_some.mp isLive with ⟨rfl, _⟩ | ⟨_, isLive⟩
    · exact Or.inl ⟨m, inTable, rfl⟩
    · rcases holds.pointers q object' isLive with isHandle | ⟨header, mapped⟩
      · exact Or.inl isHandle
      · exact Or.inr ⟨header, mapped.member, mapped.data, mapped.size, mapped.room⟩
  · intro m' object' inTable' isLive
    rcases Objects.insert_eq_some.mp isLive with ⟨same, rfl⟩ | ⟨ne, isLive⟩
    · obtain rfl := toHandle_injective inTable' inTable same
      exact ⟨reservation.place, isNamed, (fun _ isPending => nomatch isPending),
        word.trans addr.symm, room⟩
    · rcases holds.located m' object' inTable' isLive with ⟨place, located⟩
      refine ⟨place, located.named, (fun _ isPending => nomatch isPending), ?_, located.room⟩
      rw [otherWords m' fun same => ne (congrArg toHandle same)]
      exact located.addr
  · intro m' object' inTable' isLive
    rcases Objects.insert_eq_some.mp isLive with ⟨same, rfl⟩ | ⟨ne, isLive⟩
    · obtain rfl := toHandle_injective inTable' inTable same
      have self : (rt.setPointer m' reservation.address).store.mappings m' =
          (rt.store.mappings m').setPointer reservation.address := Store.mappings_setPointer_self
      rw [self]
      exact isFree_setPointer
    · rw [otherWords m' fun same => ne (congrArg toHandle same)]
      exact holds.valid m' object' inTable' isLive
  · intro place m' named _
    by_cases own : place = reservation.place
    · subst own
      obtain rfl := Option.some.inj (named.symm.trans isNamed)
      exact ⟨inTable, word.trans addr.symm, reservation.object, objects.insert_self _ _⟩
    · rcases holds.names place m' named (by rintro _ ⟨rfl⟩; exact fun same => own same.symm) with
        ⟨inTable', pointer, object', isLive⟩
      have ne : m' ≠ m := fun same => (others isLive).1 (congrArg toHandle same)
      refine ⟨inTable', ?_, object', (others isLive).2⟩
      rw [otherWords m' ne]
      exact pointer
  · exact holds.rooms
  · intro _ isPending
    exact nomatch isPending
  · intro q object' isLive
    rcases Objects.insert_eq_some.mp isLive with ⟨rfl, rfl⟩ | ⟨ne, isLive⟩
    · rw [backing_toHandle inTable, word]
      exact contains
    · rw [holds.backing_setPointer_of_ne ne isLive]
      exact holds.data q object' isLive

/-- A live handle is set to the reserved place, and its old place is the reserved one now. -/
theorem switch (holds : rt.Holds objects none (some reservation))
    (isLive : objects (toHandle reservation.mapping) = some object)
    (inTable : InTable reservation.mapping)
    (located : Located rt (some reservation) reservation.mapping object place)
    (fits : object.size ≤ rt.heap.room reservation.place)
    (copied : Contains rt.store.bytes reservation.address object) :
    (rt.setPointer reservation.mapping reservation.address).Holds objects none
      (some ⟨place, reservation.mapping, rt.heap.addr place, ⟨0, fun _ => none⟩⟩) := by
  rcases holds.reserved reservation rfl with ⟨isNamed, addr, _, _⟩
  have small := holds.heap.addr_lt isNamed
  have ne := located.settled reservation rfl
  generalize mappingEq : reservation.mapping = m at isLive inTable located isNamed
  have self : (rt.setPointer m reservation.address).store.mappings m =
      (rt.store.mappings m).setPointer reservation.address := Store.mappings_setPointer_self
  have word : ((rt.setPointer m reservation.address).store.mappings m).getPointer =
      reservation.address := by
    rw [self]
    exact getPointer_setPointer (by omega)
  have otherWords : ∀ m' ≠ m,
      (rt.setPointer m reservation.address).store.mappings m' = rt.store.mappings m' :=
    fun m' ne => Store.mappings_setPointer_of_ne ne
  -- the two places that name `m`
  have places : ∀ own, rt.heap.named own = some m → own ≠ place → own = reservation.place := by
    intro own ownNamed notPlace
    by_contra notReserved
    refine notPlace (holds.place_unique located ownNamed ?_)
    rintro _ ⟨rfl⟩
    exact fun same => notReserved same.symm
  constructor
  · refine holds.table.congr fun m' notLive => otherWords m' ?_
    rintro rfl
    exact notLive (Or.inl ⟨inTable, object, isLive⟩)
  · exact holds.heap
  · exact holds.huge
  · exact holds.caches
  · exact holds.fresh
  · exact holds.sizes
  · intro q object' isLive'
    rcases holds.pointers q object' isLive' with isHandle | ⟨header, mapped⟩
    · exact Or.inl isHandle
    · exact Or.inr ⟨header, mapped.member, mapped.data, mapped.size, mapped.room⟩
  · intro m' object' inTable' isLive'
    by_cases equal : m' = m
    · subst equal
      obtain rfl := Option.some.inj (isLive.symm.trans isLive')
      refine ⟨reservation.place, isNamed, ?_, word.trans addr.symm, fits⟩
      rintro _ ⟨rfl⟩
      exact ne.symm
    · rcases holds.located m' object' inTable' isLive' with ⟨own, ownLocated⟩
      refine ⟨own, ownLocated.named, ?_, ?_, ownLocated.room⟩
      · rintro _ ⟨rfl⟩ rfl
        exact equal (Option.some.inj (located.named.symm.trans ownLocated.named)).symm
      · rw [otherWords m' equal]
        exact ownLocated.addr
  · intro m' object' inTable' isLive'
    by_cases equal : m' = m
    · rw [equal, self]
      exact isFree_setPointer
    · rw [otherWords m' equal]
      exact holds.valid m' object' inTable' isLive'
  · intro own m' ownNamed settled
    have notPlace : own ≠ place := fun same => settled _ rfl same.symm
    by_cases equal : m' = m
    · subst equal
      obtain rfl := places own ownNamed notPlace
      exact ⟨inTable, word.trans addr.symm, object, isLive⟩
    · rw [otherWords m' equal]
      refine holds.names own m' ownNamed ?_
      rintro _ ⟨rfl⟩ rfl
      exact equal (Option.some.inj (isNamed.symm.trans ownNamed)).symm
  · exact holds.rooms
  · rintro _ ⟨rfl⟩
    exact ⟨located.named, rfl, Nat.zero_le _, fun _ lt => absurd lt (Nat.not_lt_zero _)⟩
  · intro q object' isLive'
    by_cases equal : q = toHandle m
    · subst equal
      obtain rfl := Option.some.inj (isLive.symm.trans isLive')
      rw [backing_toHandle inTable, word]
      exact copied
    · rw [holds.backing_setPointer_of_ne equal isLive']
      exact holds.data q object' isLive'

/-- Words change, but no pointer of a live handle. -/
theorem setWords (holds : rt.Holds objects held pending) {mappings' : Mappings}
    (same : ∀ m object, InTable m → objects (toHandle m) = some object →
      (mappings' m).getPointer = (rt.store.mappings m).getPointer ∧
        (mappings' m).isFree = (rt.store.mappings m).isFree)
    (dead : ∀ m, ¬ Live objects held m → mappings' m = rt.store.mappings m) :
    Holds { rt with store := ⟨rt.store.bytes, mappings'⟩ } objects held pending where
  table := holds.table.congr dead
  heap := holds.heap
  huge := holds.huge
  caches := holds.caches
  fresh := holds.fresh
  sizes := holds.sizes
  pointers := by
    intro p object isLive
    rcases holds.pointers p object isLive with isHandle | ⟨header, mapped⟩
    · exact Or.inl isHandle
    · exact Or.inr ⟨header, mapped.member, mapped.data, mapped.size, mapped.room⟩
  located := by
    intro m object inTable isLive
    rcases holds.located m object inTable isLive with ⟨place, located⟩
    refine ⟨place, located.named, located.settled, ?_, located.room⟩
    exact (same m object inTable isLive).1.trans located.addr
  valid := by
    intro m object inTable isLive
    exact (same m object inTable isLive).2.trans (holds.valid m object inTable isLive)
  names := by
    intro place m isNamed settled
    rcases holds.names place m isNamed settled with ⟨inTable, pointer, object, isLive⟩
    exact ⟨inTable, (same m object inTable isLive).1.trans pointer, object, isLive⟩
  rooms := holds.rooms
  reserved := holds.reserved
  data := by
    intro p object isLive
    have backing : Runtime.backing { rt with store := ⟨rt.store.bytes, mappings'⟩ } p =
        rt.backing p := by
      rcases holds.pointer_cases isLive with ⟨m, inTable, rfl, _⟩ | ⟨notHandle, _⟩
      · rw [backing_toHandle inTable, backing_toHandle inTable]
        exact (same m object inTable isLive).1
      · rw [Runtime.backing, Runtime.backing, notHandle]
    rw [backing]
    exact holds.data p object isLive

/-- The word of a held mapping does not matter. -/
theorem setHeld (holds : rt.Holds objects (some m) pending) (pointer : Nat) :
    (rt.setPointer m pointer).Holds objects (some m) pending := by
  have otherWords : ∀ m' ≠ m,
      (rt.setPointer m pointer).store.mappings m' = rt.store.mappings m' :=
    fun m' ne => Store.mappings_setPointer_of_ne ne
  refine holds.setWords ?_ ?_
  · intro m' object inTable isLive
    have ne : m' ≠ m := by
      rintro rfl
      rw [holds.fresh m' rfl] at isLive
      exact nomatch isLive
    have word := otherWords m' ne
    exact ⟨congrArg Mapping.getPointer word, congrArg Mapping.isFree word⟩
  · intro m' notLive
    refine otherWords m' ?_
    rintro rfl
    exact notLive (Or.inr rfl)

/-- Pinning a live handle moves nothing. -/
theorem setPinned (holds : rt.Holds objects held pending) (isLive : objects p = some object)
    (pinned : Bool) : (rt.setPinned p pinned).Holds objects held pending := by
  rcases holds.pointer_cases isLive with ⟨m, inTable, rfl, isHandle⟩ | ⟨notHandle, _⟩
  · rw [Runtime.setPinned, isHandle]
    refine holds.setWords ?_ ?_
    · intro m' object' _ _
      by_cases equal : m' = m
      · subst equal
        simp
      · simp [equal]
    · intro m' notLive
      have ne : m' ≠ m := by
        rintro rfl
        exact notLive (Or.inl ⟨inTable, object, isLive⟩)
      exact Function.update_of_ne ne _ _
  · rw [Runtime.setPinned, notHandle]
    exact holds

end Holds

/-! ## The handle table -/

/-- `rt'` is `rt` after an operation of the handle table and its slabs. -/
structure TableStep (rt rt' : Runtime) (objects : Objects) : Prop where
  heap : rt'.heap = rt.heap
  bytes : rt'.store.bytes = rt.store.bytes
  huge : rt'.huge = rt.huge
  cacheCount : rt.cacheCount ≤ rt'.cacheCount
  slabs : rt.table.slabCount ≤ rt'.table.slabCount
  caches : ∀ tid < rt'.cacheCount, CacheHolds rt'.table rt'.heap (rt'.caches tid)
  words : ∀ m object, InTable m → objects (toHandle m) = some object →
    rt'.store.mappings m = rt.store.mappings m

namespace TableStep

theorem trans (first : TableStep rt rt' objects) (second : TableStep rt' rt'' objects) :
    TableStep rt rt'' objects where
  heap := second.heap.trans first.heap
  bytes := second.bytes.trans first.bytes
  huge := second.huge.trans first.huge
  cacheCount := first.cacheCount.trans second.cacheCount
  slabs := first.slabs.trans second.slabs
  caches := second.caches
  words := fun m object inTable isLive =>
    (second.words m object inTable isLive).trans (first.words m object inTable isLive)

theorem backing (step : TableStep rt rt' objects) (holds : rt.Holds objects held pending)
    (isLive : objects p = some object) : rt'.backing p = rt.backing p := by
  rcases holds.pointer_cases isLive with ⟨m, inTable, rfl, _⟩ | ⟨notHandle, _⟩
  · rw [backing_toHandle inTable, backing_toHandle inTable,
      step.words m object inTable isLive]
  · rw [Runtime.backing, Runtime.backing, notHandle]

/-- A step of the table keeps the invariant. -/
theorem holds (step : TableStep rt rt' objects) (holds : rt.Holds objects held pending)
    (table : rt'.table.Invariant rt'.store.mappings (Live objects held'))
    (fresh : ∀ m, held' = some m → objects (toHandle m) = none) :
    rt'.Holds objects held' pending where
  table := table
  heap := by
    rw [step.heap, step.bytes]
    exact holds.heap
  huge := by
    rw [step.huge, step.heap]
    exact holds.huge
  caches := step.caches
  fresh := fresh
  sizes := holds.sizes
  pointers := by
    intro p object isLive
    rcases holds.pointers p object isLive with isHandle | ⟨header, mapped⟩
    · exact Or.inl isHandle
    · exact Or.inr ⟨header, step.huge ▸ mapped.member, mapped.data, mapped.size, mapped.room⟩
  located := by
    intro m object inTable isLive
    rcases holds.located m object inTable isLive with ⟨place, located⟩
    refine ⟨place, ?_, located.settled, ?_, ?_⟩
    · rw [step.heap]
      exact located.named
    · rw [step.words m object inTable isLive, step.heap]
      exact located.addr
    · rw [step.heap]
      exact located.room
  valid := by
    intro m object inTable isLive
    rw [step.words m object inTable isLive]
    exact holds.valid m object inTable isLive
  names := by
    rw [step.heap]
    intro place m isNamed settled
    rcases holds.names place m isNamed settled with ⟨inTable, pointer, object, isLive⟩
    rw [step.words m object inTable isLive]
    exact ⟨inTable, pointer, object, isLive⟩
  rooms := by
    rw [step.heap]
    exact holds.rooms
  reserved := by
    rw [step.heap, step.bytes]
    exact holds.reserved
  data := by
    intro p object isLive
    rw [step.backing holds isLive, step.bytes]
    exact holds.data p object isLive

end TableStep

/-- What `slab->alloc()` and `new_mapping` return: nothing, or a mapping that is held now. -/
inductive AllocatedMapping (rt' : Runtime) (objects : Objects) (pending : Option Reservation)
    (m : Nat) : Prop where
  | full (null : m = 0) (holds : rt'.Holds objects none pending)
  | taken (holds : rt'.Holds objects (some m) pending)
      (stale : HandleTable.Stale (rt'.store.mappings m))

/-- `handle_slab->alloc()`. -/
theorem Holds.slabAlloc (holds : rt.Holds objects none pending)
    (lt : idx < rt.table.slabCount) :
    TableStep rt (rt.slabAlloc idx).2 objects ∧
      AllocatedMapping (rt.slabAlloc idx).2 objects pending (rt.slabAlloc idx).1 := by
  have caches : ∀ tid < rt.cacheCount,
      CacheHolds (rt.slabAlloc idx).2.table rt.heap (rt.caches tid) := fun tid lt =>
    ⟨(holds.caches tid lt).slab, (holds.caches tid lt).classes, (holds.caches tid lt).locality⟩
  rcases holds.table.alloc lt with ⟨null, table, same⟩ | ⟨dead, table, stale, same⟩
  · have step : TableStep rt (rt.slabAlloc idx).2 objects :=
      ⟨rfl, rfl, rfl, Nat.le_refl _, Nat.le_refl _, caches, fun m _ _ _ => congrFun same m⟩
    exact ⟨step, .full null (step.holds holds table holds.fresh)⟩
  · have step : TableStep rt (rt.slabAlloc idx).2 objects :=
      ⟨rfl, rfl, rfl, Nat.le_refl _, Nat.le_refl _, caches, fun m object inTable isLive =>
        same m (Or.inl ⟨inTable, object, isLive⟩)⟩
    have live : (fun m => Live objects none m ∨ m = (rt.slabAlloc idx).1) =
        Live objects (some (rt.slabAlloc idx).1) := by
      funext m
      simp only [Live, reduceCtorEq, or_false, Option.some.injEq, eq_comm]
    have inTable : InTable (rt.slabAlloc idx).1 := table.inTable (Or.inr rfl)
    refine ⟨step, .taken (step.holds holds (live ▸ table) ?_) stale⟩
    intro m isHeld
    obtain rfl := Option.some.inj isHeld
    by_contra alive
    rcases Option.ne_none_iff_exists'.mp alive with ⟨object, isLive⟩
    exact dead (Or.inl ⟨inTable, object, isLive⟩)

/-- The exchange of a full slab. -/
theorem Holds.newHandleSlab (holds : rt.Holds objects held pending)
    (count_le : (rt.newHandleSlab tid).table.slabCount ≤ 2 ^ 21) :
    TableStep rt (rt.newHandleSlab tid) objects ∧
      (rt.newHandleSlab tid).Holds objects held pending ∧
      ((rt.newHandleSlab tid).caches tid).handleSlab < (rt.newHandleSlab tid).table.slabCount := by
  have slab := HandleTable.Invariant.newSlab holds.table count_le
  have slabs := HandleTable.slabCount_le_newSlab rt.table tid
  have step : TableStep rt (rt.newHandleSlab tid) objects := by
    refine ⟨rfl, rfl, rfl, Nat.le_refl _, slabs, ?_, fun _ _ _ _ => rfl⟩
    intro other lt
    have before := holds.caches other lt
    by_cases equal : other = tid
    · subst equal
      simp only [Runtime.newHandleSlab, Function.update_self]
      exact ⟨slab.2, before.classes, before.locality⟩
    · simp only [Runtime.newHandleSlab, Function.update_of_ne equal]
      exact ⟨Nat.lt_of_lt_of_le before.slab slabs, before.classes, before.locality⟩
  refine ⟨step, step.holds holds (slab.1.setOwner _ _) holds.fresh, ?_⟩
  simp only [Runtime.newHandleSlab, Function.update_self]
  exact slab.2

theorem slabCount_le_tryMapping (rt : Runtime) (tid : Nat) :
    rt.table.slabCount ≤ (rt.tryMapping tid).2.table.slabCount := by
  simp only [tryMapping]
  split
  · exact HandleTable.slabCount_le_newSlab
      (rt.slabAlloc (rt.caches tid).handleSlab).2.table tid
  · exact Nat.le_refl _

/-- One attempt of `new_mapping`. -/
theorem Holds.tryMapping (holds : rt.Holds objects none pending) (lt : tid < rt.cacheCount)
    (count_le : (rt.tryMapping tid).2.table.slabCount ≤ 2 ^ 21) :
    TableStep rt (rt.tryMapping tid).2 objects ∧
      AllocatedMapping (rt.tryMapping tid).2 objects pending (rt.tryMapping tid).1 := by
  have first := holds.slabAlloc (holds.caches tid lt).slab
  simp only [Runtime.tryMapping] at count_le ⊢
  split at count_le
  · next null =>
      rw [if_pos null]
      have exhausted : (rt.slabAlloc (rt.caches tid).handleSlab).2.Holds objects none pending := by
        rcases first.2 with ⟨_, holds⟩ | ⟨holds, _⟩
        · exact holds
        · have inTable := holds.inTable_of_held
          rw [null] at inTable
          exact absurd inTable.1 (by omega)
      rcases exhausted.newHandleSlab count_le with ⟨step, holds', slab⟩
      have second := holds'.slabAlloc slab
      exact ⟨(first.1.trans step).trans second.1, second.2⟩
  · next found =>
      rw [if_neg found]
      exact first

/-- A held mapping can be dropped when its word is stale. -/
theorem Holds.drop (holds : rt.Holds objects (some m) pending)
    (stale : HandleTable.Stale (rt.store.mappings m)) : rt.Holds objects none pending := by
  have step : TableStep rt rt objects :=
    ⟨rfl, rfl, rfl, Nat.le_refl _, Nat.le_refl _, holds.caches, fun _ _ _ _ => rfl⟩
  refine step.holds holds (holds.table.shrink ?_ ?_) (fun _ isHeld => nomatch isHeld)
  · rintro m' (isLive | isHeld)
    · exact Or.inl isLive
    · exact nomatch isHeld
  · rintro m' (isLive | isHeld) dead
    · exact absurd (Or.inl isLive) dead
    · obtain rfl := Option.some.inj isHeld
      exact stale

theorem handleId_zero : handleId 0 = 0 := by decide

theorem slabCount_le_newMapping {depth : Nat} {r : Nat × Runtime}
    (result : newMappingWithin depth rt tid = some r) :
    rt.table.slabCount ≤ r.2.table.slabCount := by
  induction depth generalizing rt with
  | zero => exact nomatch result
  | succ depth ih =>
      have count := slabCount_le_tryMapping rt tid
      simp only [newMappingWithin] at result
      split at result
      · exact count.trans (ih result)
      · obtain rfl := Option.some.inj result
        exact count

/-- The recursion of `new_mapping` ends with a mapping that is held. -/
theorem Holds.newMappingWithin {depth : Nat} {r : Nat × Runtime}
    (holds : rt.Holds objects none pending) (lt : tid < rt.cacheCount)
    (result : newMappingWithin depth rt tid = some r)
    (count_le : r.2.table.slabCount ≤ 2 ^ 21) :
    TableStep rt r.2 objects ∧ r.2.Holds objects (some r.1) pending := by
  induction depth generalizing rt with
  | zero => exact nomatch result
  | succ depth ih =>
      simp only [Runtime.newMappingWithin] at result
      split at result
      · have count := (slabCount_le_newMapping result).trans count_le
        rcases holds.tryMapping lt count with ⟨step, outcome⟩
        have again : (rt.tryMapping tid).2.Holds objects none pending := by
          rcases outcome with ⟨_, holds⟩ | ⟨holds, stale⟩
          · exact holds
          · exact holds.drop stale
        rcases ih again (Nat.lt_of_lt_of_le lt step.cacheCount) result with ⟨rest, held⟩
        exact ⟨step.trans rest, held⟩
      · next accepted =>
          obtain rfl := Option.some.inj result
          rcases holds.tryMapping lt count_le with ⟨step, ⟨null, _⟩ | ⟨held, _⟩⟩
          · rw [null] at accepted
            exact absurd (Or.inl handleId_zero) accepted
          · exact ⟨step, held⟩

theorem Holds.newMapping {r : Nat × Runtime} (holds : rt.Holds objects none pending)
    (lt : tid < rt.cacheCount) (result : rt.newMapping tid = some r)
    (count_le : r.2.table.slabCount ≤ 2 ^ 21) :
    TableStep rt r.2 objects ∧ r.2.Holds objects (some r.1) pending :=
  holds.newMappingWithin lt result count_le

/-- `handle_table.put` takes back the mapping the operation holds. -/
theorem Holds.put (holds : rt.Holds objects (some m) pending) (tid : Nat) :
    ∃ rt', rt.put tid m = some rt' ∧ TableStep rt rt' objects ∧ rt'.Holds objects none pending ∧
      rt'.table.slabCount = rt.table.slabCount := by
  have dead := holds.fresh m rfl
  rcases holds.table.put (Or.inr rfl) tid with ⟨t', mappings', result, table, count, _, same⟩
  have notHeld : ∀ {m' object}, objects (toHandle m') = some object → m' ≠ m := by
    rintro m' object isLive rfl
    rw [dead] at isLive
    exact nomatch isLive
  have live : (fun m' => Live objects (some m) m' ∧ m' ≠ m) = Live objects none := by
    funext m'
    apply propext
    constructor
    · rintro ⟨isLive | isHeld, ne⟩
      · exact Or.inl isLive
      · exact absurd (Option.some.inj isHeld).symm ne
    · rintro (⟨inTable, object, isLive⟩ | isHeld)
      · exact ⟨Or.inl ⟨inTable, object, isLive⟩, notHeld isLive⟩
      · exact nomatch isHeld
  refine ⟨_, by rw [Runtime.put, result]; rfl, ?_⟩
  have step : TableStep rt { rt with table := t', store := { rt.store with mappings := mappings' } }
      objects := by
    refine ⟨rfl, rfl, rfl, Nat.le_refl _, Nat.le_of_eq count.symm, ?_, ?_⟩
    · intro other lt
      have before := holds.caches other lt
      exact ⟨by simpa only [count] using before.slab, before.classes, before.locality⟩
    · intro m' object inTable isLive
      exact same m' (notHeld isLive) (Or.inl ⟨inTable, object, isLive⟩)
  exact ⟨step, step.holds holds (live ▸ table) (fun _ isHeld => nomatch isHeld), count⟩

/-- `new_threadcache`. -/
theorem Holds.newThreadcache (holds : rt.Holds objects held pending)
    (count_le : rt.newThreadcache.table.slabCount ≤ 2 ^ 21) :
    TableStep rt rt.newThreadcache objects ∧ rt.newThreadcache.Holds objects held pending := by
  have slab := HandleTable.Invariant.newSlab holds.table count_le
  have slabs := HandleTable.slabCount_le_newSlab rt.table rt.cacheCount
  have step : TableStep rt rt.newThreadcache objects := by
    refine ⟨rfl, rfl, rfl, Nat.le_succ _, slabs, ?_, fun _ _ _ _ => rfl⟩
    intro other lt
    by_cases equal : other = rt.cacheCount
    · subst equal
      simp only [Runtime.newThreadcache, Function.update_self]
      exact ⟨slab.2, fun _ _ found => (nomatch found), fun _ found => (nomatch found)⟩
    · have before := holds.caches other (by simp only [Runtime.newThreadcache] at lt; omega)
      simp only [Runtime.newThreadcache, Function.update_of_ne equal]
      exact ⟨Nat.lt_of_lt_of_le before.slab slabs, before.classes, before.locality⟩
  exact ⟨step, step.holds holds slab.1 holds.fresh⟩

end Runtime

end Alaska
