import Alaska.Runtime.BarrierMoves
import Alaska.Runtime.WalkStructure

/-!
# Localizing a structure

`localize_structure` walks over a structure twice to count pages, and in between, while the
world is stopped, a third time to localize every object it finds. The third walk moves objects
while it reads them: `localize` keeps the words of every object and the graph of handles, and
in a structure without cycles it never moves the object that is being scanned.
-/

namespace Alaska

open Memory Mapping BoundedSearch

namespace Runtime

variable {rt rt' : Runtime} {objects : Objects} {tid epoch h m : Nat} {object : Object}
  {place : Place}

/-- No huge object is at an address of the handle table. -/
def HugeApart (rt : Runtime) : Prop :=
  ∀ header ∈ rt.huge, header.data < handleTableLocation ∨ 2 * handleTableLocation ≤ header.data

/-- The size of a live handle is the room of its place. -/
theorem Holds.getSize_place (holds : rt.Holds objects none none) (inTable : InTable m)
    (isLive : objects (toHandle m) = some object) (isHandle : fromHandleSafe h = some m)
    (isNamed : rt.heap.named place = some m) : rt.getSize h = some (rt.heap.room place) := by
  have pointer := (holds.names place m isNamed fun _ isPending => nomatch isPending).2.1
  have lookup : rt.getSize h = rt.sizeOn (rt.store.mappings m).getPointer
      (rt.heap.getUnaligned (rt.store.mappings m).getPointer) := by
    rw [Runtime.getSize, isHandle]
    exact if_neg (by simp [holds.valid m object inTable isLive])
  rw [lookup, pointer, holds.heap.getUnaligned_addr isNamed]
  exact holds.sizeOf_place isNamed

/-- The objects are as large as their places, and all their bytes are known. -/
structure Snapshot (rt : Runtime) (objects : Objects) : Prop where
  room : ∀ m object place, InTable m → objects (toHandle m) = some object →
    rt.heap.named place = some m → rt.heap.room place = object.size
  known : ∀ m object, InTable m → objects (toHandle m) = some object →
    ∀ index < object.size, ∃ byte, object.data index = some byte

/-- What is in the place of a handle. -/
def placeObject (rt : Runtime) (h m : Nat) : Object where
  size := (rt.getSize h).getD 0
  data := fun index => some (rt.store.bytes ((rt.store.mappings m).getPointer + index))

/-- The objects with whatever is in their places. -/
def snapshot (rt : Runtime) (objects : Objects) : Objects := fun p =>
  (objects p).map fun object => ((fromHandleSafe p).map (rt.placeObject p)).getD object

theorem snapshot_toHandle (inTable : InTable m) :
    rt.snapshot objects (toHandle m) =
      (objects (toHandle m)).map fun _ => rt.placeObject (toHandle m) m := by
  rw [snapshot, fromHandleSafe_toHandle inTable]
  rfl

theorem exists_snapshot {p : Nat} :
    (∃ object, rt.snapshot objects p = some object) ↔ ∃ object, objects p = some object := by
  rw [snapshot]
  cases objects p with
  | none => simp
  | some object => simp

theorem live_snapshot (rt : Runtime) (objects : Objects) :
    Live (rt.snapshot objects) none = Live objects none := by
  funext m
  simp only [Live, exists_snapshot]

namespace Holds

/-- An object of the snapshot is what is in the place of a live handle, or a huge object. -/
theorem snapshot_cases {p : Nat} (holds : rt.Holds objects none none)
    (isLive : rt.snapshot objects p = some object) :
    (fromHandleSafe p = none ∧ objects p = some object) ∨
      ∃ m place before, InTable m ∧ p = toHandle m ∧ objects p = some before ∧
        Located rt none m before place ∧ object.size = rt.heap.room place ∧
        object = rt.placeObject p m := by
  rcases exists_snapshot.mp ⟨object, isLive⟩ with ⟨before, wasLive⟩
  rcases holds.pointer_cases wasLive with ⟨m, inTable, rfl, isHandle⟩ | ⟨notHandle, _⟩
  · rcases holds.located m before inTable wasLive with ⟨place, located⟩
    have size := holds.getSize_place inTable wasLive isHandle located.named
    rw [snapshot_toHandle inTable, wasLive, Option.map_some, Option.some.injEq] at isLive
    subst isLive
    refine Or.inr ⟨m, place, before, inTable, rfl, wasLive, located, ?_, rfl⟩
    rw [placeObject, size, Option.getD_some]
  · rw [snapshot, wasLive, notHandle] at isLive
    exact Or.inl ⟨notHandle, wasLive.trans isLive⟩

/-- The snapshot can stand for the objects. -/
theorem snapshot (holds : rt.Holds objects none none) :
    rt.Holds (rt.snapshot objects) none none where
  table := by
    rw [live_snapshot]
    exact holds.table
  heap := holds.heap
  huge := holds.huge
  caches := holds.caches
  fresh := fun _ isHeld => nomatch isHeld
  sizes := by
    intro p object isLive
    rcases holds.snapshot_cases isLive with
      ⟨_, wasLive⟩ | ⟨m, place, _, _, _, _, located, size, _⟩
    · exact holds.sizes p object wasLive
    · rw [size]
      exact (holds.rooms place m located.named).2
  pointers := by
    intro p object isLive
    rcases holds.snapshot_cases isLive with ⟨_, wasLive⟩ | ⟨m, _, _, inTable, rfl, _⟩
    · exact holds.pointers p object wasLive
    · exact Or.inl ⟨m, inTable, rfl⟩
  located := by
    intro m object inTable isLive
    rcases holds.snapshot_cases isLive with
      ⟨notHandle, _⟩ | ⟨m', place, _, inTable', equal, _, located, size, _⟩
    · rw [fromHandleSafe_toHandle inTable] at notHandle
      exact nomatch notHandle
    · obtain rfl := toHandle_injective inTable inTable' equal
      exact ⟨place, located.named, located.settled, located.addr, Nat.le_of_eq size⟩
  valid := by
    intro m object inTable isLive
    rcases exists_snapshot.mp ⟨object, isLive⟩ with ⟨before, wasLive⟩
    exact holds.valid m before inTable wasLive
  names := by
    intro place m isNamed settled
    rcases holds.names place m isNamed settled with ⟨inTable, pointer, wasLive⟩
    exact ⟨inTable, pointer, exists_snapshot.mpr wasLive⟩
  rooms := holds.rooms
  reserved := fun _ isPending => nomatch isPending
  data := by
    intro p object isLive index lt byte known
    rcases holds.snapshot_cases isLive with
      ⟨_, wasLive⟩ | ⟨m, _, _, inTable, rfl, _, _, _, rfl⟩
    · exact holds.data p object wasLive index lt byte known
    · rw [backing_toHandle inTable]
      exact Option.some.inj known

end Holds

/-! ## One call -/

/-- The state while the structure is localized, over a snapshot of the objects. -/
structure Localizing (objects : Objects) (tid : Nat) (rt : Runtime) : Prop where
  holds : rt.Holds objects none none
  snapshot : rt.Snapshot objects
  cache : tid < rt.cacheCount
  apart : rt.HugeApart

namespace Localizing

theorem getSize (localizing : Localizing objects tid rt) (inTable : InTable m)
    (isLive : objects (toHandle m) = some object) (isHandle : fromHandleSafe h = some m) :
    rt.getSize h = some object.size := by
  rcases localizing.holds.located m object inTable isLive with ⟨place, located⟩
  rw [localizing.holds.getSize_place inTable isLive isHandle located.named,
    localizing.snapshot.room m object place inTable isLive located.named]

/-- `localize` of a mapping keeps the snapshot. -/
theorem localize {result : Bool × Runtime} (localizing : Localizing objects tid rt)
    (found : rt.localize tid m epoch = some result) : Localizing objects tid result.2 := by
  rcases localizing.holds.localize localizing.cache found with ⟨localized, _⟩
  refine ⟨localized.holds, ⟨?_, localizing.snapshot.known⟩,
    Nat.lt_of_lt_of_le localizing.cache localized.keeps.cacheCount, ?_⟩
  · intro m' object place inTable isLive isNamed
    rcases localizing.holds.located m' object inTable isLive with ⟨before, located⟩
    rcases localized.rooms before m' located.named with ⟨after, afterNamed, room⟩
    rcases localized.holds.located m' object inTable isLive with ⟨here, hereLocated⟩
    have unique : ∀ other, result.2.heap.named other = some m' → other = here := fun other named =>
      localized.holds.place_unique hereLocated named fun _ isPending => nomatch isPending
    rw [unique place isNamed, ← unique after afterNamed, room]
    exact localizing.snapshot.room m' object before inTable isLive located.named
  · intro header member
    rw [localized.huge] at member
    exact localizing.apart header member

end Localizing

end Runtime

namespace Walk

open Alaska.Runtime

variable {rt : Runtime} {objects : Objects} {tid epoch ptr : Nat}

/-- A program with a shared object, whose handle is stored twice in another one. -/
def sharedOps : List RuntimeOp :=
  [.newThreadcache, .halloc 0 16 true 0, .halloc 0 16 true 0, .write (2 ^ 63 + 2 ^ 24) 3 2,
    .write (2 ^ 63 + 2 ^ 24) 7 128, .write (2 ^ 63 + 2 ^ 24) 11 2,
    .write (2 ^ 63 + 2 ^ 24) 15 128]

end Walk

end Alaska
