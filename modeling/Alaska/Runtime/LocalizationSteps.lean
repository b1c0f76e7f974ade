import Alaska.Runtime.ReallocationSteps

/-!
# Localization

`localize` moves an object from a sized page to the locality page of the thread cache: a
record is appended there, the object is copied, the mapping is set to the copy, and the old
slot is poisoned and released.
-/

namespace Alaska

open Memory Mapping

namespace Runtime

variable {rt rt' : Runtime} {objects : Objects} {held : Option Nat} {m n tid size : Nat}
  {object : Object} {place : Place} {page : LocalityPage} {r : Nat × Runtime}

/-- The runtime after an operation of locality page `n`. -/
def setLocality (rt : Runtime) (n : Nat) (page : LocalityPage) : Runtime :=
  { rt with heap := rt.heap.setPage n (.locality page) }

namespace Holds

/-- A located handle stays in its place when pages are added. -/
theorem located_extend (same : SameTable rt rt') (extension : Heap.Extends rt.heap rt'.heap)
    (located : Located rt none m object place) : Located rt' none m object place where
  named := (extension.evolves.named place id).trans located.named
  settled := fun _ isPending => nomatch isPending
  addr := by
    rw [same.mappings, (extension.evolves.same place m id located.named).1]
    exact located.addr
  room := by
    rw [(extension.evolves.same place m id located.named).2.2]
    exact located.room

/-- What `available` says of a locality page of the heap. -/
theorem available_locality (holds : rt.Holds objects held none) (lt : n < rt.heap.allocCount)
    (isLocality : rt.heap.pages n = .locality page) :
    (rt.heap.available n % 2 ^ 64).toNat + Metadata.bytes = page.getFreeSpace := by
  have valid := holds.heap.valid n lt
  rw [isLocality] at valid
  have available := LocalityPage.Holds.available_eq valid
  have small : page.available < 2 ^ 64 := Nat.mod_lt _ (by decide)
  simp only [Heap.available, isLocality]
  omega

/-- A new locality page has space for an object of up to 512 bytes. -/
theorem exchangedLocality (holds : rt.Holds objects held none) (size_le : size ≤ 512)
    (found : rt.newLocalityPage tid (size + 32) = some r) :
    SameTable rt r.2 ∧ r.2.Holds objects held none ∧ Heap.Extends rt.heap r.2.heap ∧
      r.1 < r.2.heap.allocCount ∧
      ∃ page, r.2.heap.pages r.1 = .locality page ∧
        size + 2 * Metadata.bytes ≤ page.getFreeSpace := by
  have record : Metadata.bytes = 16 := rfl
  rcases holds.newLocalityPage found with ⟨same, after, extension, lt, page, isLocality, enough⟩
  refine ⟨same, after, extension, lt, page, isLocality, ?_⟩
  have free := after.available_locality lt isLocality
  rcases enough with ⟨start, rfl⟩ | enough
  · have valid := after.heap.valid _ lt
    rw [isLocality] at valid
    have eq := (LocalityPage.Holds.toIntact valid).getFreeSpace_eq
    simp only [LocalityPage.create, pageSize] at eq ⊢
    omega
  · omega

/-- The locality page `localize` allocates on has space for the object and two records. -/
theorem localityTarget (holds : rt.Holds objects held none) (tid_lt : tid < rt.cacheCount)
    (size_ge : 16 ≤ size) (size_le : size ≤ 512) (found : rt.localityTarget tid size = some r) :
    SameTable rt r.2 ∧ r.2.Holds objects held none ∧ Heap.Extends rt.heap r.2.heap ∧
      r.1 < r.2.heap.allocCount ∧
      ∃ page, r.2.heap.pages r.1 = .locality page ∧
        size + 2 * Metadata.bytes ≤ page.getFreeSpace := by
  have record : Metadata.bytes = 16 := rfl
  unfold Runtime.localityTarget at found
  cases current : (rt.caches tid).localityPage with
  | none =>
      rw [current] at found
      exact holds.exchangedLocality size_le found
  | some target =>
      simp only [current] at found
      split at found
      · exact holds.exchangedLocality size_le found
      · next enough =>
          obtain rfl := Option.some.inj found
          rcases (holds.caches tid tid_lt).locality target current with ⟨lt, page, isLocality⟩
          refine ⟨.refl rt, holds, .refl _, lt, page, isLocality, ?_⟩
          have free := holds.available_locality lt isLocality
          simp only [localityFull, decide_eq_true_eq, Nat.not_lt] at enough
          omega

/-- `locality_page->alloc(m, size)` reserves a place on the page. -/
theorem localityAlloc (holds : rt.Holds objects held none) (lt : n < rt.heap.allocCount)
    (isLocality : rt.heap.pages n = .locality page) (aligned : size % 16 = 0) (pos : 0 < size)
    (size_le : size ≤ 512) (fits : size + 2 * Metadata.bytes ≤ page.getFreeSpace)
    {result : Nat × LocalityPage} (allocated : page.alloc m size = result) (epoch : Nat)
    {page' : LocalityPage} (isAfter : page' = { result.2 with lastLocalizationEpoch := epoch }) :
    0 < result.1 ∧ ∃ index, HeapStep rt (rt.setLocality n page') (· = ⟨n, index⟩) ∧
      rt.heap.named ⟨n, index⟩ = none ∧ (rt.setLocality n page').heap.room ⟨n, index⟩ = size ∧
      (rt.setLocality n page').Holds objects held
        (some ⟨⟨n, index⟩, m, result.1, ⟨size, fun _ => none⟩⟩) := by
  have valid := holds.heap.valid n lt
  rw [isLocality] at valid
  have rounded : alignedSize size = size := by
    simp only [alignedSize]
    omega
  have appended := LocalityPage.Holds.alloc (m := m) valid rounded (by omega) fits
  rw [allocated] at appended
  have spec : LocalityPage.Holds.AllocSpec page m size (result.1, page') := by
    rw [isAfter]
    exact appended.setEpoch epoch
  have pageSpec := HeapPage.allocated_locality spec rt.store.bytes
  rw [← isLocality] at pageSpec
  rcases holds.heap.allocated lt pageSpec with ⟨heap, _, before, named, bytes⟩
  have step := holds.heapStep lt pageSpec.toChanged heap rfl
  have room : (rt.setLocality n page').heap.room ⟨n, page.numAllocated⟩ = size := by
    rw [Heap.room, setLocality, Heap.setPage_pages_self]
    exact congrArg Metadata.size spec.record
  have addr : (rt.setLocality n page').heap.addr ⟨n, page.numAllocated⟩ = result.1 := by
    rw [Heap.addr, setLocality, Heap.setPage_pages_self]
    exact (spec.starts _ (Nat.le_refl _)).trans spec.object.symm
  refine ⟨?_, page.numAllocated, step, before, room, ?_⟩
  · have memory := (LocalityPage.Holds.toIntact valid).memory.pos
    have behind := LocalityPage.Intact.data_le page page.numAllocated
    have object : result.1 = page.start page.numAllocated := spec.object
    omega
  · have fine : (rt.setLocality n page').heap.room ⟨n, page.numAllocated⟩ % 16 = 0 ∧
        0 < (rt.setLocality n page').heap.room ⟨n, page.numAllocated⟩ := by
      rw [room]
      exact ⟨aligned, pos⟩
    have reserved := holds.reserve step before named fine bytes
    rw [← setLocality, room, addr] at reserved
    exact reserved

/--
The object in `place` is copied to the reserved place, its handle is set to the copy, and
the old place, which is poisoned, is the reserved one now.
-/
theorem moveReserved {target : Place} {destination : Nat} {reserved : Object}
    (holds : rt.Holds objects none (some ⟨target, m, destination, reserved⟩)) (inTable : InTable m)
    (isLive : objects (toHandle m) = some object)
    (located : Located rt (some ⟨target, m, destination, reserved⟩) m object place)
    (room : rt.heap.room target = rt.heap.room place) :
    (((rt.memcpy destination (rt.heap.addr place) (rt.heap.room place)).memset
        (rt.heap.addr place) 0xFA (rt.heap.room place)).setPointer m destination).Holds objects none
      (some ⟨place, m, rt.heap.addr place, ⟨0, fun _ => none⟩⟩) := by
  have original := holds.data _ object isLive
  rw [backing_toHandle inTable, located.addr] at original
  have fits : object.size ≤ rt.heap.room target := by
    rw [room]
    exact located.room
  have copied : Contains
      (rt.store.bytes.memmove destination (rt.heap.addr place) (rt.heap.room place)) destination
      object :=
    original.memmove fun index lt byte known => ⟨Nat.lt_of_lt_of_le lt located.room, lt, known⟩
  have target_extent := rt.heap.room_le target
  have filled := holds.fill fits copied fun other outside => by
    apply Bytes.memmove_outside
    simp only at outside
    omega
  have settled : Located (rt.memcpy destination (rt.heap.addr place) (rt.heap.room place))
      (some ⟨target, m, destination, object⟩) m object place := by
    refine ⟨located.named, ?_, located.addr, located.room⟩
    rintro _ ⟨rfl⟩
    exact located.settled ⟨target, m, destination, reserved⟩ rfl
  have switched := filled.switch isLive inTable settled fits copied
  have place_extent := rt.heap.room_le place
  have empty : (⟨0, fun _ => none⟩ : Object).size ≤ rt.heap.room place := Nat.zero_le _
  refine switched.fill empty (fun _ lt => absurd lt (Nat.not_lt_zero _)) fun other outside => ?_
  apply Bytes.memset_outside
  exact outside.imp_right (Nat.add_le_add_left place_extent _).trans

/-- Every named mapping keeps a place, with the same room. -/
def SameRooms (h h' : Heap) : Prop :=
  ∀ place m, h.named place = some m →
    ∃ place', h'.named place' = some m ∧ h'.room place' = h.room place

theorem SameRooms.refl (h : Heap) : SameRooms h h := fun place _ isNamed => ⟨place, isNamed, rfl⟩

theorem SameRooms.trans {h h' h'' : Heap} (first : SameRooms h h') (second : SameRooms h' h'') :
    SameRooms h h'' := by
  intro place m isNamed
  rcases first place m isNamed with ⟨place', isNamed', room⟩
  rcases second place' m isNamed' with ⟨place'', isNamed'', room'⟩
  exact ⟨place'', isNamed'', room'.trans room⟩

/-- A step on a place that another place replaces, or that names nothing. -/
theorem sameRooms_of_evolves {h h' : Heap} (evolves : Heap.Evolves h h' (· = place))
    (replaced : ∀ m, h.named place = some m →
      ∃ other ≠ place, h.named other = some m ∧ h.room other = h.room place) :
    SameRooms h h' := by
  intro own m isNamed
  by_cases equal : own = place
  · subst equal
    rcases replaced m isNamed with ⟨other, ne, otherNamed, room⟩
    exact ⟨other, (evolves.named other ne).trans otherNamed,
      (evolves.same other m ne otherNamed).2.2.trans room⟩
  · exact ⟨own, (evolves.named own equal).trans isNamed,
      (evolves.same own m equal isNamed).2.2⟩

theorem sameRooms_of_extends {h h' : Heap} (extension : Heap.Extends h h') : SameRooms h h' :=
  fun own m isNamed => ⟨own, (extension.evolves.named own id).trans isNamed,
    (extension.evolves.same own m id isNamed).2.2⟩

/-- What `localize` of `m` leaves: the other objects stay, and nothing but pages changes. -/
structure Localized (rt rt' : Runtime) (objects : Objects) (m : Nat) : Prop where
  holds : rt'.Holds objects none none
  rooms : SameRooms rt.heap rt'.heap
  keeps : Keeps rt rt' (objects.remove (toHandle m))
  table : rt'.table = rt.table
  huge : rt'.huge = rt.huge

/-- The whole move of an object to the reserved place, with the release of the old one. -/
theorem moveOut {q : SizedPage} {target : Place} {destination : Nat} {reserved : Object}
    (holds : rt.Holds objects none (some ⟨target, m, destination, reserved⟩)) (inTable : InTable m)
    (isLive : objects (toHandle m) = some object)
    (located : Located rt (some ⟨target, m, destination, reserved⟩) m object place)
    (room : rt.heap.room target = rt.heap.room place)
    (sized : rt.heap.pages place.page = .sized q) (apart : target ≠ place) :
    ∃ rt', (((rt.memcpy destination (rt.heap.addr place) (rt.heap.room place)).memset
        (rt.heap.addr place) 0xFA (rt.heap.room place)).setPointer m destination).release place.page
          (rt.heap.addr place) false = some rt' ∧ Localized rt rt' objects m := by
  have moved := holds.moveReserved inTable isLive located room
  have switched := Keeps.setPointer_remove holds m destination
  have elsewhere : ∀ p, rt.heap.pages place.page = .locality p →
      ∀ reservation : Reservation, some (Reservation.mk place m (rt.heap.addr place)
        ⟨0, fun _ => none⟩) = some reservation → reservation.place.page ≠ place.page := by
    intro p isLocality
    rw [sized] at isLocality
    exact nomatch isLocality
  rcases moved.releasePlace (moved.reserved _ rfl).1 elsewhere false with
    ⟨rt', released, same, step, after, bytes⟩
  have rooms : SameRooms rt.heap rt'.heap := by
    refine sameRooms_of_evolves step.evolves fun other isNamed => ?_
    obtain rfl := Option.some.inj (located.named.symm.trans isNamed)
    exact ⟨target, apart, (holds.reserved _ rfl).1, room⟩
  refine ⟨rt', released, moved.discard step after bytes, rooms, ?_, same.table, same.huge⟩
  exact switched.trans ((Keeps.setBytes _ _ _).trans (same.keeps _))

/-- An object of a sized page moves to a locality page. -/
theorem localizeTo {q : SizedPage} (holds : rt.Holds objects none none) (inTable : InTable m)
    (isLive : objects (toHandle m) = some object) (located : Located rt none m object place)
    (sized : rt.heap.pages place.page = .sized q) (lt : n < rt.heap.allocCount)
    (isLocality : rt.heap.pages n = .locality page) (size_le : rt.heap.room place ≤ 512)
    (fits : rt.heap.room place + 2 * Metadata.bytes ≤ page.getFreeSpace) (epoch : Nat) :
    ∃ rt', rt.localizeTo place.page n m (rt.heap.addr place) (rt.heap.room place) epoch =
        some rt' ∧ Localized rt rt' objects m := by
  rcases holds.rooms place m located.named with ⟨aligned, pos⟩
  simp only [Runtime.localizeTo, isLocality]
  generalize allocated : page.alloc m (rt.heap.room place) = result
  generalize isAfter : ({ result.2 with lastLocalizationEpoch := epoch } : LocalityPage) = page'
  rcases holds.localityAlloc lt isLocality aligned pos size_le fits allocated epoch isAfter.symm with
    ⟨found, index, step, before, room, reserved⟩
  rw [if_neg found.ne']
  have apart : place.page ≠ n := by
    rintro rfl
    rw [isLocality] at sized
    exact nomatch sized
  have untouched : place ≠ ⟨n, index⟩ := fun same => apart (congrArg Place.page same)
  have settled : ∀ reservation, some (Reservation.mk ⟨n, index⟩ m result.1
      ⟨rt.heap.room place, fun _ => none⟩) = some reservation → reservation.place ≠ place := by
    rintro _ ⟨rfl⟩
    exact untouched.symm
  have kept := step.located located untouched settled
  have same := step.evolves.same place m untouched located.named
  rw [← same.2.2] at room
  have isSized : (rt.setLocality n page').heap.pages place.page = .sized q :=
    (Heap.setPage_pages_of_ne apart).trans sized
  have moved := reserved.moveOut inTable isLive kept room isSized untouched.symm
  rw [same.2.2, same.1] at moved
  rcases moved with ⟨rt', released, localized⟩
  have appended : Keeps rt (rt.setLocality n page') objects :=
    ⟨fun p _ _ => step.backing p, Nat.le_of_eq step.cacheCount.symm⟩
  have rooms : SameRooms rt.heap (rt.setLocality n page').heap := by
    refine sameRooms_of_evolves step.evolves fun other isNamed => ?_
    rw [before] at isNamed
    exact nomatch isNamed
  refine ⟨rt', released, localized.holds, rooms.trans localized.rooms,
    (appended.remove _).trans localized.keeps, localized.table.trans step.table,
    localized.huge.trans step.huge⟩

theorem localized_refl (holds : rt.Holds objects none none) (m : Nat) :
    Localized rt rt objects m :=
  ⟨holds, .refl _, .refl _ _, rfl, rfl⟩

/-- The move of a small object of a sized page, once a locality page is there. -/
theorem localizeMove {source : SizedPage} {rt₁ : Runtime} {target : Nat}
    (holds : rt.Holds objects none none) (tid_lt : tid < rt.cacheCount) (inTable : InTable m)
    (isLive : objects (toHandle m) = some object) (located : Located rt none m object place)
    (isSized : rt.heap.pages place.page = .sized source) (size_le : rt.heap.room place ≤ 512)
    (exchanged : rt.localityTarget tid (rt.heap.room place) = some (target, rt₁)) (epoch : Nat) :
    Localized rt rt₁ objects m ∧
      ∃ rt', rt₁.localizeTo place.page target m (rt.heap.addr place) (rt.heap.room place) epoch =
        some rt' ∧ Localized rt rt' objects m := by
  have lt := (Heap.named_eq_some.mp located.named).1
  have room := holds.rooms place m located.named
  rcases holds.localityTarget tid_lt (by omega) size_le exchanged with
    ⟨same, after, extension, target_lt, page, isLocality, fits⟩
  have rooms := sameRooms_of_extends extension
  refine ⟨⟨after, rooms, same.keeps _, same.table, same.huge⟩, ?_⟩
  have settled := located_extend same extension located
  have sized := (extension.pages _ lt).trans isSized
  have kept := extension.evolves.same place m id located.named
  rw [← kept.2.2] at size_le fits
  rcases after.localizeTo inTable isLive settled sized target_lt isLocality size_le fits epoch with
    ⟨rt', moved, localized⟩
  rw [kept.1, kept.2.2] at moved
  exact ⟨rt', moved, localized.holds, rooms.trans localized.rooms,
    (same.keeps _).trans localized.keeps, localized.table.trans same.table,
    localized.huge.trans same.huge⟩

/-- `localize` of a live object that is in a place of a page. -/
theorem localizeFrom {result : Bool × Runtime} {epoch : Nat} (holds : rt.Holds objects none none)
    (tid_lt : tid < rt.cacheCount) (inTable : InTable m)
    (isLive : objects (toHandle m) = some object) (located : Located rt none m object place)
    (found : rt.localizeFrom tid m (rt.heap.addr place) epoch (some place.page) = some result) :
    Localized rt result.2 objects m := by
  have size := holds.sizeOf_place located.named
  simp only [Runtime.localizeFrom] at found
  cases isPage : rt.heap.pages place.page with
  | locality page =>
      simp only [isPage] at found
      obtain rfl := Option.some.inj found
      exact holds.localized_refl m
  | sized page =>
      simp only [Runtime.sizeOf, isPage, Option.some.injEq] at size
      simp only [isPage, size] at found
      split at found
      · obtain rfl := Option.some.inj found
        exact holds.localized_refl m
      next small =>
      simp only [Option.bind_eq_bind, Option.bind_eq_some_iff, Prod.exists] at found
      rcases found with ⟨target, rt₁, exchanged, rest⟩
      rcases holds.localizeMove tid_lt inTable isLive located isPage (Nat.not_lt.mp small) exchanged
        epoch with ⟨stays, rt', moved, localized⟩
      split at rest
      · obtain rfl := Option.some.inj rest
        exact stays
      · simp only [moved, Option.bind_eq_some_iff, Option.some.injEq, exists_eq_left'] at rest
        obtain rfl := rest
        exact localized

/-- A mapping without an object points to nothing on the heap. -/
theorem getUnaligned_stale (holds : rt.Holds objects none none)
    (dead : ¬ Live objects none m) :
    rt.heap.getUnaligned (rt.store.mappings m).getPointer = none :=
  holds.heap.getUnaligned_none (holds.table.stale m dead)

/-- `localize` of any mapping; a pinned one and one without an object stay as they are. -/
theorem localize {result : Bool × Runtime} {epoch : Nat} (holds : rt.Holds objects none none)
    (tid_lt : tid < rt.cacheCount) (found : rt.localize tid m epoch = some result) :
    Localized rt result.2 objects m ∧
      ((rt.store.mappings m).isPinned = true ∨ ¬ Live objects none m → result.2 = rt) := by
  unfold Runtime.localize at found
  split at found
  · obtain rfl := Option.some.inj found
    exact ⟨holds.localized_refl m, fun _ => rfl⟩
  next moves =>
  have unpinned : (rt.store.mappings m).isPinned ≠ true := by
    intro pinned
    simp [pinned] at moves
  by_cases live : Live objects none m
  · refine ⟨?_, fun stays => absurd stays (by simp [unpinned, live])⟩
    rcases live with ⟨inTable, object, isLive⟩ | isHeld
    · rcases holds.located m object inTable isLive with ⟨place, located⟩
      have page := holds.heap.getUnaligned_addr located.named
      rw [located.addr, page] at found
      exact holds.localizeFrom tid_lt inTable isLive located found
    · exact nomatch isHeld
  · rw [holds.getUnaligned_stale live] at found
    obtain rfl := Option.some.inj found
    exact ⟨holds.localized_refl m, fun _ => rfl⟩

end Holds

end Runtime

end Alaska
