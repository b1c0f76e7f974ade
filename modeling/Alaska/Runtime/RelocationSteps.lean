import Alaska.Runtime.HugeSteps
import Alaska.Runtime.LocalityPageSlides

/-!
# Compaction and jumbling of a page

Both move the objects of one page: between the slots of a sized page, or down over the free
records of a locality page. The objects keep their handles, since the mappings of the moved
ones are set to where they are.
-/

namespace Alaska

open Memory Mapping

namespace Runtime

variable {rt : Runtime} {objects : Objects} {p p' : SizedPage} {page : HeapPage} {s' : Store}
  {m n : Nat} {object : Object} {place : Place} {slots : Equiv.Perm Nat}

/-- The runtime after an operation of page `n`. -/
def replacePage (rt : Runtime) (n : Nat) (page : HeapPage) (store : Store) : Runtime :=
  { rt with heap := rt.heap.setPage n page, store := store }

/-- What a rearrangement does to the object of `m` in `place`. -/
structure Moved (rt rt' : Runtime) (m : Nat) (place place' : Place) : Prop where
  named : rt'.heap.named place' = some m
  pointer : (rt'.store.mappings m).getPointer = rt'.heap.addr place'
  room : rt'.heap.room place' = rt.heap.room place
  bytes : ∀ offset < rt.heap.room place,
    rt'.store.bytes (rt'.heap.addr place' + offset) = rt.store.bytes (rt.heap.addr place + offset)
  valid : (rt'.store.mappings m).isFree = (rt.store.mappings m).isFree ∨
    (rt'.store.mappings m).isFree = false
  pinned : (rt.store.mappings m).isPinned = true → rt'.store.mappings m = rt.store.mappings m

/--
Page `n` was replaced by `page`, on which its objects are in other places; nothing outside of
the page, and no mapping without an object there, has changed.
-/
structure Rearranged (rt : Runtime) (n : Nat) (page : HeapPage) (s' : Store) : Prop where
  valid : page.Valid s'.bytes
  memory : page.memory = (rt.heap.pages n).memory
  sized : ∀ p, rt.heap.pages n = .sized p → ∃ p', page = .sized p' ∧ p'.sizeClass = p.sizeClass
  locality : ∀ p, rt.heap.pages n = .locality p → ∃ p', page = .locality p'
  outside : ∀ address, address < rt.heap.getPage n ∨ rt.heap.getPage n + pageSize ≤ address →
    s'.bytes address = rt.store.bytes address
  words : ∀ m, (∀ index, rt.heap.named ⟨n, index⟩ ≠ some m) → s'.mappings m = rt.store.mappings m
  arrives : ∀ index m, rt.heap.named ⟨n, index⟩ = some m →
    ∃ index', Moved rt (rt.replacePage n page s') m ⟨n, index⟩ ⟨n, index'⟩
  departs : ∀ index' m, page.named index' = some m → ∃ index,
    rt.heap.named ⟨n, index⟩ = some m ∧
      Moved rt (rt.replacePage n page s') m ⟨n, index⟩ ⟨n, index'⟩

namespace Holds

/-- The headers of a page and the mappings agree between operations. -/
theorem backed_sized (holds : rt.Holds objects none none) (lt : n < rt.heap.allocCount)
    (isSized : rt.heap.pages n = .sized p) : p.Backed rt.store.mappings := by
  intro index index_lt m isNamed
  have named : rt.heap.named ⟨n, index⟩ = some m := by
    refine Heap.named_eq_some.mpr ⟨lt, ?_⟩
    rw [isSized]
    exact HeapPage.named_sized.mpr ⟨index_lt, isNamed⟩
  have pointer := (holds.names _ m named (fun _ isPending => nomatch isPending)).2.1
  simpa only [Heap.addr, isSized, HeapPage.addr] using pointer

/-- A page of records and the mappings agree, when no place of the page is reserved. -/
theorem backed_locality {p : LocalityPage} {held : Option Nat} {pending : Option Reservation}
    (holds : rt.Holds objects held pending)
    (lt : n < rt.heap.allocCount) (isLocality : rt.heap.pages n = .locality p)
    (elsewhere : ∀ reservation, pending = some reservation → reservation.place.page ≠ n) :
    p.Backed rt.store.mappings := by
  intro index m isNamed
  have named : rt.heap.named ⟨n, index⟩ = some m := by
    refine Heap.named_eq_some.mpr ⟨lt, ?_⟩
    rw [isLocality]
    exact isNamed
  have pointer := (holds.names _ m named fun reservation isPending same =>
    elsewhere reservation isPending (congrArg Place.page same)).2.1
  simpa only [Heap.addr, isLocality, HeapPage.addr] using pointer

/-- Places of sized page `n` before and after a relocation. -/
theorem named_relocated (lt : n < rt.heap.allocCount) (isSized : rt.heap.pages n = .sized p)
    (relocated : SizedPage.Relocated p rt.store p' s' slots) {index : Nat} :
    (rt.replacePage n (.sized p') s').heap.named ⟨n, index⟩ = some m ↔
      index < p.capacity ∧ rt.heap.named ⟨n, slots index⟩ = some m := by
  have before : rt.heap.named ⟨n, slots index⟩ = some m ↔
      slots index < p.capacity ∧ (p.headers (slots index)).named = some m := by
    rw [Heap.named_eq_some, isSized, HeapPage.named_sized]
    simp [lt]
  have after : (rt.replacePage n (.sized p') s').heap.named ⟨n, index⟩ = some m ↔
      index < p'.capacity ∧ (p'.headers index).named = some m := by
    rw [replacePage, Heap.named_setPage lt, HeapPage.named_sized]
  rw [before, after, relocated.same.capacity]
  constructor
  · rintro ⟨index_lt, named⟩
    exact ⟨index_lt, relocated.slots_lt index_lt, relocated.named_eq index_lt ▸ named⟩
  · rintro ⟨index_lt, _, named⟩
    exact ⟨index_lt, (relocated.named_eq index_lt).trans named⟩

/-- An object of the page moves to the slot the relocation assigns. -/
theorem moved_inside (holds : rt.Holds objects none none) (lt : n < rt.heap.allocCount)
    (isSized : rt.heap.pages n = .sized p)
    (relocated : SizedPage.Relocated p rt.store p' s' slots) {index : Nat}
    (isNamed : rt.heap.named ⟨n, index⟩ = some m) :
    Moved rt (rt.replacePage n (.sized p') s') m ⟨n, index⟩ ⟨n, slots.symm index⟩ := by
  have pageNamed := (Heap.named_eq_some.mp isNamed).2
  rw [isSized] at pageNamed
  rcases HeapPage.named_sized.mp pageNamed with ⟨index_lt, headerNamed⟩
  have target_lt := relocated.symm_lt index_lt
  have back : slots (slots.symm index) = index := slots.apply_symm_apply index
  have live : (p.headers index).isFree = false := (Header.named_eq_some.mp headerNamed).1
  have header : p'.headers (slots.symm index) = p.headers index := by
    rw [relocated.headers _ target_lt (Or.inr (by rwa [back])), back]
  have named : (rt.replacePage n (.sized p') s').heap.named ⟨n, slots.symm index⟩ = some m := by
    rw [named_relocated lt isSized relocated, back]
    exact ⟨target_lt, isNamed⟩
  have addr : ∀ other, (rt.replacePage n (.sized p') s').heap.addr ⟨n, other⟩ =
      p.indToObject other := by
    intro other
    rw [Heap.addr, replacePage, Heap.setPage_pages_self]
    exact congrFun relocated.same.indToObject other
  have before : rt.heap.addr ⟨n, index⟩ = p.indToObject index := by
    rw [Heap.addr, isSized]
    rfl
  have pointer := holds.backed_sized lt isSized index index_lt m headerNamed
  have words := relocated.words _ target_lt m (by rwa [header])
  have small := holds.heap.addr_lt isNamed
  have layout : p.Layout := by
    have valid := holds.heap.valid n lt
    rw [isSized] at valid
    rcases valid with ⟨_, _, _, pageHolds⟩
    exact pageHolds.layout
  have target_small := layout.slot_lt target_lt
  refine ⟨named, ?_, ?_, ?_, ?_, ?_⟩
  · rw [addr]
    rcases words with ⟨word, fixed⟩ | ⟨_, word⟩
    · rw [back] at fixed
      rw [← fixed]
      exact (congrArg Mapping.getPointer word).trans pointer
    · refine (congrArg Mapping.getPointer word).trans (getPointer_setPointer ?_)
      omega
  · simp only [Heap.room, replacePage, Heap.setPage_pages_self, HeapPage.room, header, isSized,
      relocated.same.objectSize]
  · intro offset offset_lt
    have room : offset < p.objectSize := by
      have := rt.heap.room_le ⟨n, index⟩
      simp only [Heap.extent, isSized, HeapPage.extent] at this
      omega
    rw [addr, before]
    have moved := relocated.bytes _ target_lt (by rwa [header]) offset room
    rwa [back] at moved
  · rcases words with ⟨word, _⟩ | ⟨_, word⟩
    · exact Or.inl (congrArg Mapping.isFree word)
    · exact Or.inr ((congrArg Mapping.isFree word).trans isFree_setPointer)
  · intro isPinned
    rcases words with ⟨word, _⟩ | ⟨unpinned, _⟩
    · exact word
    · exact absurd (isPinned.symm.trans unpinned) (by simp)

/-- A relocation writes to the page only. -/
theorem relocated_outside (holds : rt.Holds objects none none) (lt : n < rt.heap.allocCount)
    (isSized : rt.heap.pages n = .sized p)
    (relocated : SizedPage.Relocated p rt.store p' s' slots) {address : Nat}
    (outside : address < rt.heap.getPage n ∨ rt.heap.getPage n + pageSize ≤ address) :
    s'.bytes address = rt.store.bytes address := by
  have valid := holds.heap.valid n lt
  have memory := holds.heap.memory n lt
  rw [isSized] at valid memory
  rcases valid with ⟨_, _, _, pageHolds⟩
  refine relocated.otherBytes address fun index index_lt => ?_
  have inside := pageHolds.layout.slot_inside index_lt
  simp only [HeapPage.memory] at memory
  omega

/-- The word of a mapping that no header of the page names stays. -/
theorem relocated_word (lt : n < rt.heap.allocCount) (isSized : rt.heap.pages n = .sized p)
    (relocated : SizedPage.Relocated p rt.store p' s' slots)
    (foreign : ∀ index, rt.heap.named ⟨n, index⟩ ≠ some m) :
    s'.mappings m = rt.store.mappings m := by
  refine relocated.otherWords m fun index index_lt headerNamed => ?_
  refine foreign (slots index) (Heap.named_eq_some.mpr ⟨lt, ?_⟩)
  rw [isSized]
  exact HeapPage.named_sized.mpr
    ⟨relocated.slots_lt index_lt, relocated.named_eq index_lt ▸ headerNamed⟩

/-- A relocation rearranges the page. -/
theorem rearranged_sized (holds : rt.Holds objects none none) (lt : n < rt.heap.allocCount)
    (isSized : rt.heap.pages n = .sized p) {locals remotes : List Nat} {bumped : Nat}
    (pageHolds : p'.Holds s'.bytes locals remotes bumped)
    (relocated : SizedPage.Relocated p rt.store p' s' slots) :
    Rearranged rt n (.sized p') s' where
  valid := ⟨locals, remotes, bumped, pageHolds⟩
  memory := by
    rw [isSized]
    exact relocated.same.memory
  sized := by
    rw [isSized]
    rintro _ ⟨rfl⟩
    exact ⟨p', rfl, relocated.same.sizeClass⟩
  locality := by
    rw [isSized]
    rintro _ ⟨⟩
  outside := fun address => holds.relocated_outside lt isSized relocated
  words := fun m => relocated_word lt isSized relocated
  arrives := fun index m isNamed => ⟨_, holds.moved_inside lt isSized relocated isNamed⟩
  departs := by
    intro index m isNamed
    have after : (rt.replacePage n (.sized p') s').heap.named ⟨n, index⟩ = some m :=
      (Heap.named_setPage lt).trans isNamed
    have before := (named_relocated lt isSized relocated).mp after
    have moved := holds.moved_inside lt isSized relocated before.2
    rw [Equiv.symm_apply_apply] at moved
    exact ⟨_, before.2, moved⟩

theorem named_locality {p : LocalityPage} (lt : n < rt.heap.allocCount)
    (isLocality : rt.heap.pages n = .locality p) {index : Nat} :
    rt.heap.named ⟨n, index⟩ = some m ↔ p.named index = some m := by
  rw [Heap.named_eq_some, isLocality]
  exact and_iff_right lt

/-- An object moves to the record that names its mapping after the passes. -/
theorem moved_record (holds : rt.Holds objects none none) (lt : n < rt.heap.allocCount)
    {p p' : LocalityPage} {moved index index' : Nat} (isLocality : rt.heap.pages n = .locality p)
    (valid : p'.Valid s'.mappings) (compacted : LocalityPage.Compacted p rt.store p' s' moved)
    (isNamed : p.named index = some m) (isNamed' : p'.named index' = some m)
    (size : (p'.metadata index').size = (p.metadata index).size) :
    Moved rt (rt.replacePage n (.locality p') s') m ⟨n, index⟩ ⟨n, index'⟩ := by
  have backed := holds.backed_locality lt isLocality (by rintro _ ⟨⟩)
  have member : (m, (p.metadata index).size) ∈ p.objects :=
    LocalityPage.mem_objects.mpr ⟨index, isNamed, rfl⟩
  have room : rt.heap.room ⟨n, index⟩ = (p.metadata index).size := by
    rw [Heap.room, isLocality]
    rfl
  have addr : rt.heap.addr ⟨n, index⟩ = p.start index := by
    rw [Heap.addr, isLocality]
    rfl
  have addr' : (rt.replacePage n (.locality p') s').heap.addr ⟨n, index'⟩ = p'.start index' := by
    rw [Heap.addr, replacePage, Heap.setPage_pages_self]
    rfl
  refine ⟨(Heap.named_setPage lt).trans isNamed', ?_, ?_, ?_, ?_, ?_⟩
  · rw [addr']
    exact valid.backed index' m isNamed'
  · rw [Heap.room, replacePage, Heap.setPage_pages_self, room]
    exact size
  · intro offset small
    have bytes := compacted.bytes _ member offset (room ▸ small)
    rw [valid.backed index' m isNamed', backed index m isNamed] at bytes
    rw [addr', addr]
    exact bytes
  · exact compacted.cleared m
  · exact compacted.pinned m

/-- The passes over a locality page rearrange it. -/
theorem rearranged_locality (holds : rt.Holds objects none none) (lt : n < rt.heap.allocCount)
    {p p' : LocalityPage} {moved : Nat} (isLocality : rt.heap.pages n = .locality p)
    (valid : p'.Valid s'.mappings) (spare : p'.SparesRecord)
    (compacted : LocalityPage.Compacted p rt.store p' s' moved) :
    Rearranged rt n (.locality p') s' := by
  constructor
  · exact ⟨valid.intact, spare⟩
  · rw [isLocality]
    exact compacted.data
  · rw [isLocality]
    rintro _ ⟨⟩
  · intro _ _
    exact ⟨p', rfl⟩
  · intro address apart
    have memory := holds.heap.memory n lt
    have pageValid := holds.heap.valid n lt
    rw [isLocality] at memory pageValid
    have space := (LocalityPage.Holds.toIntact pageValid).space
    refine compacted.otherBytes address ?_
    simp only [HeapPage.memory] at memory
    omega
  · intro m foreign
    refine compacted.otherWords m fun object member same => ?_
    rcases LocalityPage.mem_objects.mp member with ⟨index, isNamed, _⟩
    exact foreign index ((named_locality lt isLocality).mpr (same ▸ isNamed))
  · intro index m isNamed
    have isNamed := (named_locality lt isLocality).mp isNamed
    have member : (m, (p.metadata index).size) ∈ p.objects :=
      LocalityPage.mem_objects.mpr ⟨index, isNamed, rfl⟩
    rw [← compacted.objects] at member
    rcases LocalityPage.mem_objects.mp member with ⟨index', isNamed', size⟩
    exact ⟨index', holds.moved_record lt isLocality valid compacted isNamed isNamed' size⟩
  · intro index' m isNamed'
    have member : (m, (p'.metadata index').size) ∈ p'.objects :=
      LocalityPage.mem_objects.mpr ⟨index', isNamed', rfl⟩
    rw [compacted.objects] at member
    rcases LocalityPage.mem_objects.mp member with ⟨index, isNamed, size⟩
    exact ⟨index, (named_locality lt isLocality).mpr isNamed,
      holds.moved_record lt isLocality valid compacted isNamed isNamed' size.symm⟩

/-- An object of another page stays. -/
theorem moved_outside (holds : rt.Holds objects none none)
    (rearranged : Rearranged rt n page s') (located : Located rt none m object place)
    (elsewhere : place.page ≠ n) : Moved rt (rt.replacePage n page s') m place place := by
  have word : s'.mappings m = rt.store.mappings m := by
    refine rearranged.words m fun index isNamed => elsewhere ?_
    rw [← holds.place_unique located isNamed (fun _ isPending => nomatch isPending)]
  have addr : (rt.replacePage n page s').heap.addr place = rt.heap.addr place := by
    rw [Heap.addr, replacePage, Heap.setPage_pages_of_ne elsewhere]
    rfl
  refine ⟨?_, ?_, ?_, ?_, Or.inl (congrArg Mapping.isFree word), fun _ => word⟩
  · exact (Heap.named_setPage_of_ne elsewhere).trans located.named
  · rw [addr]
    exact (congrArg Mapping.getPointer word).trans located.addr
  · rw [Heap.room, replacePage, Heap.setPage_pages_of_ne elsewhere]
    rfl
  · intro offset offset_lt
    rw [addr]
    refine rearranged.outside _ ?_
    have inside := holds.heap.inside_page located.named
    have apart := Heap.Invariant.getPage_apart (h := rt.heap) elsewhere
    have := rt.heap.room_le place
    omega

/-- Every object ends in some place, with its bytes. -/
theorem moved (holds : rt.Holds objects none none) (rearranged : Rearranged rt n page s')
    (located : Located rt none m object place) :
    ∃ place', Moved rt (rt.replacePage n page s') m place place' := by
  rcases place with ⟨other, index⟩
  by_cases here : other = n
  · subst here
    rcases rearranged.arrives index m located.named with ⟨index', moved⟩
    exact ⟨_, moved⟩
  · exact ⟨_, holds.moved_outside rearranged located here⟩

/-- Every place that names a mapping afterwards is where its object went. -/
theorem moved_from (holds : rt.Holds objects none none) (lt : n < rt.heap.allocCount)
    (rearranged : Rearranged rt n page s') {place' : Place}
    (isNamed : (rt.replacePage n page s').heap.named place' = some m) :
    ∃ place, rt.heap.named place = some m ∧
      Moved rt (rt.replacePage n page s') m place place' := by
  rcases place' with ⟨other, index⟩
  by_cases here : other = n
  · subst here
    rcases rearranged.departs index m ((Heap.named_setPage lt).symm.trans isNamed) with
      ⟨index', before, moved⟩
    exact ⟨_, before, moved⟩
  · have before := (Heap.named_setPage_of_ne here).symm.trans isNamed
    have settled : ∀ reservation : Reservation, none = some reservation →
        reservation.place ≠ ⟨other, index⟩ := by
      rintro _ ⟨⟩
    rcases holds.names _ m before settled with ⟨inTable, _, object, isLive⟩
    rcases holds.located m object inTable isLive with ⟨place, located⟩
    obtain rfl := holds.place_unique located before settled
    exact ⟨_, before, holds.moved_outside rearranged located here⟩

/-- A rearrangement of a page keeps the invariant, and pinned objects stay. -/
theorem rearrange (holds : rt.Holds objects none none) (lt : n < rt.heap.allocCount)
    (rearranged : Rearranged rt n page s') :
    (rt.replacePage n page s').Holds objects none none ∧
      ∀ m object, InTable m → objects (toHandle m) = some object →
        (rt.store.mappings m).isPinned = true → s'.mappings m = rt.store.mappings m := by
  have whole : Heap.Evolves rt.heap (rt.replacePage n page s').heap fun place => place.page = n :=
    Heap.evolves_setPage rearranged.sized rearranged.locality
  have heap : (rt.replacePage n page s').heap.Invariant s'.bytes := by
    refine holds.heap.setPage rearranged.valid rearranged.memory rearranged.sized
      rearranged.locality ?_
    intro other other_lt ne
    refine (holds.heap.valid other other_lt).congr fun address lower upper => Or.inl ?_
    rw [holds.heap.memory other other_lt] at lower upper
    have apart := Heap.Invariant.getPage_apart (h := rt.heap) ne
    exact rearranged.outside address (by omega)
  have settled : ∀ place, ∀ reservation : Reservation, none = some reservation →
      reservation.place ≠ place :=
    fun _ _ isPending => nomatch isPending
  refine ⟨⟨?_, heap, holds.huge, ?_, holds.fresh, holds.sizes, ?_, ?_, ?_, ?_, ?_, ?_, ?_⟩, ?_⟩
  · refine holds.table.congr fun m notLive => ?_
    refine rearranged.words m fun index isNamed => notLive ?_
    rcases holds.names _ m isNamed (settled _) with ⟨inTable, _, isLive⟩
    exact Or.inl ⟨inTable, isLive⟩
  · intro tid tid_lt
    exact (holds.caches tid tid_lt).evolve (Nat.le_refl _) whole
  · intro q object isLive
    rcases holds.pointers q object isLive with isHandle | ⟨header, mapped⟩
    · exact Or.inl isHandle
    · exact Or.inr ⟨header, mapped.member, mapped.data, mapped.size, mapped.room⟩
  · intro m object inTable isLive
    rcases holds.located m object inTable isLive with ⟨place, located⟩
    rcases holds.moved rearranged located with ⟨place', moved⟩
    refine ⟨place', moved.named, settled _, moved.pointer, ?_⟩
    rw [moved.room]
    exact located.room
  · intro m object inTable isLive
    rcases holds.located m object inTable isLive with ⟨place, located⟩
    rcases holds.moved rearranged located with ⟨place', moved⟩
    rcases moved.valid with same | cleared
    · exact same.trans (holds.valid m object inTable isLive)
    · exact cleared
  · intro place' m isNamed _
    rcases holds.moved_from lt rearranged isNamed with ⟨place, before, moved⟩
    rcases holds.names place m before (settled _) with ⟨inTable, _, isLive⟩
    exact ⟨inTable, moved.pointer, isLive⟩
  · intro place' m isNamed
    rcases holds.moved_from lt rearranged isNamed with ⟨place, before, moved⟩
    rw [moved.room]
    exact holds.rooms place m before
  · exact fun _ isPending => nomatch isPending
  · intro q object isLive index index_lt byte known
    rw [← holds.data q object isLive index index_lt byte known]
    rcases holds.pointer_cases isLive with ⟨m, inTable, rfl, _⟩ | ⟨user, header, mapped⟩
    · rcases holds.located m object inTable isLive with ⟨place, located⟩
      rcases holds.moved rearranged located with ⟨place', moved⟩
      rw [backing_toHandle inTable, backing_toHandle inTable, moved.pointer, located.addr]
      exact moved.bytes index (Nat.lt_of_lt_of_le index_lt located.room)
    · rw [backing_user user, backing_user user]
      have region := holds.heap.getPage_le lt
      have inside := mapped.inside
      have apart := (holds.huge.bounds header mapped.member).outside
      exact rearranged.outside _ (by omega)
  · intro m object inTable isLive isPinned
    rcases holds.located m object inTable isLive with ⟨place, located⟩
    rcases holds.moved rearranged located with ⟨place', moved⟩
    exact moved.pinned isPinned

/-- A locality page between operations. -/
theorem valid_locality {p : LocalityPage} (holds : rt.Holds objects none none)
    (lt : n < rt.heap.allocCount) (isLocality : rt.heap.pages n = .locality p) :
    p.Valid rt.store.mappings ∧ p.SparesRecord := by
  have valid := holds.heap.valid n lt
  rw [isLocality] at valid
  exact ⟨⟨LocalityPage.Holds.toIntact valid, holds.backed_locality lt isLocality (by rintro _ ⟨⟩)⟩,
    LocalityPage.Holds.spare valid⟩

/-- `compact` on a page of the heap. -/
theorem compactPage {rt' : Runtime} (holds : rt.Holds objects none none)
    (lt : n < rt.heap.allocCount) (compacted : rt.compactPage n = some rt') :
    rt'.Holds objects none none ∧ rt'.table = rt.table ∧ rt'.cacheCount = rt.cacheCount ∧
      rt'.huge = rt.huge ∧
      ∀ m object, InTable m → objects (toHandle m) = some object →
        (rt.store.mappings m).isPinned = true → rt'.store.mappings m = rt.store.mappings m := by
  simp only [Runtime.compactPage] at compacted
  split at compacted
  · next p isSized =>
    obtain rfl := Option.some.inj compacted
    have valid := holds.heap.valid n lt
    rw [isSized] at valid
    rcases valid with ⟨locals, remotes, bumped, pageHolds⟩
    have distinct := (holds.backed_sized lt isSized).distinct pageHolds.layout
    by_cases empty : p.capacity = 0
    · -- a page without slots returns at once
      have nothing : p.compact rt.store = (0, p, rt.store) := by
        rw [SizedPage.compact, if_pos (pageHolds.layout.liveObjects.trans empty.symm)]
      rw [nothing]
      have relocated := SizedPage.Relocated.refl p rt.store
      rcases holds.rearrange lt (holds.rearranged_sized lt isSized pageHolds relocated) with
        ⟨after, pinned⟩
      exact ⟨after, rfl, rfl, rfl, pinned⟩
    · rcases pageHolds.compact distinct (Nat.pos_of_ne_zero empty) with
        ⟨locals', bumped', _, slots, after, relocated, _⟩
      rcases holds.rearrange lt (holds.rearranged_sized lt isSized after relocated) with
        ⟨after, pinned⟩
      exact ⟨after, rfl, rfl, rfl, pinned⟩
  · next p isLocality =>
    rcases Option.map_eq_some_iff.mp compacted with ⟨result, passed, rfl⟩
    rcases holds.valid_locality lt isLocality with ⟨valid, spare⟩
    have live := valid.compact_isSome_iff.mp (by rw [passed]; rfl)
    rcases valid.compact live with ⟨_, passed', spec⟩
    obtain rfl := Option.some.inj (passed.symm.trans passed')
    rcases holds.rearrange lt (holds.rearranged_locality lt isLocality spec.valid
      (spec.sparesRecord spare) spec.compacted) with ⟨after, pinned⟩
    exact ⟨after, rfl, rfl, rfl, pinned⟩

/-- `jumble` on a page of the heap. -/
theorem jumblePage {rt' : Runtime} (holds : rt.Holds objects none none)
    (lt : n < rt.heap.allocCount) (jumbled : rt.jumblePage n = some rt') :
    rt'.Holds objects none none ∧ rt'.table = rt.table ∧ rt'.cacheCount = rt.cacheCount ∧
      rt'.huge = rt.huge ∧
      ∀ m object, InTable m → objects (toHandle m) = some object →
        (rt.store.mappings m).isPinned = true → rt'.store.mappings m = rt.store.mappings m := by
  have valid := holds.heap.valid n lt
  simp only [Runtime.jumblePage] at jumbled
  split at jumbled
  swap
  · exact nomatch jumbled
  next p isSized =>
  obtain rfl := Option.some.inj jumbled
  rw [isSized] at valid
  rcases valid with ⟨locals, remotes, bumped, pageHolds⟩
  have distinct := (holds.backed_sized lt isSized).distinct pageHolds.layout
  rcases pageHolds.jumble distinct with ⟨⟨slots, relocated⟩, after, _⟩
  rcases holds.rearrange lt (holds.rearranged_sized lt isSized after relocated) with
    ⟨after, pinned⟩
  exact ⟨after, rfl, rfl, rfl, pinned⟩

end Holds

end Runtime

end Alaska
