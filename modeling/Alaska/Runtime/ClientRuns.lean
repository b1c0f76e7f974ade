import Alaska.Lib.Run
import Alaska.Runtime.LocalizationSteps

/-!
# Runs of the runtime

Every operation of every thread cache keeps the invariant of the runtime, so in every run
the runtime represents the client's objects: no two of them overlap, each lies in one page
or in its own mapping, and their bytes are those the client wrote. Relocation happens in
between and the client does not see it, and a pinned object stays where it is.
-/

namespace Alaska

open Memory Mapping Lts

namespace RuntimeOp

/-- The size that the operation requests. -/
def request : RuntimeOp → Nat
  | .halloc _ size _ _ => size
  | .hrealloc _ _ newSize _ => newSize
  | _ => 0

/-- The huge object allocator can add its header to the requested size. -/
def Fits (op : RuntimeOp) : Prop := HugeObjectAllocator.FitsMapping op.request

instance (op : RuntimeOp) : Decidable op.Fits :=
  inferInstanceAs (Decidable (HugeObjectAllocator.FitsMapping _))

/-- The pointer that the operation gives up or moves on request of the client. -/
def released : RuntimeOp → Option Nat
  | .hfree _ handle => some handle
  | .hrealloc _ handle _ _ => some handle
  | _ => none

end RuntimeOp

namespace Runtime

variable {rt : Runtime} {op : RuntimeOp} {r : Nat × Runtime}

/-! ## The number of slabs -/

theorem slabCount_halloc {tid size address : Nat} {zero : Bool}
    (result : rt.halloc tid size zero address = some r) :
    rt.table.slabCount ≤ r.2.table.slabCount := by
  unfold halloc at result
  split at result
  · obtain rfl := Option.some.inj result
    exact Nat.le_refl _
  split at result
  · exact Nat.le_of_eq (congrArg HandleTable.slabCount (table_hugeAllocate result)).symm
  · simp only [Option.bind_eq_bind, Option.bind_eq_some_iff, Prod.exists] at result
    rcases result with ⟨m, rt₁, mapping, ptr, rt₂, backing, final⟩
    have taken := slabCount_le_newMapping mapping
    have kept := table_allocateBackingData backing
    simp only at taken kept
    obtain rfl := Option.some.inj final
    rw [← kept] at taken
    split <;> exact taken

theorem slabCount_hfree {rt' : Runtime} {tid handle : Nat}
    (result : rt.hfree tid handle = some rt') : rt'.table.slabCount = rt.table.slabCount := by
  unfold hfree at result
  split at result
  · obtain rfl := Option.some.inj result
    rfl
  · simp only [Option.bind_eq_bind, Option.bind_eq_some_iff] at result
    rcases result with ⟨rt₁, freed, taken⟩
    exact (slabCount_put taken).trans
      (congrArg HandleTable.slabCount (table_freeAllocation freed :))

theorem slabCount_hreallocFromHuge {tid handle newSize : Nat}
    (result : rt.hreallocFromHuge tid handle newSize = some r) :
    rt.table.slabCount ≤ r.2.table.slabCount := by
  simp only [hreallocFromHuge, Option.bind_eq_bind, Option.bind_eq_some_iff, Prod.exists] at result
  rcases result with ⟨m, rt₁, mapping, newData, rt₂, backing, final⟩
  have taken := slabCount_le_newMapping mapping
  have kept : rt₂.table = rt₁.table := table_allocateBackingData backing
  obtain rfl := Option.some.inj final
  exact taken.trans (Nat.le_of_eq (congrArg HandleTable.slabCount kept).symm)

theorem slabCount_hreallocToHuge {tid handle originalData originalSize newSize address : Nat}
    (result : rt.hreallocToHuge tid handle originalData originalSize newSize address = some r) :
    r.2.table.slabCount = rt.table.slabCount := by
  simp only [hreallocToHuge, Option.bind_eq_bind, Option.bind_eq_some_iff, Prod.exists] at result
  rcases result with ⟨newData, rt₁, allocated, rt₂, freed, final⟩
  have kept : rt₁.table = rt.table := table_hugeAllocate allocated
  have count := slabCount_hfree freed
  obtain rfl := Option.some.inj final
  exact count.trans (congrArg HandleTable.slabCount kept)

theorem table_hreallocHandle {tid handle m originalData originalSize newSize : Nat}
    (result : rt.hreallocHandle tid handle m originalData originalSize newSize = some r) :
    r.2.table = rt.table := by
  simp only [hreallocHandle, Option.bind_eq_bind, Option.bind_eq_some_iff, Prod.exists] at result
  rcases result with ⟨newData, rt₁, backing, rt₂, freed, final⟩
  have kept : rt₁.table = rt.table := table_allocateBackingData backing
  have same := table_freeAllocation freed
  obtain rfl := Option.some.inj final
  exact same.trans kept

theorem slabCount_hrealloc {tid handle newSize address : Nat}
    (result : rt.hrealloc tid handle newSize address = some r) :
    rt.table.slabCount ≤ r.2.table.slabCount := by
  unfold hrealloc at result
  cases decoded : fromHandleSafe handle with
  | none =>
      simp only [decoded] at result
      split at result
      · simp only [hreallocHuge, Option.bind_eq_bind, Option.bind_eq_some_iff, Prod.exists]
          at result
        rcases result with ⟨newData, rt₁, allocated, final⟩
        have kept : rt₁.table = rt.table := table_hugeAllocate allocated
        obtain rfl := Option.some.inj final
        exact Nat.le_of_eq (congrArg HandleTable.slabCount kept).symm
      · exact slabCount_hreallocFromHuge result
  | some m =>
      simp only [decoded, Option.bind_eq_bind, Option.bind_eq_some_iff] at result
      rcases result with ⟨page, _, originalSize, _, result⟩
      split at result
      · exact Nat.le_of_eq (slabCount_hreallocToHuge result).symm
      · exact Nat.le_of_eq (congrArg HandleTable.slabCount (table_hreallocHandle result)).symm

theorem table_localityTarget {tid size : Nat} (found : rt.localityTarget tid size = some r) :
    r.2.table = rt.table := by
  unfold localityTarget at found
  split at found
  · exact table_newLocalityPage found
  · split at found
    · exact table_newLocalityPage found
    · obtain rfl := Option.some.inj found
      rfl

theorem table_setPointer (m pointer : Nat) : (rt.setPointer m pointer).table = rt.table := rfl

theorem table_memcpy (destination source size : Nat) :
    (rt.memcpy destination source size).table = rt.table :=
  rfl

theorem table_memset (destination : Nat) (value : UInt8) (size : Nat) :
    (rt.memset destination value size).table = rt.table :=
  rfl

theorem table_localizeTo {rt' : Runtime} {source target m ptr size epoch : Nat}
    (result : rt.localizeTo source target m ptr size epoch = some rt') :
    rt'.table = rt.table := by
  unfold localizeTo at result
  split at result
  · exact nomatch result
  next page _ =>
  dsimp only at result
  generalize page.alloc m size = appended at result
  split at result
  · exact nomatch result
  · rw [table_release result, table_setPointer, table_memset, table_memcpy]

theorem table_localizeFrom {result : Bool × Runtime} {tid m ptr epoch : Nat} {source : Option Nat}
    (found : rt.localizeFrom tid m ptr epoch source = some result) :
    result.2.table = rt.table := by
  cases source with
  | none =>
      obtain rfl := Option.some.inj found
      rfl
  | some source =>
      simp only [localizeFrom] at found
      split at found
      · obtain rfl := Option.some.inj found
        rfl
      split at found
      · obtain rfl := Option.some.inj found
        rfl
      simp only [Option.bind_eq_bind, Option.bind_eq_some_iff, Prod.exists] at found
      rcases found with ⟨target, rt₁, exchanged, rest⟩
      have kept : rt₁.table = rt.table := table_localityTarget exchanged
      split at rest
      · obtain rfl := Option.some.inj rest
        exact kept
      · rcases Option.bind_eq_some_iff.mp rest with ⟨rt₂, moved, final⟩
        obtain rfl := Option.some.inj final
        exact (table_localizeTo moved).trans kept

theorem table_localize {result : Bool × Runtime} {tid m epoch : Nat}
    (found : rt.localize tid m epoch = some result) : result.2.table = rt.table := by
  unfold localize at found
  split at found
  · obtain rfl := Option.some.inj found
    rfl
  · exact table_localizeFrom found

theorem table_compactPage {rt' : Runtime} {n : Nat} (compacted : rt.compactPage n = some rt') :
    rt'.table = rt.table := by
  unfold compactPage at compacted
  split at compacted
  · obtain rfl := Option.some.inj compacted
    rfl
  · rcases Option.map_eq_some_iff.mp compacted with ⟨_, _, rfl⟩
    rfl

theorem table_jumblePage {rt' : Runtime} {n : Nat} (jumbled : rt.jumblePage n = some rt') :
    rt'.table = rt.table := by
  unfold jumblePage at jumbled
  split at jumbled
  · obtain rfl := Option.some.inj jumbled
    rfl
  · exact nomatch jumbled

theorem table_setPinned {p : Nat} {pinned : Bool} : (rt.setPinned p pinned).table = rt.table := by
  unfold setPinned
  split <;> rfl

/-- A slab that the table has is never given up. -/
theorem slabCount_perform (performed : rt.perform op = some r) :
    rt.table.slabCount ≤ r.2.table.slabCount := by
  cases op with
  | newThreadcache =>
      obtain rfl := Option.some.inj performed
      exact HandleTable.slabCount_le_newSlab rt.table rt.cacheCount
  | halloc tid size zero address =>
      simp only [perform, onCache, Option.ite_none_right_eq_some] at performed
      exact slabCount_halloc performed.2
  | hfree tid handle =>
      simp only [perform, onCache, Option.ite_none_right_eq_some, Option.map_eq_some_iff]
        at performed
      rcases performed with ⟨_, rt', freed, rfl⟩
      exact Nat.le_of_eq (slabCount_hfree freed).symm
  | hrealloc tid handle newSize address =>
      simp only [perform, onCache, Option.ite_none_right_eq_some] at performed
      exact slabCount_hrealloc performed.2
  | localize tid m epoch =>
      simp only [perform, onCache, Option.ite_none_right_eq_some, Option.map_eq_some_iff]
        at performed
      rcases performed with ⟨_, result, found, rfl⟩
      exact Nat.le_of_eq (congrArg HandleTable.slabCount (table_localize found)).symm
  | compact n =>
      simp only [perform, Option.ite_none_right_eq_some, Option.map_eq_some_iff] at performed
      rcases performed with ⟨_, rt', compacted, rfl⟩
      exact Nat.le_of_eq (congrArg HandleTable.slabCount (table_compactPage compacted)).symm
  | jumble n =>
      simp only [perform, Option.ite_none_right_eq_some, Option.map_eq_some_iff] at performed
      rcases performed with ⟨_, rt', jumbled, rfl⟩
      exact Nat.le_of_eq (congrArg HandleTable.slabCount (table_jumblePage jumbled)).symm
  | setPinned handle pinned =>
      obtain rfl := Option.some.inj performed
      exact Nat.le_of_eq (congrArg HandleTable.slabCount table_setPinned).symm
  | write handle offset value =>
      obtain rfl := Option.some.inj performed
      exact Nat.le_refl _

theorem backing_setPinned (rt : Runtime) (handle p : Nat) (pinned : Bool) :
    (rt.setPinned handle pinned).backing p = rt.backing p := by
  unfold Runtime.setPinned
  split
  · rfl
  next m _ =>
  unfold backing
  split
  · rfl
  next m' _ =>
  by_cases equal : m' = m
  · subst equal
    simp [Store.setPinned]
  · simp [Store.setPinned, equal]

/-- The store of the client program to one byte of an object. -/
theorem Holds.storeByte {objects : Objects} {p offset : Nat} {object : Object}
    (holds : rt.Holds objects none none) (isLive : objects p = some object)
    (lt : offset < object.size) (value : UInt8) :
    (rt.storeByte p offset value).Holds (objects.insert p
      { object with data := Function.update object.data offset (some value) }) none none := by
  have sameSize : ({ object with data := Function.update object.data offset (some value) } :
      Object).size = object.size := rfl
  refine holds.write isLive sameSize ?_ ?_
  · intro index index_lt byte known
    simp only at known
    by_cases here : index = offset
    · subst here
      rw [Function.update_self] at known
      rw [Function.update_self]
      exact Option.some.inj known
    · rw [Function.update_of_ne here] at known
      rw [Function.update_of_ne (by omega)]
      exact holds.data p object isLive index index_lt byte known
  · intro address outside
    exact Function.update_of_ne (by omega) _ _

end Runtime

namespace ClientState

open Alaska.Runtime

variable {s t : ClientState} {op : RuntimeOp}

/-- The runtime represents the objects of the client. -/
structure Refines (s : ClientState) : Prop where
  handles : ∀ p object m, s.objects p = some object → fromHandleSafe p = some m →
    ∃ n < s.runtime.heap.allocCount, s.runtime.heap.getPage n ≤ s.runtime.backing p ∧
      s.runtime.backing p + object.size ≤ s.runtime.heap.getPage n + pageSize
  huge : ∀ p object, s.objects p = some object → fromHandleSafe p = none →
    ∃ header ∈ s.runtime.huge, header.data = p ∧
      p + object.size ≤ header.address + header.mappingSize
  apart : ∀ p object q other, s.objects p = some object → s.objects q = some other → p ≠ q →
    s.runtime.backing p + object.size ≤ s.runtime.backing q ∨
      s.runtime.backing q + other.size ≤ s.runtime.backing p
  sizes : ∀ p object, s.objects p = some object →
    ∃ size, s.runtime.getSize p = some size ∧ object.size ≤ size
  data : ∀ p object, s.objects p = some object →
    ∀ index < object.size, ∀ byte, object.data index = some byte →
      s.runtime.store.bytes (s.runtime.backing p + index) = byte

/-- A pinned object that the operation does not give up stays where it is. -/
def KeepsPinned (s : ClientState) (op : RuntimeOp) (t : ClientState) : Prop :=
  ∀ p object, s.objects p = some object →
    (∀ m, fromHandleSafe p = some m → (s.runtime.store.mappings m).isPinned = true) →
    op.released ≠ some p → t.runtime.backing p = s.runtime.backing p

theorem refines (holds : s.runtime.Holds s.objects none none) : s.Refines where
  handles := by
    intro p object m isLive isHandle
    rcases holds.pointer_cases isLive with ⟨m', inTable, rfl, _⟩ | ⟨notHandle, _⟩
    · rcases holds.located m' object inTable isLive with ⟨place, located⟩
      have inside := holds.heap.inside_page located.named
      have room := located.room
      have extent := s.runtime.heap.room_le place
      refine ⟨place.page, (Heap.named_eq_some.mp located.named).1, ?_⟩
      rw [backing_toHandle inTable, located.addr]
      omega
    · rw [isHandle] at notHandle
      exact nomatch notHandle
  huge := by
    intro p object isLive notHandle
    rcases holds.pointer_cases isLive with ⟨m, _, _, isHandle⟩ | ⟨_, header, mapped⟩
    · rw [isHandle] at notHandle
      exact nomatch notHandle
    · exact ⟨header, mapped.member, mapped.data, mapped.inside.2⟩
  apart := fun _ _ _ _ isLive otherLive ne => holds.regions_apart isLive otherLive ne
  sizes := by
    intro p object isLive
    rcases holds.getSize_live isLive with ⟨size, isSize, le, _⟩
    exact ⟨size, isSize, le⟩
  data := holds.data

theorem initial_holds {heapStart : Nat} (placed : Heap.Placed heapStart) :
    (initial heapStart).runtime.Holds (initial heapStart).objects none none where
  table := by
    have none_live : Live (fun _ => none) none = fun _ => False := by
      funext m
      simp [Live]
    exact none_live ▸ HandleTable.Invariant.create
  heap := Heap.Invariant.create _ placed
  huge := ⟨by simp [initial, create], List.Pairwise.nil⟩
  caches := fun _ lt => absurd lt (Nat.not_lt_zero _)
  fresh := fun _ isHeld => nomatch isHeld
  sizes := fun _ _ isLive => nomatch isLive
  pointers := fun _ _ isLive => nomatch isLive
  located := fun _ _ _ isLive => nomatch isLive
  valid := fun _ _ _ isLive => nomatch isLive
  names := by
    intro place m isNamed
    exact absurd (Heap.named_eq_some.mp isNamed).1 (Nat.not_lt_zero _)
  rooms := by
    intro place m isNamed
    exact absurd (Heap.named_eq_some.mp isNamed).1 (Nat.not_lt_zero _)
  reserved := fun _ isPending => nomatch isPending
  data := fun _ _ isLive => nomatch isLive

/-- The objects an operation leaves alone keep their place. -/
theorem keepsPinned_of_keeps {released : Nat} (isReleased : op.released = some released)
    (keeps : Keeps s.runtime t.runtime (s.objects.remove released)) : s.KeepsPinned op t := by
  intro p object isLive _ kept
  refine keeps.backing p object (Objects.remove_eq_some.mpr ⟨?_, isLive⟩)
  rintro rfl
  exact kept isReleased

/-- Mappings that stay as they are when they are pinned. -/
theorem keepsPinned_of_mappings (holds : s.runtime.Holds s.objects none none)
    (same : ∀ m object, InTable m → s.objects (toHandle m) = some object →
      (s.runtime.store.mappings m).isPinned = true →
      t.runtime.store.mappings m = s.runtime.store.mappings m) : s.KeepsPinned op t := by
  intro p object isLive pinned _
  rcases holds.pointer_cases isLive with ⟨m, inTable, rfl, isHandle⟩ | ⟨notHandle, _⟩
  · rw [backing_toHandle inTable, backing_toHandle inTable,
      same m object inTable isLive (pinned m isHandle)]
  · rw [backing_user notHandle, backing_user notHandle]

/-- One step keeps the invariant, and the pinned objects stay. -/
theorem next_holds (holds : s.runtime.Holds s.objects none none) (step : s.next op = some t)
    (fits : op.Fits) (count_le : t.runtime.table.slabCount ≤ 2 ^ 21) :
    t.runtime.Holds t.objects none none ∧ s.KeepsPinned op t := by
  simp only [next, Option.bind_eq_bind, Option.bind_eq_some_iff, Prod.exists,
    Option.some.injEq] at step
  rcases step with ⟨result, rt, performed, objects, stepped, rfl⟩
  cases op with
  | newThreadcache =>
      obtain ⟨rfl, rfl⟩ := Prod.mk.inj (Option.some.inj performed)
      obtain rfl := Option.some.inj stepped
      rcases holds.newThreadcache count_le with ⟨table, after⟩
      exact ⟨after, keepsPinned_of_mappings holds fun m object inTable isLive _ =>
        table.words m object inTable isLive⟩
  | halloc tid size zero address =>
      simp only [perform, onCache, Option.ite_none_right_eq_some] at performed
      simp only [Objects.step, Option.ite_none_right_eq_some, Option.some.injEq] at stepped
      rcases stepped with ⟨valid, rfl⟩
      have inserted := holds.halloc performed.1 valid.1 fits performed.2 count_le
      exact ⟨inserted.holds, fun p object isLive _ _ => inserted.keeps.backing p object isLive⟩
  | hfree tid handle =>
      simp only [perform, onCache, Option.ite_none_right_eq_some, Option.map_eq_some_iff,
        Prod.mk.injEq] at performed
      rcases performed with ⟨_, rt', freed, rfl, rfl⟩
      simp only [Objects.step, Option.map_eq_some_iff] at stepped
      rcases stepped with ⟨object, isLive, rfl⟩
      rcases holds.hfree tid isLive with ⟨rt, result, removed⟩
      obtain rfl := Option.some.inj (freed.symm.trans result)
      exact ⟨removed.holds, keepsPinned_of_keeps rfl removed.keeps⟩
  | hrealloc tid handle newSize address =>
      simp only [perform, onCache, Option.ite_none_right_eq_some] at performed
      simp only [Objects.step, Option.ite_none_right_eq_some, Option.map_eq_some_iff] at stepped
      rcases stepped with ⟨valid, object, isLive, rfl⟩
      have moved := holds.hrealloc performed.1 isLive valid.1 fits performed.2 count_le
      exact ⟨moved.holds, keepsPinned_of_keeps rfl moved.keeps⟩
  | localize tid m epoch =>
      simp only [perform, onCache, Option.ite_none_right_eq_some, Option.map_eq_some_iff,
        Prod.mk.injEq] at performed
      rcases performed with ⟨tid_lt, outcome, found, rfl, rfl⟩
      obtain rfl := Option.some.inj stepped
      rcases holds.localize tid_lt found with ⟨localized, pinnedStays⟩
      refine ⟨localized.holds, fun p object isLive pinned _ => ?_⟩
      by_cases moves : Live s.objects none m ∧ (s.runtime.store.mappings m).isPinned = false
      · refine localized.keeps.backing p object (Objects.remove_eq_some.mpr ⟨?_, isLive⟩)
        rintro rfl
        rcases moves with ⟨⟨inTable, _⟩ | isHeld, unpinned⟩
        · have isPinned := pinned m (fromHandleSafe_toHandle inTable)
          rw [unpinned] at isPinned
          exact nomatch isPinned
        · exact nomatch isHeld
      · rw [pinnedStays (by grind)]
  | compact n =>
      simp only [perform, Option.ite_none_right_eq_some, Option.map_eq_some_iff,
        Prod.mk.injEq] at performed
      rcases performed with ⟨lt, rt', compacted, rfl, rfl⟩
      obtain rfl := Option.some.inj stepped
      rcases holds.compactPage lt compacted with ⟨after, _, _, _, pinned⟩
      exact ⟨after, keepsPinned_of_mappings holds pinned⟩
  | jumble n =>
      simp only [perform, Option.ite_none_right_eq_some, Option.map_eq_some_iff,
        Prod.mk.injEq] at performed
      rcases performed with ⟨lt, rt', jumbled, rfl, rfl⟩
      obtain rfl := Option.some.inj stepped
      rcases holds.jumblePage lt jumbled with ⟨after, _, _, _, pinned⟩
      exact ⟨after, keepsPinned_of_mappings holds pinned⟩
  | setPinned handle pinned =>
      obtain ⟨rfl, rfl⟩ := Prod.mk.inj (Option.some.inj performed)
      simp only [Objects.step, Option.map_eq_some_iff] at stepped
      rcases stepped with ⟨object, isLive, rfl⟩
      refine ⟨holds.setPinned isLive pinned, fun p _ _ _ _ => ?_⟩
      exact backing_setPinned s.runtime handle p pinned
  | write handle offset value =>
      obtain ⟨rfl, rfl⟩ := Prod.mk.inj (Option.some.inj performed)
      simp only [Objects.step, Option.bind_eq_some_iff, Option.ite_none_right_eq_some,
        Option.some.injEq] at stepped
      rcases stepped with ⟨object, isLive, lt, rfl⟩
      exact ⟨holds.storeByte isLive lt value, fun _ _ _ _ _ => rfl⟩

theorem slabCount_next (step : s.next op = some t) :
    s.runtime.table.slabCount ≤ t.runtime.table.slabCount := by
  simp only [next, Option.bind_eq_bind, Option.bind_eq_some_iff, Prod.exists,
    Option.some.injEq] at step
  rcases step with ⟨result, rt, performed, objects, _, rfl⟩
  exact slabCount_perform performed

theorem slabCount_run {ops : List RuntimeOp} (run : Run (ofFunction next) s ops t) :
    s.runtime.table.slabCount ≤ t.runtime.table.slabCount :=
  run.invariant (fun t => s.runtime.table.slabCount ≤ t.runtime.table.slabCount)
    (fun _ _ _ le step => le.trans (slabCount_next step)) (Nat.le_refl _)

/-- The invariant holds after every run whose requests fit and whose slabs can be named. -/
theorem holds_of_run {ops : List RuntimeOp} (holds : s.runtime.Holds s.objects none none)
    (run : Run (ofFunction next) s ops t) (fits : ∀ op ∈ ops, op.Fits)
    (count_le : t.runtime.table.slabCount ≤ 2 ^ 21) :
    t.runtime.Holds t.objects none none := by
  induction run with
  | nil => exact holds
  | cons head tail ih =>
      have grows := slabCount_run tail
      have fitsHead := fits _ List.mem_cons_self
      refine ih (next_holds holds head fitsHead (grows.trans count_le)).1 ?_ count_le
      exact fun op member => fits op (List.mem_cons_of_mem _ member)

/--
In every state of a run the runtime represents the objects of the client, and the next
operation moves no pinned object that it does not give up.
-/
theorem refines_of_run {heapStart : Nat} (placed : Heap.Placed heapStart) {ops : List RuntimeOp}
    (run : Run (ofFunction next) (initial heapStart) ops s) (fits : ∀ op ∈ ops, op.Fits)
    (count_le : s.runtime.table.slabCount ≤ 2 ^ 21) :
    s.Refines ∧ ∀ op t, s.next op = some t → op.Fits → t.runtime.table.slabCount ≤ 2 ^ 21 →
      s.KeepsPinned op t ∧ t.Refines := by
  have holds := holds_of_run (initial_holds placed) run fits count_le
  refine ⟨refines holds, fun op t step opFits after => ?_⟩
  rcases next_holds holds step opFits after with ⟨next, pinned⟩
  exact ⟨pinned, refines next⟩

/-- The handle of mapping `index` of slab `idx`. -/
def handleAt (idx index : Nat) : Nat := toHandle (HandleTable.mappingAt idx index)

/-- Two thread caches and every operation, with a huge object at the address 2^40. -/
def sessionOps : List RuntimeOp :=
  [.newThreadcache, .newThreadcache, .halloc 0 10000 true 0, .halloc 1 512 false 0,
    .halloc 0 10000 false 0, .halloc 0 2000000 false (2 ^ 40), .write (2 ^ 40 + 32) 1999999 3,
    .write (handleAt 0 1) 7 42, .setPinned (handleAt 0 1) true, .hrealloc 0 (handleAt 0 1) 20000 0,
    .localize 1 (HandleTable.mappingAt 1 0) 1, .hfree 1 (handleAt 0 2), .compact 0, .jumble 0]

theorem sessionOps_allowed : (replay next (initial (2 ^ 44)) sessionOps).isSome = true := by
  decide +kernel

theorem placed_session : Heap.Placed (2 ^ 44) := ⟨by decide, by decide, by decide, by decide⟩

theorem refines_session :
    let s := (replay next (initial (2 ^ 44)) sessionOps).get sessionOps_allowed
    s.Refines ∧ ∀ op t, s.next op = some t → op.Fits → t.runtime.table.slabCount ≤ 2 ^ 21 →
      s.KeepsPinned op t ∧ t.Refines :=
  refines_of_run placed_session (run_of_replay (Option.some_get sessionOps_allowed).symm)
    (by decide) (by decide +kernel)

end ClientState

end Alaska
