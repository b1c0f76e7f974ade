import Alaska.Runtime.AllocationSteps

/-!
# Reallocation

The four cases of `hrealloc`. The object is copied to its new place before the old one is
given up, except that the mapping of a huge object that stays huge is never given up.
-/

namespace Alaska

open Memory Mapping HugeObjectAllocator

namespace Runtime

variable {rt rt' rt'' : Runtime} {objects : Objects} {held : Option Nat}
  {pending : Option Reservation} {p m n tid size address : Nat} {object : Object}
  {place : Place} {bytes' : Bytes} {r : Nat × Runtime}

/-- A copy has the bytes that are known of the original. -/
theorem Contains.memmove {bytes : Bytes} {source destination count : Nat} {original copy : Object}
    (contains : Contains bytes source original)
    (known : ∀ index < copy.size, ∀ byte, copy.data index = some byte →
      index < count ∧ index < original.size ∧ original.data index = some byte) :
    Contains (bytes.memmove destination source count) destination copy := by
  intro index lt byte isByte
  rcases known index lt byte isByte with ⟨copied, inside, isOriginal⟩
  rw [Bytes.memmove_inside (Nat.le_add_right _ _) (by omega), Nat.add_sub_cancel_left]
  exact contains index inside byte isOriginal

theorem copySize_eq (originalSize newSize : Nat) :
    copySize originalSize newSize = min originalSize newSize := by
  unfold copySize
  split <;> omega

/-- The copy of `hrealloc` keeps the common prefix. -/
theorem Contains.resize {bytes : Bytes} {source destination originalSize newSize : Nat}
    (contains : Contains bytes source object) (size_le : object.size ≤ originalSize) :
    Contains (bytes.memmove destination source (copySize originalSize newSize)) destination
      (Objects.resize object newSize) := by
  refine contains.memmove fun index lt byte known => ?_
  rw [copySize_eq]
  have lt : index < newSize := lt
  simp only [Objects.resize] at known
  split at known
  · exact ⟨by omega, by omega, known⟩
  · exact nomatch known

/-- The copy of `hrealloc` stays in the new allocation. -/
theorem resize_outside {bytes : Bytes} {source destination originalSize newSize other : Nat}
    (outside : other < destination ∨ destination + newSize ≤ other) :
    bytes.memmove destination source (copySize originalSize newSize) other = bytes other := by
  apply Bytes.memmove_outside
  rw [copySize_eq]
  omega

namespace Holds

/-- The common part of the two cases that end with a huge object. -/
theorem copyToHuge {originalSize newSize : Nat} (holds : rt.Holds objects none none)
    (isLive : objects p = some object) (size_le : object.size ≤ originalSize) (pos : 0 < newSize)
    (fits : FitsMapping newSize) (allocated : rt.hugeAllocate newSize address = some r) :
    (r.2.memcpy r.1 (rt.backing p) (copySize originalSize newSize)).Holds
        (objects.insert r.1 (Objects.resize object newSize)) none none ∧
      Keeps rt (r.2.memcpy r.1 (rt.backing p) (copySize originalSize newSize)) objects ∧
      objects r.1 = none ∧ fromHandleSafe r.1 = none := by
  have zeros : ∀ index byte, (freshObject newSize true).data index = some byte → byte = 0 :=
    fun _ _ known => (Option.some.inj known).symm
  have request : rt.hugeAllocate (freshObject newSize true).size address = some r := allocated
  rcases holds.hugeAllocate pos fits zeros request with ⟨step, dead, user, after⟩
  have ne : p ≠ r.1 := by
    rintro rfl
    rw [dead] at isLive
    exact nomatch isLive
  have kept : objects.insert r.1 (freshObject newSize true) p = some object :=
    Objects.insert_eq_some.mpr (Or.inr ⟨ne, isLive⟩)
  have original := after.data p object kept
  rw [(step.keeps objects).backing p object isLive] at original
  have here : r.2.backing r.1 = r.1 := backing_user user
  have copied : Contains
      (r.2.store.bytes.memmove r.1 (rt.backing p) (copySize originalSize newSize))
      (r.2.backing r.1) (Objects.resize object newSize) := by
    rw [here]
    exact original.resize size_le
  have sameSize : (Objects.resize object newSize).size = (freshObject newSize true).size := rfl
  have written := after.write (objects.insert_self r.1 _) sameSize copied fun other outside => by
    rw [here] at outside
    exact resize_outside outside
  have same : (objects.insert r.1 (freshObject newSize true)).insert r.1
      (Objects.resize object newSize) = objects.insert r.1 (Objects.resize object newSize) :=
    Function.update_idem _ _ _
  rw [same] at written
  exact ⟨written, (step.keeps objects).trans (Keeps.setBytes _ _ _), dead, user⟩

/-- What `hrealloc` of `p` is to do: the object is at `r.1` now, and the others stay. -/
structure Reallocated (rt : Runtime) (objects : Objects) (p : Nat) (object : Object)
    (newSize : Nat) (r : Nat × Runtime) : Prop where
  holds : r.2.Holds ((objects.remove p).insert r.1 (Objects.resize object newSize)) none none
  keeps : Keeps rt r.2 (objects.remove p)
  dead : objects.remove p r.1 = none
  owns : ∀ q, r.2.huge.owns q = true ↔
    rt.huge.owns q = true ∧
        ¬ (fromHandleSafe p = none ∧ shouldBeHugeObject newSize = false ∧ q = p) ∨
      fromHandleSafe r.1 = none ∧ q = r.1
  unowned : fromHandleSafe r.1 = none → ¬ rt.huge.owns r.1 = true

section

variable {originalSize newSize : Nat}

/-- The copy to a new huge object, after which the handle can be freed. -/
theorem moveToHuge {newData : Nat} {rt₁ : Runtime} (holds : rt.Holds objects none none)
    (isLive : objects p = some object) (isHandle : fromHandleSafe p = some m)
    (size_le : object.size ≤ originalSize) (pos : 0 < newSize) (fits : FitsMapping newSize)
    (allocated : rt.hugeAllocate newSize address = some (newData, rt₁)) (tid : Nat) :
    ∃ rt₂, (rt₁.memcpy newData (rt.backing p) (copySize originalSize newSize)).hfree tid p =
        some rt₂ ∧
      Reallocated rt objects p object newSize (newData, rt₂) := by
  rcases holds.copyToHuge isLive size_le pos fits allocated with ⟨copied, keeps, dead, user⟩
  rcases holds.owns_hugeAllocate allocated with ⟨owns, unowned⟩
  have ne : newData ≠ p := by
    rintro rfl
    rw [dead] at isLive
    exact nomatch isLive
  have stays : objects.insert newData (Objects.resize object newSize) p = some object :=
    Objects.insert_eq_some.mpr (Or.inr ⟨ne.symm, isLive⟩)
  rcases copied.hfree tid stays with ⟨rt₂, freed, ⟨after, rest, left⟩⟩
  rw [Objects.remove_insert ne] at after rest
  have gone : objects.remove p newData = none := (Function.update_of_ne ne _ _).trans dead
  refine ⟨rt₂, freed, after, (keeps.remove p).trans ⟨fun q other survives => ?_, rest.cacheCount⟩,
    gone, fun q => ?_, fun _ => unowned⟩
  · have other_ne : q ≠ newData := by
      rintro rfl
      rw [gone] at survives
      exact nomatch survives
    exact rest.backing q other (Objects.insert_eq_some.mpr (Or.inr ⟨other_ne, survives⟩))
  · have same := (left q).trans (and_congr_left' (owns q))
    simpa [isHandle, user] using same

theorem hreallocToHuge (holds : rt.Holds objects none none) (isLive : objects p = some object)
    (isHandle : fromHandleSafe p = some m) (size_le : object.size ≤ originalSize)
    (pos : 0 < newSize) (fits : FitsMapping newSize)
    (result : rt.hreallocToHuge tid p (rt.backing p) originalSize newSize address = some r) :
    Reallocated rt objects p object newSize r := by
  simp only [Runtime.hreallocToHuge, Option.bind_eq_bind, Option.bind_eq_some_iff, Prod.exists]
    at result
  rcases result with ⟨newData, rt₁, allocated, rt₂, freed, final⟩
  obtain rfl := Option.some.inj final
  rcases holds.moveToHuge isLive isHandle size_le pos fits allocated tid with ⟨rt', moved, after⟩
  obtain rfl := Option.some.inj (freed.symm.trans moved)
  exact after

theorem hreallocHuge (holds : rt.Holds objects none none) (isLive : objects p = some object)
    (notHandle : fromHandleSafe p = none) (size_le : object.size ≤ rt.huge.sizeOf p)
    (pos : 0 < newSize) (fits : FitsMapping newSize) (large : shouldBeHugeObject newSize = true)
    (result : rt.hreallocHuge p newSize address = some r) :
    Reallocated rt objects p object newSize r := by
  simp only [Runtime.hreallocHuge, Option.bind_eq_bind, Option.bind_eq_some_iff, Prod.exists]
    at result
  rcases result with ⟨newData, rt₁, allocated, final⟩
  obtain rfl := Option.some.inj final
  rcases holds.copyToHuge isLive size_le pos fits allocated with ⟨copied, keeps, dead, user⟩
  rcases holds.owns_hugeAllocate allocated with ⟨owns, unowned⟩
  rw [backing_user notHandle] at copied keeps
  have ne : newData ≠ p := by
    rintro rfl
    rw [dead] at isLive
    exact nomatch isLive
  refine ⟨?_, keeps.remove p, (Function.update_of_ne ne _ _).trans dead, fun q => ?_,
    fun _ => unowned⟩
  · rw [← Objects.remove_insert ne]
    exact copied.forget notHandle
  · have same := owns q
    simpa [large, user] using same

/-- The copy to a new place, after which the old one can be released. -/
theorem moveToPlace {newData : Nat} {rt₁ : Runtime} (holds : rt.Holds objects none none)
    (tid_lt : tid < rt.cacheCount) (inTable : InTable m)
    (isLive : objects (toHandle m) = some object) (size_le : object.size ≤ originalSize)
    (pos : 0 < newSize) (small : shouldBeHugeObject newSize = false)
    (backing : rt.allocateBackingData tid m newSize = some (newData, rt₁)) :
    ∃ rt₂, (rt₁.memcpy newData (rt.store.mappings m).getPointer
        (copySize originalSize newSize)).freeAllocation tid m = some rt₂ ∧
      Reallocated rt objects (toHandle m) object newSize
        (toHandle m, rt₂.setPointer m newData) := by
  rcases holds.allocateBackingData tid_lt inTable pos small backing with ⟨same, place, reserved⟩
  have original := reserved.holds.data _ object isLive
  rw [backing_toHandle inTable, same.mappings] at original
  have copied : Contains
      (rt₁.store.bytes.memmove newData (rt.store.mappings m).getPointer
        (copySize originalSize newSize)) newData (Objects.resize object newSize) :=
    original.resize size_le
  have fits : (Objects.resize object newSize).size ≤ newSize := Nat.le_refl _
  have filled := reserved.fill fits copied fun other outside => resize_outside outside
  have sized := reserved.sized
  rcases filled.freeAllocation tid inTable isLive (by rintro _ ⟨rfl⟩; exact sized) with
    ⟨rt₂, released, unchanged, held⟩
  have dead := held.fresh m rfl
  refine ⟨rt₂, released, @commit _ _ ⟨place, m, newData, Objects.resize object newSize⟩ pos held,
    ?_, dead, fun q => ?_, fun user => ?_⟩
  · have kept : Keeps rt rt₂ objects :=
      (same.keeps objects).trans ((Keeps.setBytes _ _ _).trans (unchanged.keeps objects))
    exact (kept.remove _).trans (Keeps.setPointer held dead newData)
  · have huge : rt₂.huge = rt.huge := unchanged.huge.trans same.huge
    simp [fromHandleSafe_toHandle inTable, huge]
  · rw [fromHandleSafe_toHandle inTable] at user
    exact nomatch user

theorem hreallocHandle (holds : rt.Holds objects none none) (tid_lt : tid < rt.cacheCount)
    (inTable : InTable m) (isLive : objects (toHandle m) = some object)
    (size_le : object.size ≤ originalSize) (pos : 0 < newSize)
    (small : shouldBeHugeObject newSize = false)
    (result : rt.hreallocHandle tid (toHandle m) m (rt.store.mappings m).getPointer originalSize
      newSize = some r) :
    Reallocated rt objects (toHandle m) object newSize r := by
  simp only [Runtime.hreallocHandle, Option.bind_eq_bind, Option.bind_eq_some_iff, Prod.exists]
    at result
  rcases result with ⟨newData, rt₁, backing, rt₂, released, final⟩
  obtain rfl := Option.some.inj final
  rcases holds.moveToPlace tid_lt inTable isLive size_le pos small backing with
    ⟨rt', moved, after⟩
  obtain rfl := Option.some.inj (released.symm.trans moved)
  exact after

theorem hreallocFromHuge (holds : rt.Holds objects none none) (tid_lt : tid < rt.cacheCount)
    (isLive : objects p = some object) (notHandle : fromHandleSafe p = none)
    (size_le : object.size ≤ rt.huge.sizeOf p) (pos : 0 < newSize)
    (small : shouldBeHugeObject newSize = false)
    (result : rt.hreallocFromHuge tid p newSize = some r)
    (count_le : r.2.table.slabCount ≤ 2 ^ 21) :
    Reallocated rt objects p object newSize r := by
  simp only [Runtime.hreallocFromHuge, Option.bind_eq_bind, Option.bind_eq_some_iff, Prod.exists]
    at result
  rcases result with ⟨m, rt₁, mapping, newData, rt₂, backing, final⟩
  obtain rfl := Option.some.inj final
  rcases holds.takeMapping tid_lt pos small mapping backing count_le with
    ⟨keeps, dead, huge, place, reserved⟩
  have inTable := reserved.holds.inTable_of_held
  have original := reserved.holds.data p object isLive
  rw [backing_user notHandle] at original
  have copied : Contains
      (rt₂.store.bytes.memmove newData p (copySize (rt.huge.sizeOf p) newSize)) newData
      (Objects.resize object newSize) :=
    original.resize size_le
  have fits : (Objects.resize object newSize).size ≤ newSize := Nat.le_refl _
  have committed := reserved.commit pos fits copied fun other outside => resize_outside outside
  have ne : toHandle m ≠ p := toHandle_ne_of_user notHandle inTable
  have forgotten : ((rt₂.memcpy newData p (copySize (rt.huge.sizeOf p) newSize)).setPointer m
      newData).Holds ((objects.remove p).insert (toHandle m) (Objects.resize object newSize)) none
        none := by
    rw [← Objects.remove_insert ne]
    exact committed.1.forget notHandle
  have gone : objects.remove p (toHandle m) = none := (Function.update_of_ne ne _ _).trans dead
  have lost : (objects.remove p).insert (toHandle m) (Objects.resize object newSize) p = none := by
    rw [← Objects.remove_insert ne]
    exact Objects.remove_self _ p
  refine ⟨forgotten.hugeFree lost, ?_, gone, fun q => ?_, fun user => ?_⟩
  · exact ((keeps.trans committed.2).remove p).trans ⟨fun _ _ _ => rfl, Nat.le_refl _⟩
  · have isHandle := fromHandleSafe_toHandle inTable
    have same : ((rt₂.memcpy newData p (copySize (rt.huge.sizeOf p) newSize)).setPointer m
        newData).huge = rt.huge := huge
    have left := forgotten.owns_hugeFree (p := p) q
    rw [same] at left
    simpa [notHandle, small, isHandle] using left
  · rw [fromHandleSafe_toHandle inTable] at user
    exact nomatch user

end

/-- `hrealloc` of a live pointer. -/
theorem hrealloc {newSize : Nat} (holds : rt.Holds objects none none) (tid_lt : tid < rt.cacheCount)
    (isLive : objects p = some object) (pos : 0 < newSize) (fits : FitsMapping newSize)
    (result : rt.hrealloc tid p newSize address = some r)
    (count_le : r.2.table.slabCount ≤ 2 ^ 21) : Reallocated rt objects p object newSize r := by
  unfold Runtime.hrealloc at result
  rcases holds.pointer_cases isLive with ⟨m, inTable, rfl, isHandle⟩ | ⟨notHandle, header, mapped⟩
  · rcases holds.located m object inTable isLive with ⟨place, located⟩
    have page := holds.heap.getUnaligned_addr located.named
    have size := holds.sizeOf_place located.named
    simp only [isHandle, located.addr, page, Option.bind_eq_bind, Option.bind_some, size] at result
    rw [← located.addr] at result
    split at result
    · rw [← backing_toHandle inTable] at result
      exact holds.hreallocToHuge isLive isHandle located.room pos fits result
    · next small =>
        exact holds.hreallocHandle tid_lt inTable isLive located.room pos (by simpa using small)
          result
  · have size_le := Nat.le_of_eq (holds.sizeOf_mapped mapped).symm
    simp only [notHandle] at result
    split at result
    · next large => exact holds.hreallocHuge isLive notHandle size_le pos fits large result
    · next small =>
        exact holds.hreallocFromHuge tid_lt isLive notHandle size_le pos (by simpa using small)
          result count_le

end Holds

end Runtime

end Alaska
