import Alaska.Lib.Run
import Alaska.Runtime.Client
import Alaska.Runtime.LiballocReleases

/-!
# Runs of the internal allocator

The runtime as the client of its internal allocator: `Objects` says what its calls mean, and
the allocator represents that after every run.
-/

namespace Alaska

open Memory Intervals Lts

/-- One operation of the runtime, with what the kernel does when it is asked for pages. -/
inductive LiballocOp where
  | malloc (mmap : Mmap) (size : Nat)
  | calloc (mmap : Mmap) (nobj size : Nat)
  | realloc (mmap : Mmap) (p size : Nat)
  | free (p : Nat)
  | write (p offset : Nat) (value : UInt8)

namespace Liballoc

open LiballocMajor

/-- The effect of an operation, with the pointer it returns or null. -/
def perform (s : Liballoc) : LiballocOp → Option (Nat × Liballoc)
  | .malloc mmap size => s.malloc mmap size
  | .calloc mmap nobj size => s.calloc mmap nobj size
  | .realloc mmap p size => s.realloc mmap p size
  | .free p => (s.free p).map fun t => (0, t)
  | .write p offset value =>
      some (0, { s with bytes := Function.update s.bytes (p + offset) value })

end Liballoc

namespace LiballocOp

open Liballoc

/-- The pages come from where nothing is, and no size overflows. -/
def Fits : LiballocOp → Prop
  | .malloc mmap size => Fresh mmap ∧ FitsMajor size
  | .calloc mmap nobj size => Fresh mmap ∧ nobj * size < 2 ^ 31
  | .realloc mmap _ size => Fresh mmap ∧ FitsMajor size
  | .free _ => True
  | .write _ _ _ => True

end LiballocOp

namespace Objects

/-- The runtime passes null or a live pointer, and stays inside the object. -/
def Allows (objects : Objects) : LiballocOp → Prop
  | .malloc _ _ => True
  | .calloc _ _ _ => True
  | .realloc _ p _ => p = 0 ∨ ∃ object, objects p = some object
  | .free p => p = 0 ∨ ∃ object, objects p = some object
  | .write p offset _ => ∃ object, objects p = some object ∧ offset < object.size

/-- A new object is where none was; `realloc` may leave the object in place. -/
def Returns (objects : Objects) (result : Nat) : LiballocOp → Prop
  | .malloc _ _ => objects result = none
  | .calloc _ _ _ => objects result = none
  | .realloc _ p size => size ≠ 0 → result = p ∧ p ≠ 0 ∨ objects result = none
  | .free _ => result = 0
  | .write _ _ _ => result = 0

/--
What an operation that returned `result` means; `none` when the client passes a pointer that
is not live.
-/
def internal (objects : Objects) (op : LiballocOp) (result : Nat) : Option Objects :=
  match op with
  | .malloc _ size => some (objects.insert result ⟨size, fun _ => none⟩)
  | .calloc _ nobj size => some (objects.insert result ⟨nobj * size, fun _ => some 0⟩)
  | .realloc _ p size =>
      if p = 0 then
        some (if size = 0 then objects else objects.insert result ⟨size, fun _ => none⟩)
      else
        (objects p).map fun object =>
          if size = 0 then
            objects.remove p
          else
            (objects.remove p).insert result (resize object size)
  | .free p => if p = 0 then some objects else (objects p).map fun _ => objects.remove p
  | .write p offset value =>
      (objects p).bind fun object =>
        if offset < object.size then
          some (objects.insert p
            { object with data := Function.update object.data offset (some value) })
        else
          none

end Objects

namespace Liballoc

open LiballocMajor Objects

/-- The allocator represents the live objects. -/
structure Holds (s : Liballoc) (objects : Objects) : Prop where
  shape : Shape s
  owned : ∀ min ∈ minorsOf s.majors, ∃ object, objects min.pointer = some object
  live : ∀ p object, objects p = some object →
    ∃ min ∈ minorsOf s.majors, min.pointer = p ∧ min.reqSize = object.size
  data : ∀ p object, objects p = some object → ∀ index < object.size, ∀ byte,
    object.data index = some byte → s.bytes (p + index) = byte

variable {s t : Liballoc} {objects : Objects} {object : Object} {min min' : LiballocMinor}
  {mmap : Mmap} {p ptr size : Nat}

/-- The bytes of an object are those of its minor behind the pointer. -/
theorem Holds.window (holds : Holds s objects) (isLive : objects p = some object) :
    ∃ min ∈ minorsOf s.majors, min.pointer = p ∧ min.reqSize = object.size ∧ p % 16 = 0 ∧
      min.address + 56 ≤ p ∧ p + object.size < endOf min := by
  rcases holds.live p object isLive with ⟨min, isMinor, rfl, size_eq⟩
  have spec := pointer_spec (holds.shape.layout.room isMinor)
  rw [size_eq] at spec
  exact ⟨min, isMinor, rfl, size_eq, spec⟩

/-- Two live objects are in two minors. -/
theorem Holds.apart {q : Nat} {other : Object} (holds : Holds s objects)
    (isLive : objects p = some object) (isLive' : objects q = some other) (ne : p ≠ q) :
    ∃ min min', min.pointer = p ∧ min'.pointer = q ∧ Separate min min' ∧
      min.address + 56 ≤ p ∧ p + object.size < endOf min ∧
      min'.address + 56 ≤ q ∧ q + other.size < endOf min' := by
  rcases holds.window isLive with ⟨min, isMinor, isPointer, _, _, lower, upper⟩
  rcases holds.window isLive' with ⟨min', isMinor', isPointer', _, _, lower', upper'⟩
  have ne' : min ≠ min' := by
    rintro rfl
    exact ne (isPointer.symm.trans isPointer')
  have separate := holds.shape.layout.separate.forall isMinor isMinor' ne'
  exact ⟨min, min', isPointer, isPointer', separate, lower, upper, lower', upper'⟩

/-- A request that was served gives a new object of unknown content. -/
theorem Holds.insert (holds : Holds s objects) (allocated : Allocated s size ptr t min) :
    Holds t (objects.insert ptr ⟨size, fun _ => none⟩) ∧ objects ptr = none := by
  have layout := allocated.shape.layout
  have isNew : min ∈ minorsOf t.majors := allocated.minors.symm.subset List.mem_cons_self
  have old : ∀ other ∈ minorsOf s.majors, other ∈ minorsOf t.majors := fun other member =>
    allocated.minors.symm.subset (List.mem_cons_of_mem _ member)
  have notOld : min ∉ minorsOf s.majors :=
    (List.nodup_cons.mp (allocated.minors.nodup layout.nodup)).1
  have fresh : objects ptr = none := by
    by_contra isLive
    rcases Option.ne_none_iff_exists'.mp isLive with ⟨object, isLive⟩
    rcases holds.live ptr object isLive with ⟨other, member, isPointer, _⟩
    have same := isPointer.trans allocated.pointer_eq.symm
    obtain rfl := layout.eq_of_pointer_eq (old other member) isNew same
    exact notOld member
  refine ⟨⟨allocated.shape, fun other isMinor => ?_, fun p object isLive => ?_, ?_⟩, fresh⟩
  · rw [exists_insert]
    rcases List.mem_cons.mp (allocated.minors.subset isMinor) with rfl | member
    · exact Or.inl allocated.pointer_eq
    · exact Or.inr (holds.owned other member)
  · rcases insert_eq_some.mp isLive with ⟨rfl, rfl⟩ | ⟨_, isLive⟩
    · exact ⟨min, isNew, allocated.pointer_eq, allocated.reqSize_eq⟩
    · rcases holds.live p object isLive with ⟨other, member, found⟩
      exact ⟨other, old other member, found⟩
  · intro p object isLive index lt byte known
    rcases insert_eq_some.mp isLive with ⟨rfl, rfl⟩ | ⟨_, isLive⟩
    · cases known
    · rcases holds.window isLive with ⟨other, member, _, _, _, lower, upper⟩
      have ne : min ≠ other := fun same => notOld (same ▸ member)
      have separate := layout.separate.forall isNew (old other member) ne
      have spec := pointer_spec (layout.room isNew)
      have elsewhere : p + index ≠ min.pointer - 16 := by
        unfold Separate at separate
        omega
      rw [allocated.bytes_eq, Function.update_of_ne elsewhere]
      exact holds.data p object isLive index lt byte known

/-- A release takes one object away. -/
theorem Holds.remove (holds : Holds s objects) (isMinor : min ∈ minorsOf s.majors)
    (released : Released s min t) : Holds t (objects.remove min.pointer) := by
  have layout := holds.shape.layout
  have old : ∀ other ∈ minorsOf t.majors, other ∈ minorsOf s.majors := fun other member =>
    released.minors.symm.subset (List.mem_cons_of_mem _ member)
  have gone : min ∉ minorsOf t.majors :=
    (List.nodup_cons.mp (released.minors.nodup layout.nodup)).1
  refine ⟨released.shape, fun other member => ?_, fun p object isLive => ?_, ?_⟩
  · rw [exists_remove]
    refine ⟨fun same => gone ?_, holds.owned other (old other member)⟩
    rwa [← layout.eq_of_pointer_eq (old other member) isMinor same]
  · rcases remove_eq_some.mp isLive with ⟨ne, isLive⟩
    rcases holds.live p object isLive with ⟨other, member, isPointer, size_eq⟩
    rcases List.mem_cons.mp (released.minors.subset member) with rfl | kept
    · exact absurd isPointer.symm ne
    · exact ⟨other, kept, isPointer, size_eq⟩
  · intro p object isLive index lt byte known
    rw [released.bytes_eq]
    exact holds.data p object (remove_eq_some.mp isLive).2 index lt byte known

/-- Stores to one object change what is known of it, and nothing else. -/
theorem Holds.store (holds : Holds s objects) (isLive : objects p = some object) (bytes : Bytes)
    (data : Nat → Option UInt8)
    (frame : ∀ address, address < p ∨ p + object.size ≤ address → bytes address = s.bytes address)
    (stored : ∀ index < object.size, ∀ byte, data index = some byte → bytes (p + index) = byte) :
    Holds { s with bytes := bytes } (objects.insert p ⟨object.size, data⟩) := by
  rcases holds.window isLive with ⟨min, isMinor, isPointer, size_eq, _, lower, upper⟩
  have layout := holds.shape.layout
  refine ⟨⟨layout, holds.shape.bet, fun other member => ?_⟩, fun other member => ?_, ?_, ?_⟩
  · have outside : other.pointer - 16 < p ∨ p + object.size ≤ other.pointer - 16 := by
      have spec := pointer_spec (layout.room member)
      by_cases same : other = min
      · subst same
        omega
      · have separate := layout.separate.forall member isMinor same
        unfold Separate at separate
        omega
    exact (frame _ outside).trans (holds.shape.noted other member)
  · exact exists_insert.mpr (Or.inr (holds.owned other member))
  · intro q other isLive'
    rcases insert_eq_some.mp isLive' with ⟨rfl, rfl⟩ | ⟨_, isLive'⟩
    · exact ⟨min, isMinor, isPointer, size_eq⟩
    · exact holds.live q other isLive'
  · intro q other isLive' index lt byte known
    rcases insert_eq_some.mp isLive' with ⟨rfl, rfl⟩ | ⟨ne, isLive'⟩
    · exact stored index lt byte known
    · rcases holds.apart isLive' isLive ne with
        ⟨min', min'', _, _, separate, lower', upper', lower'', upper''⟩
      have outside : q + index < p ∨ p + object.size ≤ q + index := by
        unfold Separate at separate
        omega
      exact (frame _ outside).trans (holds.data q other isLive' index lt byte known)

/-- The kernel has no pages for a request that no major has room for. -/
def Refuses (mmap : Mmap) (s : Liballoc) (size : Nat) : Prop :=
  Full s size ∧ allocateNewPage mmap s.majors (size + 32) = none

/-- A request gives a new object, unless the kernel refuses. -/
theorem Holds.malloc (holds : Holds s objects) (fresh : Fresh mmap) (fits : FitsMajor size) :
    Refuses mmap s size ∧ s.malloc mmap size = none ∨
      ∃ ptr t, s.malloc mmap size = some (ptr, t) ∧ objects ptr = none ∧
        Holds t (objects.insert ptr ⟨size, fun _ => none⟩) := by
  rcases holds.shape.malloc_spec fresh fits with
    ⟨_, ptr, t, min, outcome, allocated, _⟩ | ⟨full, served⟩
  · rcases holds.insert allocated with ⟨holds', isNew⟩
    exact Or.inr ⟨ptr, t, outcome, isNew, holds'⟩
  · unfold ServedBy at served
    cases mapped : allocateNewPage mmap s.majors (size + 32) with
    | none =>
        rw [mapped] at served
        exact Or.inl ⟨⟨full, mapped⟩, served⟩
    | some next =>
        rw [mapped] at served
        rcases served with ⟨ptr, t, min, outcome, allocated, _⟩
        rcases holds.insert allocated with ⟨holds', isNew⟩
        exact Or.inr ⟨ptr, t, outcome, isNew, holds'⟩

theorem Holds.free (holds : Holds s objects) (isLive : objects p = some object) :
    p ≠ 0 ∧ ∃ t, s.free p = some t ∧ Holds t (objects.remove p) ∧ t.bytes = s.bytes := by
  rcases holds.window isLive with ⟨min, isMinor, rfl, _, _, lower, _⟩
  rcases holds.shape.free_spec isMinor with ⟨t, freed, released⟩
  exact ⟨by omega, t, freed, holds.remove isMinor released, released.bytes_eq⟩

theorem insert_insert (objects : Objects) (p : Nat) (object other : Object) :
    (objects.insert p object).insert p other = objects.insert p other := by
  rw [Objects.insert, Objects.insert, Objects.insert, Function.update_idem]

theorem toInt32_eq {n : Nat} (small : n < 2 ^ 31) : toInt32 n = Int.ofNat n := by
  have lower : -((2 ^ 32 : Nat) : Int) ≤ (n : Int) * 2 := by omega
  have upper : (n : Int) * 2 < ((2 ^ 32 : Nat) : Int) := by omega
  exact Int.bmod_eq_of_le_mul_two lower upper

theorem Holds.clear {data : Nat → Option UInt8} (holds : Holds s (objects.insert p ⟨size, data⟩)) :
    Holds { s with bytes := s.bytes.memset p 0 size }
      ((objects.insert p ⟨size, data⟩).insert p ⟨size, fun _ => some 0⟩) := by
  refine holds.store (insert_self ..) _ (fun _ => some 0) (fun address outside => ?_)
    fun index lt byte known => ?_
  · exact Bytes.memset_outside outside
  · dsimp only at lt
    rw [Bytes.memset_inside (by omega) (by omega)]
    exact Option.some.inj known

theorem calloc_eq {nobj : Nat} (small : nobj * size < 2 ^ 31) : s.calloc mmap nobj size =
    (s.malloc mmap (nobj * size)).map fun result =>
      (result.1, { result.2 with bytes := result.2.bytes.memset result.1 0 (nobj * size) }) := by
  have realSize : toInt32 (nobj * size % 2 ^ 64) = Int.ofNat (nobj * size) := by
    rw [Nat.mod_eq_of_lt (by omega), toInt32_eq small]
  have nonneg : ¬ Int.ofNat (nobj * size) < 0 := Int.not_lt.mpr (Int.natCast_nonneg _)
  rw [Liballoc.calloc, realSize, if_neg nonneg, Int.ofNat_eq_natCast, Int.toNat_natCast]

/-- `calloc` clears the object. -/
theorem Holds.calloc {nobj : Nat} (holds : Holds s objects) (fresh : Fresh mmap)
    (small : nobj * size < 2 ^ 31) :
    Refuses mmap s (nobj * size) ∧ s.calloc mmap nobj size = none ∨
      ∃ ptr t, s.calloc mmap nobj size = some (ptr, t) ∧ objects ptr = none ∧
        Holds t (objects.insert ptr ⟨nobj * size, fun _ => some 0⟩) := by
  rw [calloc_eq small]
  generalize nobj * size = total at small
  have fits : FitsMajor total := by
    unfold FitsMajor
    omega
  rcases holds.malloc fresh fits with ⟨refuses, fails⟩ | ⟨ptr, t, outcome, isNew, holds'⟩
  · rw [fails]
    exact Or.inl ⟨refuses, rfl⟩
  · have cleared := holds'.clear
    rw [insert_insert] at cleared
    rw [outcome]
    exact Or.inr ⟨ptr, _, rfl, isNew, cleared⟩

/-- The request of the minor of a live object is the size of the object. -/
theorem Holds.findMinor (holds : Holds s objects) (isLive : objects p = some object) :
    ∃ maj ∈ s.majors, ∃ min ∈ maj.minors, s.findMinor p = some (maj, min) ∧ min.pointer = p ∧
      min.reqSize = object.size := by
  rcases holds.live p object isLive with ⟨min, isMinor, rfl, size_eq⟩
  rcases mem_minorsOf.mp isMinor with ⟨maj, member, isIn⟩
  exact ⟨maj, member, min, isIn, holds.shape.findMinor_eq member isIn, rfl, size_eq⟩

/-- `realloc` to a size that fits keeps the object where it is. -/
theorem Holds.shrink (holds : Holds s objects) (isLive : objects p = some object)
    {maj : LiballocMajor} (member : maj ∈ s.majors) (isIn : min ∈ maj.minors)
    (isPointer : min.pointer = p) (le : size ≤ min.reqSize) (size_eq : min.reqSize = object.size)
    (small : size < 2 ^ 32) :
    Holds (s.shrink maj min size) ((objects.remove p).insert p (resize object size)) := by
  have shrunk := holds.shape.shrink_spec member isIn le small
  have layout := holds.shape.layout
  rcases shrunk.minors with ⟨rest, old, new⟩
  have isMinor : min ∈ minorsOf s.majors := old.symm.subset List.mem_cons_self
  have others : ∀ other ∈ rest, other ∈ minorsOf s.majors := fun other inRest =>
    old.symm.subset (List.mem_cons_of_mem _ inRest)
  refine ⟨shrunk.shape, fun other isOther => ?_, fun q other isLive' => ?_, ?_⟩
  · rw [exists_insert, exists_remove]
    rcases List.mem_cons.mp (new.subset isOther) with rfl | kept
    · exact Or.inl ((pointer_with min size).trans isPointer)
    · by_cases same : other.pointer = p
      · exact Or.inl same
      · exact Or.inr ⟨same, holds.owned other (others other kept)⟩
  · rcases insert_eq_some.mp isLive' with ⟨rfl, rfl⟩ | ⟨ne, isLive'⟩
    · exact ⟨_, new.symm.subset List.mem_cons_self, (pointer_with min size).trans isPointer, rfl⟩
    · rcases holds.live q other (remove_eq_some.mp isLive').2 with ⟨min', isMinor', found, size_eq'⟩
      rcases List.mem_cons.mp (old.subset isMinor') with rfl | kept
      · exact absurd (found.symm.trans isPointer) ne
      · exact ⟨min', new.symm.subset (List.mem_cons_of_mem _ kept), found, size_eq'⟩
  · intro q other isLive' index lt byte known
    rw [shrunk.bytes_eq]
    rcases insert_eq_some.mp isLive' with ⟨rfl, rfl⟩ | ⟨_, isLive'⟩
    · have inside : index < object.size := by
        change index < size at lt
        omega
      simp only [resize] at known
      split at known
      · exact holds.data q object isLive index inside byte known
      · cases known
    · exact holds.data q other (remove_eq_some.mp isLive').2 index lt byte known

/-- `realloc` to a larger size copies the object into a new one. -/
theorem Holds.copy (isLive : objects p = some object) (isNew : objects ptr = none)
    (grows : object.size < size) (holds : Holds t (objects.insert ptr ⟨size, fun _ => none⟩)) :
    Holds { t with bytes := t.bytes.memmove ptr p object.size }
      (objects.insert ptr (resize object size)) := by
  have ne : p ≠ ptr := by
    rintro rfl
    rw [isNew] at isLive
    cases isLive
  have copied := holds.store (insert_self ..) (t.bytes.memmove ptr p object.size)
    (resize object size).data (fun address outside => ?_) fun index lt byte known => ?_
  · rwa [insert_insert] at copied
  · refine Bytes.memmove_outside ?_
    dsimp only at outside
    omega
  · simp only [resize] at known
    split at known
    · next within =>
        have inside : index < object.size := by omega
        rw [Bytes.memmove_inside (by omega) (by omega), Nat.add_sub_cancel_left]
        have isLive' : (objects.insert ptr ⟨size, fun _ => none⟩) p = some object :=
          insert_eq_some.mpr (Or.inr ⟨ne, isLive⟩)
        exact holds.data p object isLive' index inside byte known
    · cases known

/-- `realloc` of a live object. -/
theorem Holds.realloc (holds : Holds s objects) (fresh : Fresh mmap) (fits : FitsMajor size)
    (isLive : objects p = some object) (positive : size ≠ 0) :
    Refuses mmap s size ∧ s.realloc mmap p size = none ∨
      ∃ ptr t, s.realloc mmap p size = some (ptr, t) ∧ (ptr = p ∨ objects ptr = none) ∧
        Holds t ((objects.remove p).insert ptr (resize object size)) := by
  rcases holds.findMinor isLive with ⟨maj, member, min, isIn, found, isPointer, size_eq⟩
  have notNull := (holds.free isLive).1
  have realloc_eq : s.realloc mmap p size =
      if size ≤ min.reqSize then some (p, s.shrink maj min size)
      else (s.malloc mmap size).bind fun result =>
        ({ result.2 with bytes := result.2.bytes.memmove result.1 p min.reqSize }.free p).map
          fun s => (result.1, s) := by
    rw [Liballoc.realloc, if_neg positive, if_neg notNull, found, Option.bind_some]
  rw [realloc_eq]
  by_cases le : size ≤ min.reqSize
  · rw [if_pos le]
    have small : size < 2 ^ 32 := by
      unfold FitsMajor at fits
      omega
    exact Or.inr ⟨p, _, rfl, Or.inl rfl,
      holds.shrink isLive member isIn isPointer le size_eq small⟩
  · rw [if_neg le, size_eq]
    rcases holds.malloc fresh fits with ⟨refuses, fails⟩ | ⟨ptr, t, outcome, isNew, holds'⟩
    · rw [fails]
      exact Or.inl ⟨refuses, rfl⟩
    · have copied := Holds.copy isLive isNew (by omega) holds'
      have ne : ptr ≠ p := by
        rintro rfl
        rw [isNew] at isLive
        cases isLive
      have isLive' : (objects.insert ptr (resize object size)) p = some object :=
        insert_eq_some.mpr (Or.inr ⟨ne.symm, isLive⟩)
      rcases copied.free isLive' with ⟨_, u, freed, holds'', _⟩
      rw [remove_insert ne] at holds''
      rw [outcome, Option.bind_some]
      dsimp only
      rw [freed]
      exact Or.inr ⟨ptr, u, rfl, Or.inr isNew, holds''⟩

/-- A store into a live object. -/
theorem Holds.write {offset : Nat} (holds : Holds s objects) (isLive : objects p = some object)
    (inside : offset < object.size) (value : UInt8) :
    Holds { s with bytes := Function.update s.bytes (p + offset) value }
      (objects.insert p { object with
        data := Function.update object.data offset (some value) }) := by
  refine holds.store isLive _ _ (fun address outside => ?_) fun index lt byte known => ?_
  · exact Function.update_of_ne (by omega) ..
  · by_cases here : index = offset
    · subst here
      rw [Function.update_self] at known ⊢
      exact Option.some.inj known
    · rw [Function.update_of_ne here] at known
      rw [Function.update_of_ne (by omega)]
      exact holds.data p object isLive index lt byte known

/-- The kernel has no pages for the operation. -/
def Refused (s : Liballoc) : LiballocOp → Prop
  | .malloc mmap size => Refuses mmap s size
  | .calloc mmap nobj size => Refuses mmap s (nobj * size)
  | .realloc mmap _ size => Refuses mmap s size
  | .free _ => False
  | .write _ _ _ => False

/-- An operation is served, and the allocator represents what it means. -/
def Serves (s : Liballoc) (objects : Objects) (op : LiballocOp) : Prop :=
  ∃ result t objects', s.perform op = some (result, t) ∧
    objects.internal op result = some objects' ∧ objects.Returns result op ∧ Holds t objects'

/-- Every allowed operation is served, unless the kernel refuses. -/
theorem Holds.step (holds : Holds s objects) {op : LiballocOp} (fits : op.Fits)
    (allows : objects.Allows op) :
    Refused s op ∧ s.perform op = none ∨ Serves s objects op := by
  cases op with
  | malloc mmap size =>
      refine (holds.malloc fits.1 fits.2).imp id ?_
      rintro ⟨ptr, t, outcome, isNew, holds'⟩
      exact ⟨ptr, t, _, outcome, rfl, isNew, holds'⟩
  | calloc mmap nobj size =>
      refine (holds.calloc fits.1 fits.2).imp id ?_
      rintro ⟨ptr, t, outcome, isNew, holds'⟩
      exact ⟨ptr, t, _, outcome, rfl, isNew, holds'⟩
  | realloc mmap p size =>
      by_cases zero : size = 0
      · -- the object is released, and null is returned
        rcases allows with rfl | ⟨object, isLive⟩
        · have performed : s.perform (.realloc mmap 0 size) = some (0, s) := by
            rw [perform, Liballoc.realloc, if_pos zero, Liballoc.free, if_pos rfl, Option.map_some]
          refine Or.inr ⟨0, s, objects, performed, ?_, fun positive => absurd zero positive, holds⟩
          rw [internal, if_pos rfl, if_pos zero]
        · rcases holds.free isLive with ⟨notNull, t, freed, holds', _⟩
          have performed : s.perform (.realloc mmap p size) = some (0, t) := by
            rw [perform, Liballoc.realloc, if_pos zero, freed, Option.map_some]
          refine Or.inr ⟨0, t, _, performed, ?_, fun positive => absurd zero positive, holds'⟩
          rw [internal, if_neg notNull, isLive, Option.map_some, if_pos zero]
      · rcases allows with rfl | ⟨object, isLive⟩
        · have performed : s.perform (.realloc mmap 0 size) = s.malloc mmap size := by
            rw [perform, Liballoc.realloc, if_neg zero, if_pos rfl]
          rw [performed]
          refine (holds.malloc fits.1 fits.2).imp id ?_
          rintro ⟨ptr, t, outcome, isNew, holds'⟩
          refine ⟨ptr, t, _, performed.trans outcome, ?_, fun _ => Or.inr isNew, holds'⟩
          rw [internal, if_pos rfl, if_neg zero]
        · have notNull := (holds.free isLive).1
          refine (holds.realloc fits.1 fits.2 isLive zero).imp id ?_
          rintro ⟨ptr, t, outcome, place, holds'⟩
          refine ⟨ptr, t, _, outcome, ?_, fun _ => place.imp (fun same => ⟨same, notNull⟩) id,
            holds'⟩
          rw [internal, if_neg notNull, isLive, Option.map_some, if_neg zero]
  | free p =>
      right
      rcases allows with rfl | ⟨object, isLive⟩
      · have performed : s.perform (.free 0) = some (0, s) := by
          rw [perform, Liballoc.free, if_pos rfl, Option.map_some]
        exact ⟨0, s, objects, performed, by rw [internal, if_pos rfl], rfl, holds⟩
      · rcases holds.free isLive with ⟨notNull, t, freed, holds', _⟩
        have performed : s.perform (.free p) = some (0, t) := by
          rw [perform, freed, Option.map_some]
        refine ⟨0, t, _, performed, ?_, rfl, holds'⟩
        rw [internal, if_neg notNull, isLive, Option.map_some]
  | write p offset value =>
      rcases allows with ⟨object, isLive, inside⟩
      refine Or.inr ⟨0, _, _, rfl, ?_, rfl, holds.write isLive inside value⟩
      rw [internal, isLive, Option.bind_some, if_pos inside]

end Liballoc

/-- The allocator beside the map it is to represent. -/
structure LiballocState where
  allocator : Liballoc
  objects : Objects

namespace LiballocState

open Liballoc LiballocMajor Objects

/-- Nothing is mapped. -/
def initial (bytes : Bytes) : LiballocState := ⟨⟨[], none, bytes⟩, fun _ => none⟩

def next (s : LiballocState) (op : LiballocOp) : Option LiballocState :=
  (s.allocator.perform op).bind fun outcome =>
    (s.objects.internal op outcome.1).map fun objects => ⟨outcome.2, objects⟩

variable {s t : LiballocState} {op : LiballocOp}

/-- What the runtime can rely on, and what keeps its stores away from the allocator's data. -/
structure Refines (s : LiballocState) : Prop where
  aligned : ∀ p object, s.objects p = some object → p ≠ 0 ∧ p % 16 = 0
  inside : ∀ p object, s.objects p = some object → ∃ maj ∈ s.allocator.majors,
    maj.address + LiballocMajor.bytes ≤ p ∧ p + object.size ≤ maj.address + 4096 * maj.pages
  apart : ∀ p object q other, s.objects p = some object → s.objects q = some other → p ≠ q →
    p + object.size ≤ q ∨ q + other.size ≤ p
  majors : ∀ p object, s.objects p = some object → ∀ maj ∈ s.allocator.majors,
    p + object.size ≤ maj.address ∨ maj.address + LiballocMajor.bytes ≤ p
  minors : ∀ p object, s.objects p = some object → ∀ min ∈ minorsOf s.allocator.majors,
    p + object.size ≤ min.address ∨ min.pointer ≤ p
  data : ∀ p object, s.objects p = some object → ∀ index < object.size, ∀ byte,
    object.data index = some byte → s.allocator.bytes (p + index) = byte
  used : ∀ maj ∈ s.allocator.majors, ∃ p object, s.objects p = some object ∧
    maj.address ≤ p ∧ p < maj.address + 4096 * maj.pages

theorem refines (holds : s.allocator.Holds s.objects) : s.Refines where
  aligned := by
    intro p object isLive
    rcases holds.window isLive with ⟨min, _, _, _, aligned, lower, _⟩
    exact ⟨by omega, aligned⟩
  inside := by
    intro p object isLive
    rcases holds.window isLive with ⟨min, isMinor, _, _, _, lower, upper⟩
    rcases mem_minorsOf.mp isMinor with ⟨maj, member, isIn⟩
    have ok := (holds.shape.layout.inUse maj member).1
    have within := ok.inside isIn
    have size_eq := ok.size_eq
    have header : LiballocMajor.bytes = 40 := rfl
    exact ⟨maj, member, by omega, by omega⟩
  apart := by
    intro p object q other isLive isLive' ne
    rcases holds.apart isLive isLive' ne with
      ⟨min, min', _, _, separate, lower, upper, lower', upper'⟩
    unfold Separate at separate
    omega
  majors := by
    intro p object isLive maj member
    rcases holds.window isLive with ⟨min, isMinor, _, _, _, lower, upper⟩
    rcases mem_minorsOf.mp isMinor with ⟨other, member', isIn⟩
    have within := (holds.shape.layout.inUse other member').1.inside isIn
    have bounds := (holds.shape.layout.inUse maj member).1.bounds
    have header : LiballocMajor.bytes = 40 := rfl
    by_cases same : maj = other
    · subst same
      omega
    · have apart := holds.shape.layout.apart.forall member member' same
      unfold Liballoc.Apart at apart
      omega
  minors := by
    intro p object isLive min isMinor
    rcases holds.window isLive with ⟨other, isMinor', isPointer, _, _, lower, upper⟩
    have spec := pointer_spec (holds.shape.layout.room isMinor)
    by_cases same : min = other
    · subst same
      omega
    · have separate := holds.shape.layout.separate.forall isMinor isMinor' same
      unfold Separate at separate
      omega
  data := holds.data
  used := by
    intro maj member
    rcases holds.shape.layout.inUse maj member with ⟨ok, used⟩
    rcases List.exists_mem_of_ne_nil _ used with ⟨min, isIn⟩
    have isMinor := mem_minorsOf.mpr ⟨maj, member, isIn⟩
    rcases holds.owned min isMinor with ⟨object, isLive⟩
    have spec := pointer_spec (holds.shape.layout.room isMinor)
    have within := ok.inside isIn
    have size_eq := ok.size_eq
    exact ⟨min.pointer, object, isLive, by omega, by omega⟩

theorem initial_holds (bytes : Bytes) :
    (initial bytes).allocator.Holds (initial bytes).objects := by
  refine ⟨⟨⟨?_, List.Pairwise.nil⟩, ?_, ?_⟩, ?_, ?_, ?_⟩
  · exact fun maj member => absurd member List.not_mem_nil
  · intro bet isBet
    cases isBet
  · exact fun min member => absurd member List.not_mem_nil
  · exact fun min member => absurd member List.not_mem_nil
  · intro p object isLive
    cases isLive
  · intro p object isLive
    cases isLive

theorem allows_of_internal {objects objects' : Objects} {result : Nat}
    (isStep : objects.internal op result = some objects') : objects.Allows op := by
  cases op with
  | malloc mmap size => trivial
  | calloc mmap nobj size => trivial
  | realloc mmap p size =>
      by_cases null : p = 0
      · exact Or.inl null
      · rw [internal, if_neg null, Option.map_eq_some_iff] at isStep
        rcases isStep with ⟨object, isLive, _⟩
        exact Or.inr ⟨object, isLive⟩
  | free p =>
      by_cases null : p = 0
      · exact Or.inl null
      · rw [internal, if_neg null, Option.map_eq_some_iff] at isStep
        rcases isStep with ⟨object, isLive, _⟩
        exact Or.inr ⟨object, isLive⟩
  | write p offset value =>
      rw [internal, Option.bind_eq_some_iff] at isStep
      rcases isStep with ⟨object, isLive, isStep⟩
      refine ⟨object, isLive, ?_⟩
      by_contra outside
      rw [if_neg outside] at isStep
      cases isStep

/-- A step that is taken is one that is served. -/
theorem next_holds (holds : s.allocator.Holds s.objects) (fits : op.Fits)
    (step : s.next op = some t) : t.allocator.Holds t.objects := by
  rw [next, Option.bind_eq_some_iff] at step
  rcases step with ⟨⟨result, u⟩, performed, step⟩
  rcases Option.map_eq_some_iff.mp step with ⟨objects, meaning, rfl⟩
  rcases holds.step fits (allows_of_internal meaning) with
    ⟨_, fails⟩ | ⟨result', u', objects', performed', meaning', _, holds'⟩
  · rw [fails] at performed
    cases performed
  · rw [performed] at performed'
    cases performed'
    rw [meaning] at meaning'
    cases meaning'
    exact holds'

theorem holds_of_run {bytes : Bytes} {ops : List LiballocOp}
    (run : Run (ofFunction next) (initial bytes) ops s) (fits : ∀ op ∈ ops, op.Fits) :
    s.allocator.Holds s.objects := by
  have holds : ∀ {s t : LiballocState} {ops : List LiballocOp}, Run (ofFunction next) s ops t →
      (∀ op ∈ ops, op.Fits) → s.allocator.Holds s.objects → t.allocator.Holds t.objects := by
    intro s t ops run
    induction run with
    | nil => exact fun _ holds => holds
    | cons head tail ih =>
        intro fits holds
        refine ih (fun op member => fits op (List.mem_cons_of_mem _ member)) ?_
        exact next_holds holds (fits _ List.mem_cons_self) head
  exact holds run fits (initial_holds bytes)

/-- An operation of the state is served, with a result that the caller can use. -/
def Serves (s : LiballocState) (op : LiballocOp) : Prop :=
  ∃ result allocator objects, s.allocator.perform op = some (result, allocator) ∧
    s.objects.internal op result = some objects ∧ s.objects.Returns result op ∧
    (⟨allocator, objects⟩ : LiballocState).Refines

/--
After every run the allocator represents the live objects, apart from each other and from its
own data, and serves every allowed operation for which the kernel does not refuse pages.
-/
theorem allocates_of_run {bytes : Bytes} {ops : List LiballocOp}
    (run : Run (ofFunction next) (initial bytes) ops s) (fits : ∀ op ∈ ops, op.Fits) :
    s.Refines ∧ ∀ op : LiballocOp, op.Fits → s.objects.Allows op →
      Refused s.allocator op ∧ s.allocator.perform op = none ∨ s.Serves op := by
  have holds := holds_of_run run fits
  refine ⟨refines holds, fun op opFits allows => (holds.step opFits allows).imp id ?_⟩
  rintro ⟨result, allocator, objects, performed, meaning, returns, holds'⟩
  exact ⟨result, allocator, objects, performed, meaning, returns, refines holds'⟩

/-- A kernel that maps behind all majors, from `2 ^ 30` on. -/
def mapBehind : Mmap := fun majors pages =>
  let address := majors.foldl (fun limit maj => max limit (maj.address + 4096 * maj.pages)) (2 ^ 30)
  if address + 4096 * pages ≤ 2 ^ 47 then some address else none

theorem le_foldl_max (limit : LiballocMajor → Nat) (majors : List LiballocMajor) (start : Nat) :
    start ≤ majors.foldl (fun bound maj => max bound (limit maj)) start ∧
      ∀ maj ∈ majors, limit maj ≤ majors.foldl (fun bound maj => max bound (limit maj)) start := by
  induction majors generalizing start with
  | nil => exact ⟨Nat.le_refl start, fun maj member => absurd member List.not_mem_nil⟩
  | cons maj majors ih =>
      rcases ih (max start (limit maj)) with ⟨grows, above⟩
      refine ⟨(Nat.le_max_left ..).trans grows, List.forall_mem_cons.mpr ⟨?_, above⟩⟩
      exact (Nat.le_max_right ..).trans grows

theorem fresh_mapBehind : Fresh mapBehind := by
  intro majors pages address mapped
  have bounds := le_foldl_max (fun maj => maj.address + 4096 * maj.pages) majors (2 ^ 30)
  unfold mapBehind at mapped
  dsimp only at mapped
  split at mapped
  · next below =>
      obtain rfl := Option.some.inj mapped
      exact ⟨by omega, below, fun maj member => Or.inr (bounds.2 maj member)⟩
  · cases mapped

/-- Two objects in one major, a third one that has a major of its own, and a copy. -/
def sessionOps : List LiballocOp :=
  [.malloc mapBehind 100, .calloc mapBehind 10 8, .malloc mapBehind 70000,
    .write (2 ^ 30 + 96) 99 7, .realloc mapBehind (2 ^ 30 + 96) 200, .free (2 ^ 30 + 272)]

theorem sessionOps_fits : ∀ op ∈ sessionOps, op.Fits := by
  have fits : ∀ size, size ≤ 70000 → FitsMajor size := by
    intro size le
    unfold FitsMajor
    omega
  simp only [sessionOps, List.forall_mem_cons]
  exact ⟨⟨fresh_mapBehind, fits _ (by decide)⟩, ⟨fresh_mapBehind, by decide⟩,
    ⟨fresh_mapBehind, fits _ (by decide)⟩, trivial, ⟨fresh_mapBehind, fits _ (by decide)⟩, trivial,
    fun op member => absurd member List.not_mem_nil⟩

theorem sessionOps_allowed :
    (replay next (initial fun _ => 0) sessionOps).isSome = true := by
  decide +kernel

theorem allocates_of_run_session :
    let s := (replay next (initial fun _ => 0) sessionOps).get sessionOps_allowed
    s.Refines ∧ ∀ op : LiballocOp, op.Fits → s.objects.Allows op →
      Refused s.allocator op ∧ s.allocator.perform op = none ∨ s.Serves op :=
  allocates_of_run (run_of_replay (Option.some_get sessionOps_allowed).symm) sessionOps_fits

/-! ## When a new major is mapped -/

/-- Some major has room for a minor of the request between its other minors. -/
def HasPlace (s : LiballocState) (reqSize : Nat) : Prop :=
  ∃ maj ∈ s.allocator.majors, ∃ place, maj.address + LiballocMajor.bytes ≤ place ∧
    place + (reqSize + 72) ≤ maj.address + 4096 * maj.pages ∧ ∀ min ∈ maj.minors,
      place + (reqSize + 72) ≤ min.address ∨ min.address + 40 + min.size ≤ place

theorem hasPlace_iff (holds : s.allocator.Holds s.objects) {reqSize : Nat} :
    s.HasPlace reqSize ↔ ¬ Full s.allocator reqSize := by
  have gap : ∀ maj ∈ s.allocator.majors, maj.HasGap (reqSize + 32) ↔
      ∃ place, maj.address + LiballocMajor.bytes ≤ place ∧
        place + (reqSize + 72) ≤ maj.address + 4096 * maj.pages ∧ ∀ min ∈ maj.minors,
          place + (reqSize + 72) ≤ min.address ∨ min.address + 40 + min.size ≤ place := by
    intro maj member
    have ok := (holds.shape.layout.inUse maj member).1
    rw [← ok.size_eq]
    exact gap_iff ok.packed
  unfold HasPlace Full
  constructor
  · rintro ⟨maj, member, room⟩ full
    exact full maj member ((gap maj member).mpr room)
  · intro notFull
    by_contra none
    exact notFull fun maj member hasGap => none ⟨maj, member, (gap maj member).mp hasGap⟩

/--
After every run a request is served in the pages that are there exactly when some place of
them is large enough, wherever the search starts and whatever the kernel would do.
-/
theorem inPlace_iff {bytes : Bytes} {ops : List LiballocOp} {mmap : Mmap} {reqSize : Nat}
    (run : Run (ofFunction next) (initial bytes) ops s) (fits : ∀ op ∈ ops, op.Fits)
    (fresh : Fresh mmap) (fitsMajor : FitsMajor reqSize) :
    (∃ ptr t, s.allocator.malloc mmap reqSize = some (ptr, t) ∧
      t.majors.map extent = s.allocator.majors.map extent) ↔ s.HasPlace reqSize := by
  have holds := holds_of_run run fits
  rw [hasPlace_iff holds]
  rcases holds.shape.malloc_spec fresh fitsMajor with
    ⟨notFull, ptr, t, min, outcome, _, same⟩ | ⟨full, served⟩
  · exact iff_of_true ⟨ptr, t, outcome, same⟩ notFull
  · refine iff_of_false ?_ fun notFull => notFull full
    rintro ⟨ptr, t, outcome, same⟩
    unfold ServedBy at served
    cases mapped : allocateNewPage mmap s.allocator.majors (reqSize + 32) with
    | none =>
        rw [mapped, outcome] at served
        cases served
    | some next =>
        rw [mapped] at served
        rcases served with ⟨ptr', t', min, outcome', _, more⟩
        rw [outcome] at outcome'
        cases outcome'
        rw [same] at more
        have lengths := congrArg List.length more
        simp at lengths

theorem inPlace_iff_session :
    let s := (replay next (initial fun _ => 0) sessionOps).get sessionOps_allowed
    (∃ ptr t, s.allocator.malloc (fun _ _ => none) 100 = some (ptr, t) ∧
      t.majors.map extent = s.allocator.majors.map extent) ↔ s.HasPlace 100 :=
  inPlace_iff (run_of_replay (Option.some_get sessionOps_allowed).symm) sessionOps_fits
    (fun _ _ _ mapped => by cases mapped) (by decide)

end LiballocState

end Alaska
