import Alaska.Lib.ForestOrder
import Mathlib.Data.Set.Finite.Lattice
import Mathlib.Logic.Function.Iterate
import Mathlib.Order.Interval.Finset.Nat

/-!
# Alaska types

`Types.h`: types are made by a context that keeps one instance of each, so equality is
identity. The fields of a structure are converted together with it, and a pointer field
becomes a fresh variable, so a type is a finite tree. `type_lifts_into` of
`OptimisticTypes.cpp` looks for a type at the front of another one; as an order on the types
it is a forest.
-/

namespace Alaska

/-- `alaska::Type`; a primitive type is known by what the LLVM type prints as. -/
inductive AlaskaType where
  | var (id : Nat)
  | primitive (wrapped : String)
  | struct (name : String) (fields : List AlaskaType)
  | pointer (elementType : AlaskaType)
  | array (elementType : AlaskaType) (numElements : Nat)

namespace AlaskaType

mutual

/-- Equality of types, which the source decides by comparing pointers. -/
def decEq : (a b : AlaskaType) → Decidable (a = b)
  | .var id, .var id' => decidable_of_iff (id = id') (by simp)
  | .primitive wrapped, .primitive wrapped' => decidable_of_iff (wrapped = wrapped') (by simp)
  | .struct name fields, .struct name' fields' =>
      have := decEqList fields fields'
      decidable_of_iff (name = name' ∧ fields = fields') (by simp)
  | .pointer elementType, .pointer elementType' =>
      have := decEq elementType elementType'
      decidable_of_iff (elementType = elementType') (by simp)
  | .array elementType numElements, .array elementType' numElements' =>
      have := decEq elementType elementType'
      decidable_of_iff (elementType = elementType' ∧ numElements = numElements') (by simp)
  | .var _, .primitive _ | .var _, .struct _ _ | .var _, .pointer _ | .var _, .array _ _
  | .primitive _, .var _ | .primitive _, .struct _ _ | .primitive _, .pointer _
  | .primitive _, .array _ _ | .struct _ _, .var _ | .struct _ _, .primitive _
  | .struct _ _, .pointer _ | .struct _ _, .array _ _ | .pointer _, .var _
  | .pointer _, .primitive _ | .pointer _, .struct _ _ | .pointer _, .array _ _
  | .array _ _, .var _ | .array _ _, .primitive _ | .array _ _, .struct _ _
  | .array _ _, .pointer _ => isFalse (by simp)

def decEqList : (a b : List AlaskaType) → Decidable (a = b)
  | [], [] => isTrue rfl
  | a :: as, b :: bs =>
      have := decEq a b
      have := decEqList as bs
      decidable_of_iff (a = b ∧ as = bs) (by simp)
  | [], _ :: _ | _ :: _, [] => isFalse (by simp)

end

instance : DecidableEq AlaskaType := decEq

/--
`type_lifts_into`. Its test for two pointers that comes after the first return of the pointer
case is never reached.
-/
def typeLiftsInto (tolift into : AlaskaType) : Bool :=
  if tolift = into then
    true
  else
    match tolift, into with
    | .pointer toliftElement, .pointer intoElement => typeLiftsInto toliftElement intoElement
    | tolift, .struct _ (firstType :: _) => typeLiftsInto tolift firstType
    | _, _ => false
termination_by structural into

/-- The order of the types: what lifts into a type is below it. -/
instance : LE AlaskaType := ⟨fun a b => typeLiftsInto a b = true⟩

instance : DecidableLE AlaskaType := fun a b => inferInstanceAs (Decidable (typeLiftsInto a b = true))

variable {a b c element element' first : AlaskaType} {name : String} {fields : List AlaskaType}

/-! ## The lifting order -/

protected theorem le_refl (a : AlaskaType) : a ≤ a := by
  show typeLiftsInto a a = true
  unfold typeLiftsInto
  rw [if_pos rfl]

theorem le_var {id : Nat} : a ≤ .var id ↔ a = .var id := by
  constructor
  · intro lifts
    change typeLiftsInto a (.var id) = true at lifts
    unfold typeLiftsInto at lifts
    split at lifts
    · next equal => exact equal
    · cases a <;> simp at lifts
  · rintro rfl
    exact AlaskaType.le_refl _

theorem le_primitive {wrapped : String} : a ≤ .primitive wrapped ↔ a = .primitive wrapped := by
  constructor
  · intro lifts
    change typeLiftsInto a (.primitive wrapped) = true at lifts
    unfold typeLiftsInto at lifts
    split at lifts
    · next equal => exact equal
    · cases a <;> simp at lifts
  · rintro rfl
    exact AlaskaType.le_refl _

theorem le_array {numElements : Nat} :
    a ≤ .array element numElements ↔ a = .array element numElements := by
  constructor
  · intro lifts
    change typeLiftsInto a (.array element numElements) = true at lifts
    unfold typeLiftsInto at lifts
    split at lifts
    · next equal => exact equal
    · cases a <;> simp at lifts
  · rintro rfl
    exact AlaskaType.le_refl _

theorem le_struct_nil : a ≤ .struct name [] ↔ a = .struct name [] := by
  constructor
  · intro lifts
    change typeLiftsInto a (.struct name []) = true at lifts
    unfold typeLiftsInto at lifts
    split at lifts
    · next equal => exact equal
    · cases a <;> simp at lifts
  · rintro rfl
    exact AlaskaType.le_refl _

theorem le_struct_cons :
    a ≤ .struct name (first :: fields) ↔ a = .struct name (first :: fields) ∨ a ≤ first := by
  show typeLiftsInto a (.struct name (first :: fields)) = true ↔ _
  unfold typeLiftsInto
  split
  · next equal => simp [equal]
  · next ne =>
      have reduced : a ≤ first ↔ typeLiftsInto a first = true := Iff.rfl
      rw [reduced]
      cases a <;> simp_all

theorem le_pointer :
    a ≤ .pointer element ↔ ∃ inner, a = .pointer inner ∧ inner ≤ element := by
  constructor
  · intro lifts
    change typeLiftsInto a (.pointer element) = true at lifts
    unfold typeLiftsInto at lifts
    split at lifts
    · next equal => exact ⟨element, equal, AlaskaType.le_refl _⟩
    · cases a with
      | pointer inner => exact ⟨inner, rfl, lifts⟩
      | var | primitive | struct | array => simp at lifts
  · rintro ⟨inner, rfl, le⟩
    show typeLiftsInto (.pointer inner) (.pointer element) = true
    unfold typeLiftsInto
    split
    · rfl
    · exact le

@[simp]
theorem pointer_le_pointer : pointer element ≤ pointer element' ↔ element ≤ element' := by
  rw [le_pointer]
  simp

/-- Induction along the steps of `typeLiftsInto`, to the element of a pointer or the first field. -/
@[elab_as_elim]
theorem front_induction {motive : AlaskaType → Prop}
    (var : ∀ id, motive (.var id)) (primitive : ∀ wrapped, motive (.primitive wrapped))
    (struct_nil : ∀ name, motive (.struct name []))
    (struct_cons : ∀ name first fields, motive first → motive (.struct name (first :: fields)))
    (pointer : ∀ element, motive element → motive (.pointer element))
    (array : ∀ element numElements, motive (.array element numElements)) : ∀ a, motive a
  | .var id => var id
  | .primitive wrapped => primitive wrapped
  | .struct name [] => struct_nil name
  | .struct name (first :: fields) =>
      struct_cons name first fields
        (front_induction var primitive struct_nil struct_cons pointer array first)
  | .pointer element =>
      pointer element (front_induction var primitive struct_nil struct_cons pointer array element)
  | .array element numElements => array element numElements

protected theorem le_trans {a b c : AlaskaType} (left : a ≤ b) (right : b ≤ c) : a ≤ c := by
  induction c using front_induction generalizing a b with
  | var => exact le_var.mp right ▸ left
  | primitive => exact le_primitive.mp right ▸ left
  | array => exact le_array.mp right ▸ left
  | struct_nil => exact le_struct_nil.mp right ▸ left
  | struct_cons name first fields ih =>
      rcases le_struct_cons.mp right with equal | le
      · exact equal ▸ left
      · exact le_struct_cons.mpr (Or.inr (ih left le))
  | pointer element ih =>
      rcases le_pointer.mp right with ⟨inner, rfl, innerLe⟩
      rcases le_pointer.mp left with ⟨inner', rfl, innerLe'⟩
      exact pointer_le_pointer.mpr (ih innerLe' innerLe)

/-- How far `typeLiftsInto` can descend into a type. -/
def depth : AlaskaType → Nat
  | .struct _ (first :: _) => depth first + 1
  | .pointer elementType => depth elementType
  | _ => 0

theorem eq_or_depth_lt {a b : AlaskaType} (le : a ≤ b) : a = b ∨ a.depth < b.depth := by
  induction b using front_induction generalizing a with
  | var => exact Or.inl (le_var.mp le)
  | primitive => exact Or.inl (le_primitive.mp le)
  | array => exact Or.inl (le_array.mp le)
  | struct_nil => exact Or.inl (le_struct_nil.mp le)
  | struct_cons name first fields ih =>
      rcases le_struct_cons.mp le with equal | le
      · exact Or.inl equal
      · right
        have := ih le
        simp only [depth]
        rcases this with rfl | lt <;> omega
  | pointer element ih =>
      rcases le_pointer.mp le with ⟨inner, rfl, innerLe⟩
      rcases ih innerLe with rfl | lt
      · exact Or.inl rfl
      · exact Or.inr lt

instance : PartialOrder AlaskaType where
  le_refl := AlaskaType.le_refl
  le_trans _ _ _ := AlaskaType.le_trans
  le_antisymm a b left right := by
    rcases eq_or_depth_lt left with equal | lt
    · exact equal
    · rcases eq_or_depth_lt right with equal | lt'
      · exact equal.symm
      · omega

/-- What lifts into one type is a chain: `typeLiftsInto` descends along a single path. -/
instance : ForestOrder AlaskaType where
  total_below {a b c} left right := by
    induction c using front_induction generalizing a b with
    | var => exact Or.inl (le_of_eq ((le_var.mp left).trans (le_var.mp right).symm))
    | primitive =>
        exact Or.inl (le_of_eq ((le_primitive.mp left).trans (le_primitive.mp right).symm))
    | array => exact Or.inl (le_of_eq ((le_array.mp left).trans (le_array.mp right).symm))
    | struct_nil =>
        exact Or.inl (le_of_eq ((le_struct_nil.mp left).trans (le_struct_nil.mp right).symm))
    | struct_cons name first fields ih =>
        rcases le_struct_cons.mp left with rfl | leftLe
        · exact Or.inr right
        · rcases le_struct_cons.mp right with rfl | rightLe
          · exact Or.inl left
          · exact ih leftLe rightLe
    | pointer element ih =>
        rcases le_pointer.mp left with ⟨inner, rfl, innerLe⟩
        rcases le_pointer.mp right with ⟨inner', rfl, innerLe'⟩
        simpa using ih innerLe innerLe'

/-! ## Pointers to a type -/

/-- The number of pointers around a type. -/
def pointerDepth : AlaskaType → Nat
  | .pointer elementType => pointerDepth elementType + 1
  | _ => 0

/-- What a type lifts into is behind no more pointers than the type itself. -/
theorem pointerDepth_le {a b : AlaskaType} (le : a ≤ b) : b.pointerDepth ≤ a.pointerDepth := by
  induction b using front_induction generalizing a with
  | var | primitive | array | struct_nil | struct_cons => exact Nat.zero_le _
  | pointer element ih =>
      rcases le_pointer.mp le with ⟨inner, rfl, innerLe⟩
      exact Nat.succ_le_succ (ih innerLe)

theorem pointerDepth_iterate {n : Nat} :
    (AlaskaType.pointer^[n] a).pointerDepth = n + a.pointerDepth := by
  induction n with
  | zero => simp
  | succ n ih =>
      rw [Function.iterate_succ_apply', pointerDepth, ih]
      omega

/-- The pointers of any depth to some types. -/
def pointersTo (base : Set AlaskaType) : Set AlaskaType :=
  {t | ∃ n, ∃ b ∈ base, AlaskaType.pointer^[n] b = t}

theorem subset_pointersTo {base : Set AlaskaType} : base ⊆ pointersTo base :=
  fun t member => ⟨0, t, member, rfl⟩

theorem pointer_mem_pointersTo {base : Set AlaskaType} {t : AlaskaType}
    (member : t ∈ pointersTo base) : .pointer t ∈ pointersTo base := by
  rcases member with ⟨n, b, member, rfl⟩
  exact ⟨n + 1, b, member, Function.iterate_succ_apply' _ _ _⟩

/-- Only finitely many pointers to finitely many types are above a type. -/
theorem wellFoundedGT_pointersTo {base : Set AlaskaType} (finite : base.Finite) :
    WellFoundedGT (pointersTo base) := by
  apply wellFoundedGT_of_finite_Ici
  rintro ⟨a, _⟩
  apply Set.Finite.of_finite_image _ Subtype.val_injective.injOn
  have bounded : ((Set.Iic a.pointerDepth ×ˢ base).image
      fun pair : Nat × AlaskaType => AlaskaType.pointer^[pair.1] pair.2).Finite :=
    ((Set.finite_Iic _).prod finite).image _
  apply bounded.subset
  rintro _ ⟨⟨b, n, inner, member, rfl⟩, above, rfl⟩
  have depth := pointerDepth_le (show a ≤ AlaskaType.pointer^[n] inner from above)
  rw [pointerDepth_iterate] at depth
  refine ⟨(n, inner), ⟨?_, member⟩, rfl⟩
  show n ≤ a.pointerDepth
  omega

end AlaskaType

end Alaska
