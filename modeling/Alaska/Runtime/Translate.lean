import Alaska.Runtime.Mapping

/-!
# Translation

`translate.cpp`: the instrumentation turns a handle into an address by loading the word of
its mapping and adding the offset. The offset field has `sizeBits` bits, while
`from_handle` undoes the two shifts of `to_handle` with a single one, so the upper
`squeezeBits` bits of the offset end in the address of the mapping.
-/

namespace Alaska

namespace Mapping

/-- `APPLY_OFFSET`. -/
def applyOffset (mapped bits : Nat) : Nat := (mapped + bits % 2 ^ sizeBits) % 2 ^ 64

/-- `alaska_translate_uncond`. -/
def alaskaTranslateUncond (mappings : Mappings) (ptr : Nat) : Nat :=
  applyOffset (mappings (fromHandle ptr)).getPointerFast ptr

/--
`alaska_translate`: before it applies the offset it loads a byte through the word of the
mapping, and does not return where that load faults. The addresses that can be loaded from
are `readable`.
-/
def alaskaTranslate (readable : Nat → Bool) (mappings : Mappings) (ptr : Nat) : Option Nat :=
  if ptr < 2 ^ 63 ∨ ptr = 2 ^ 64 - 1 then some ptr
  else if readable (mappings (fromHandle ptr)).getPointerFast then
    some (alaskaTranslateUncond mappings ptr)
  else none

/-- What the encoding is for: the handle names the mapping, and translates to its object. -/
structure RoundTrip (readable : Nat → Bool) (mappings : Mappings) (mapping offset : Nat) :
    Prop where
  fromHandle : fromHandle (toHandle mapping offset) = mapping
  fromHandleSafe : fromHandleSafe (toHandle mapping offset) = some mapping
  translate : alaskaTranslate readable mappings (toHandle mapping offset) =
    some ((mappings mapping).getPointer + offset)

variable {readable : Nat → Bool} {mappings : Mappings} {mapping offset : Nat}

/-- The mapping a handle decodes to, with the upper bits of the offset in it. -/
theorem fromHandle_toHandle_eq (inTable : InTable mapping) (small : offset < 2 ^ 24) :
    Mapping.fromHandle (toHandle mapping offset) = mapping + offset / 2 ^ 21 := by
  rw [toHandle_eq inTable small]
  simp only [Mapping.fromHandle, squeezeBits, sizeBits]
  omega

/-- The fast path uses the raw word: a set flag bit moves the result. -/
theorem getPointerFast_eq_iff {m : Mapping} :
    m.getPointerFast = m.getPointer ↔ m.pinned = false ∧ m.invl = false ∧ m.swap = false := by
  constructor
  · intro equal
    simp only [getPointerFast, getPointer, ptr] at equal
    have clear : m.pinned.toNat = 0 ∧ m.invl.toNat = 0 ∧ m.swap.toNat = 0 := by omega
    simpa only [Bool.toNat_eq_zero] using clear
  · rintro ⟨pinned, invl, swap⟩
    exact ptr_eq_getPointer pinned invl swap

theorem applyOffset_toHandle (inTable : InTable mapping) (small : offset < 2 ^ 24) (mapped : Nat) :
    applyOffset mapped (toHandle mapping offset) = (mapped + offset) % 2 ^ 64 := by
  rw [toHandle_eq inTable small]
  rcases inTable with ⟨_, _, aligned⟩
  simp only [applyOffset, sizeBits]
  omega

/-- A handle whose offset leaves the upper bits clear is no reserved value. -/
theorem alaskaTranslate_toHandle (inTable : InTable mapping) (small : offset < 2 ^ 21) :
    alaskaTranslate readable mappings (toHandle mapping offset) =
      if readable (mappings mapping).getPointerFast then
        some (((mappings mapping).getPointerFast + offset) % 2 ^ 64)
      else none := by
  have handle := toHandle_eq inTable (show offset < 2 ^ 24 by omega)
  have decoded := Mapping.fromHandle_toHandle inTable small
  have offsetOnly := applyOffset_toHandle inTable (show offset < 2 ^ 24 by omega)
    (mappings mapping).getPointerFast
  rcases inTable with ⟨lower, upper, aligned⟩
  rw [alaskaTranslate, if_neg (by rw [handle]; omega), alaskaTranslateUncond, decoded, offsetOnly]

/-- The translation gives the object when the word has no flags and can be loaded from. -/
theorem alaskaTranslate_eq_iff (inTable : InTable mapping) (small : offset < 2 ^ 21) :
    alaskaTranslate readable mappings (toHandle mapping offset) =
        some ((mappings mapping).getPointer + offset) ↔
      (mappings mapping).getPointerFast = (mappings mapping).getPointer ∧
        readable (mappings mapping).getPointer = true := by
  rw [alaskaTranslate_toHandle inTable small]
  have fast := ptr_lt (mappings mapping)
  have pointer := (mappings mapping).misc_lt
  constructor
  · intro translated
    obtain ⟨loaded, address⟩ := Option.ite_none_right_eq_some.mp translated
    have word : (mappings mapping).getPointerFast = (mappings mapping).getPointer := by
      simp only [getPointerFast, getPointer, ptr, Option.some.injEq] at address fast ⊢
      omega
    exact ⟨word, word ▸ loaded⟩
  · rintro ⟨word, loaded⟩
    rw [word, if_pos loaded, Nat.mod_eq_of_lt (by simp only [getPointer]; omega)]

/--
The encoding round trips exactly for offsets of 21 bits, and the translation is right when
moreover no flag bit of the mapping is set and the object can be read.
-/
theorem roundTrip_iff (inTable : InTable mapping) (small : offset < 2 ^ 24) :
    RoundTrip readable mappings mapping offset ↔ offset < 2 ^ 21 ∧
      ((mappings mapping).pinned = false ∧ (mappings mapping).invl = false ∧
        (mappings mapping).swap = false) ∧
      readable (mappings mapping).getPointer = true := by
  rw [← getPointerFast_eq_iff]
  constructor
  · intro roundTrip
    have decoded := roundTrip.fromHandle
    rw [fromHandle_toHandle_eq inTable small] at decoded
    have narrow : offset < 2 ^ 21 := by omega
    exact ⟨narrow, (alaskaTranslate_eq_iff inTable narrow).mp roundTrip.translate⟩
  · rintro ⟨narrow, loads⟩
    have decoded := Mapping.fromHandle_toHandle inTable narrow
    refine ⟨decoded, ?_, (alaskaTranslate_eq_iff inTable narrow).mpr loads⟩
    rw [Mapping.fromHandleSafe, isHandle_toHandle inTable small, if_pos rfl, decoded]

/-- The addresses that a user program may have mapped: the lower half of the canonical ones. -/
def lowerHalf (address : Nat) : Bool := address < 2 ^ 47

/-- The first mapping with a backing address, and an offset of a megabyte. -/
theorem roundTrip_iff_megabyte :
    InTable (2 ^ 42) ∧ (2 ^ 20 : Nat) < 2 ^ 24 ∧
      RoundTrip lowerHalf (fun _ => ofPtr 4096) (2 ^ 42) (2 ^ 20) :=
  have inTable : InTable (2 ^ 42) := ⟨by decide, by decide, by decide⟩
  ⟨inTable, by decide, (roundTrip_iff inTable (by decide)).mpr
    ⟨by decide, ⟨by decide, by decide, by decide⟩, by decide⟩⟩

/-- An offset of two megabytes decodes to an address inside the mapping. -/
theorem not_roundTrip_twoMegabytes :
    InTable (2 ^ 42) ∧ (2 ^ 21 : Nat) < 2 ^ sizeBits ∧
      Mapping.fromHandle (toHandle (2 ^ 42) (2 ^ 21)) = 2 ^ 42 + 1 ∧
      ¬ RoundTrip lowerHalf (fun _ => ofPtr 4096) (2 ^ 42) (2 ^ 21) := by
  have decoded : Mapping.fromHandle (toHandle (2 ^ 42) (2 ^ 21)) = 2 ^ 42 + 1 := by decide
  refine ⟨⟨by decide, by decide, by decide⟩, by decide, decoded, fun roundTrip => ?_⟩
  have back := roundTrip.fromHandle
  rw [decoded] at back
  exact absurd back (by decide)

end Mapping

end Alaska
