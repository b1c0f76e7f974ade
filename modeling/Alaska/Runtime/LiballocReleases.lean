import Alaska.Runtime.LiballocInvariant

/-!
# Releases of the internal allocator

`free` finds the minor of a pointer through the byte before the object, takes it out of its
major, and returns the major to the kernel with its last minor. `realloc` to a smaller size
only notes the new request.
-/

namespace Alaska

open Memory Intervals

namespace Liballoc

open LiballocMajor

theorem find_eq_some_of_unique {Item : Type*} {condition : Item → Bool} {items : List Item}
    {item : Item} (member : item ∈ items) (holds : condition item = true)
    (unique : ∀ other ∈ items, condition other = true → other = item) :
    items.find? condition = some item := by
  cases found : items.find? condition with
  | none => exact absurd holds (List.find?_eq_none.mp found item member)
  | some other =>
      rw [unique other (List.mem_of_find?_eq_some found) (List.find?_some found)]

variable {s t : Liballoc} {maj maj' other : LiballocMajor} {min min' : LiballocMinor}
  {before after majors : List LiballocMajor}

/-- The pointer of a minor leads back to the minor and to its major. -/
theorem Shape.findMinor_eq (shape : Shape s) (member : maj ∈ s.majors) (isIn : min ∈ maj.minors) :
    s.findMinor min.pointer = some (maj, min) := by
  have isMinor : min ∈ minorsOf s.majors := mem_minorsOf.mpr ⟨maj, member, isIn⟩
  have address : unalign s.bytes min.pointer - LiballocMinor.bytes = min.address := by
    rw [(shape.noted min isMinor).unalign_eq, Nat.add_sub_cancel]
  have unique : ∀ maj ∈ s.majors, ∀ min' ∈ maj.minors, (min'.address == min.address) = true →
      min' = min := by
    intro maj member min' isIn' same
    have isMinor' : min' ∈ minorsOf s.majors := mem_minorsOf.mpr ⟨maj, member, isIn'⟩
    exact shape.layout.eq_of_address_eq isMinor' isMinor (beq_iff_eq.mp same)
  have foundMajor : (s.majors.find? fun maj => maj.minors.any fun min' =>
      min'.address == min.address) = some maj := by
    refine find_eq_some_of_unique member ?_ fun other member' hasIt => ?_
    · exact List.any_eq_true.mpr ⟨min, isIn, beq_self_eq_true _⟩
    · rcases List.any_eq_true.mp hasIt with ⟨min', isIn', same⟩
      obtain rfl := unique other member' min' isIn' same
      exact shape.layout.major_eq member' isIn' member isIn
  have foundMinor : (maj.minors.find? fun min' => min'.address == min.address) = some min :=
    find_eq_some_of_unique isIn (beq_self_eq_true _) (unique maj member)
  rw [findMinor]
  simp only [address, foundMajor, foundMinor, Option.bind_some, Option.map_some]

/-- What a release does. -/
structure Released (s : Liballoc) (min : LiballocMinor) (t : Liballoc) : Prop where
  shape : Shape t
  minors : (minorsOf s.majors).Perm (min :: minorsOf t.majors)
  bytes_eq : t.bytes = s.bytes

theorem extent_without (maj : LiballocMajor) (min : LiballocMinor) :
    (maj.without min).extent = maj.extent := by
  rw [without, extent, extent]

theorem extent_withRequest (maj : LiballocMajor) (min : LiballocMinor) (reqSize : Nat) :
    (maj.withRequest min reqSize).extent = maj.extent := by
  rw [withRequest, extent, extent]

theorem ok_without (ok : maj.Ok) (isIn : min ∈ maj.minors) : (maj.without min).Ok := by
  have perm := List.perm_cons_erase isIn
  have total := @occupied_perm _ LiballocMinor.address endOf _ _ perm
  have bounds := ok.bounds
  have small := ok.small
  have header : LiballocMinor.bytes = 40 := rfl
  rw [occupied_cons, endOf_eq] at total
  have usage_eq := ok.usage_eq
  have usage : sub32 maj.usage (min.size + LiballocMinor.bytes) =
      LiballocMajor.bytes + occupied LiballocMinor.address endOf (maj.minors.erase min) := by
    rw [sub32_eq (by omega) (by omega)]
    omega
  refine ok.edit usage (ok.packed.sublist List.erase_sublist) fun other member => ?_
  exact ok.room other (List.mem_of_mem_erase member)

theorem ok_withRequest {reqSize : Nat} (ok : maj.Ok) (isIn : min ∈ maj.minors)
    (le : reqSize ≤ min.reqSize) : (maj.withRequest min reqSize).Ok := by
  rcases List.eq_append_cons_of_mem isIn with ⟨left, right, split, first⟩
  have replaced : maj.minors.replace min { min with reqSize := reqSize } =
      left ++ { min with reqSize := reqSize } :: right := by
    rw [split, List.replace_append_right first, List.replace_cons_self]
  have packed := ok.packed
  have usage_eq := ok.usage_eq
  have room := ok.room
  rw [split] at packed usage_eq room
  rw [occupied_perm List.perm_middle, occupied_cons] at usage_eq
  refine ok.edit ?_ ?_ ?_
  · rw [replaced, occupied_perm List.perm_middle, occupied_cons]
    exact usage_eq
  · rw [replaced]
    rcases Packed.append_iff.mp packed with ⟨middle, front, back⟩
    exact Packed.append_iff.mpr ⟨middle, front, back⟩
  · rw [replaced]
    intro other member
    rw [List.mem_append, List.mem_cons] at member
    rcases member with early | rfl | late
    · exact room other (List.mem_append_left _ early)
    · have := room min (by simp)
      dsimp only
      omega
    · exact room other (by simp [late])

/-- A best bet among the majors leads to one. -/
theorem betterBet_spec (bet : ∀ bet, s.bestBet = some bet → ∃ maj ∈ majors, maj.address = bet)
    (member : maj ∈ majors) : ∃ bestBet, betterBet majors maj s.bestBet = some bestBet ∧
      ∀ bet, bestBet = some bet → ∃ maj ∈ majors, maj.address = bet := by
  cases isBet : s.bestBet with
  | none => exact ⟨none, rfl, fun bet isNone => by cases isNone⟩
  | some old =>
      rcases bet old isBet with ⟨best, isBest, address⟩
      have found : (majors.find? fun maj => maj.address == old).isSome = true :=
        List.find?_isSome.mpr ⟨best, isBest, beq_iff_eq.mpr address⟩
      rcases Option.isSome_iff_exists.mp found with ⟨best', isFound⟩
      refine ⟨_, by rw [betterBet, isFound, Option.map_some], fun bet isBet' => ?_⟩
      split at isBet'
      · exact ⟨maj, member, Option.some.inj isBet'⟩
      · obtain rfl := Option.some.inj isBet'
        exact ⟨best, isBest, address⟩

/-- A minor is replaced by another one at its place, or taken out of its major. -/
theorem replace_eq (member : maj ∈ majors) (maj' : LiballocMajor) :
    ∃ before after, majors = before ++ maj :: after ∧
      majors.replace maj maj' = before ++ maj' :: after ∧ majors.erase maj = before ++ after := by
  rcases List.eq_append_cons_of_mem member with ⟨before, after, split, first⟩
  refine ⟨before, after, split, ?_, ?_⟩
  · rw [split, List.replace_append_right first, List.replace_cons_self]
  · rw [split, List.erase_append_right _ first, List.erase_cons_head]

/-- The release of the last minor of a major returns the major. -/
theorem Shape.release_last (shape : Shape s) (member : maj ∈ s.majors) (isIn : min ∈ maj.minors)
    (last : (maj.without min).minors = []) :
    ∃ t, s.release maj min = some t ∧ Released s min t := by
  rcases replace_eq member maj with ⟨before, after, split, _, erased⟩
  have layout := shape.layout
  rw [split] at layout
  have rest := layout.remove
  have only : maj.minors.Perm [min] := by
    have perm := List.perm_cons_erase isIn
    rwa [show maj.minors.erase min = [] from last] at perm
  have minors : (minorsOf s.majors).Perm (min :: minorsOf (before ++ after)) := by
    rw [split]
    exact (minorsOf_perm before after maj).trans (only.append_right _)
  rw [release, last]
  refine ⟨_, rfl, ⟨?_, ?_, fun other isMinor => ?_⟩, ?_, rfl⟩
  · change Layout (s.majors.erase maj)
    rwa [erased]
  · intro bet isBet
    change (if _ then _ else _) = some bet at isBet
    change ∃ maj' ∈ s.majors.erase maj, _
    split at isBet
    · cases isBet
    · next ne =>
        rcases shape.bet bet isBet with ⟨other, isMajor, address⟩
        refine ⟨other, (List.mem_erase_of_ne fun same => ne ?_).mpr isMajor, address⟩
        rw [isBet, ← address, same]
  · change other ∈ minorsOf (s.majors.erase maj) at isMinor
    rw [erased] at isMinor
    exact shape.noted other (minors.symm.subset (List.mem_cons_of_mem _ isMinor))
  · change (minorsOf s.majors).Perm (min :: minorsOf (s.majors.erase maj))
    rwa [erased]

/-- Any other release leaves the major with the other minors. -/
theorem Shape.release_more (shape : Shape s) (member : maj ∈ s.majors) (isIn : min ∈ maj.minors)
    (more : (maj.without min).minors ≠ []) :
    ∃ t, s.release maj min = some t ∧ Released s min t := by
  rcases replace_eq member (maj.without min) with ⟨before, after, split, edited, _⟩
  have layout := shape.layout
  rw [split] at layout
  have ok := ok_without (shape.layout.inUse maj member).1 isIn
  have layout' := layout.edit (extent_without maj min) ok more
  have same : (before ++ maj.without min :: after).map extent = s.majors.map extent := by
    rw [split, List.map_append, List.map_append, List.map_cons, List.map_cons, extent_without]
  have minors :
      (minorsOf s.majors).Perm (min :: minorsOf (before ++ maj.without min :: after)) := by
    have grown := (minorsOf_perm before after maj).trans
      ((List.perm_cons_erase isIn).append_right _)
    rw [split]
    exact grown.trans ((minorsOf_perm before after (maj.without min)).symm.cons min)
  have isRest : maj.without min ∈ before ++ maj.without min :: after := by simp
  have bet : ∀ bet, s.bestBet = some bet →
      ∃ maj' ∈ before ++ maj.without min :: after, maj'.address = bet := fun bet isBet =>
    (exists_address_congr same).mpr (shape.bet bet isBet)
  rcases betterBet_spec bet isRest with ⟨bestBet, isBetter, bet'⟩
  have nonempty : (maj.without min).minors.isEmpty = false := List.isEmpty_eq_false_iff.mpr more
  rw [release]
  simp only [nonempty, Bool.false_eq_true, if_false, edited, isBetter, Option.map_some]
  refine ⟨_, rfl, ⟨layout', bet', fun other isMinor => ?_⟩, minors, rfl⟩
  exact shape.noted other (minors.symm.subset (List.mem_cons_of_mem _ isMinor))

/-- A live pointer can be freed, and only its minor goes. -/
theorem Shape.free_spec (shape : Shape s) (isMinor : min ∈ minorsOf s.majors) :
    ∃ t, s.free min.pointer = some t ∧ Released s min t := by
  rcases mem_minorsOf.mp isMinor with ⟨maj, member, isIn⟩
  have positive : min.pointer ≠ 0 := by
    have := (pointer_spec (shape.layout.room isMinor)).2.1
    omega
  rw [free, if_neg positive, shape.findMinor_eq member isIn, Option.bind_some]
  by_cases last : (maj.without min).minors = []
  · exact shape.release_last member isIn last
  · exact shape.release_more member isIn last

/-- What `realloc` to a smaller size does. -/
structure Shrunk (s : Liballoc) (min : LiballocMinor) (size : Nat) (t : Liballoc) : Prop where
  shape : Shape t
  minors : ∃ rest, (minorsOf s.majors).Perm (min :: rest) ∧
    (minorsOf t.majors).Perm ({ min with reqSize := size } :: rest)
  bytes_eq : t.bytes = s.bytes

theorem pointer_with (min : LiballocMinor) (size : Nat) :
    { min with reqSize := size }.pointer = min.pointer := by
  rw [LiballocMinor.pointer, LiballocMinor.pointer]

theorem Noted.withRequest {mem : Bytes} (noted : Noted mem min) (size : Nat) :
    Noted mem { min with reqSize := size } := by
  unfold Noted at noted ⊢
  rwa [pointer_with]

theorem minors_withRequest {left right : List LiballocMinor} {size : Nat}
    (split : maj.minors = left ++ min :: right) (first : min ∉ left) :
    (maj.withRequest min size).minors = left ++ { min with reqSize := size } :: right := by
  rw [LiballocMajor.withRequest, split, List.replace_append_right first, List.replace_cons_self]

/-- A smaller request is noted in the minor, which stays where it is. -/
theorem Shape.shrink_spec {size : Nat} (shape : Shape s) (member : maj ∈ s.majors)
    (isIn : min ∈ maj.minors) (le : size ≤ min.reqSize) (small : size < 2 ^ 32) :
    Shrunk s min size (s.shrink maj min size) := by
  rcases List.eq_append_cons_of_mem isIn with ⟨left, right, splitMinors, first⟩
  have edited : (maj.withRequest min size).minors = _ := minors_withRequest splitMinors first
  rcases replace_eq member (maj.withRequest min size) with ⟨before, after, split, replaced, _⟩
  have majors_eq :
      (s.shrink maj min size).majors = before ++ maj.withRequest min size :: after := by
    rw [shrink, Nat.mod_eq_of_lt small, replaced]
  have bytes_eq : (s.shrink maj min size).bytes = s.bytes := by rw [shrink]
  have bestBet_eq : (s.shrink maj min size).bestBet = s.bestBet := by rw [shrink]
  have ok := ok_withRequest (shape.layout.inUse maj member).1 isIn le
  have layout := shape.layout
  rw [split] at layout
  have layout' := layout.edit (extent_withRequest maj min size) ok (by simp [edited])
  have same : (before ++ maj.withRequest min size :: after).map extent = s.majors.map extent := by
    rw [split, List.map_append, List.map_append, List.map_cons, List.map_cons,
      extent_withRequest]
  have arrange : ∀ other : LiballocMinor,
      (left ++ other :: right ++ minorsOf (before ++ after)).Perm
        (other :: (left ++ right ++ minorsOf (before ++ after))) := fun other =>
    List.perm_middle.append_right _
  have old : (minorsOf s.majors).Perm (min :: (left ++ right ++ minorsOf (before ++ after))) := by
    have perm := minorsOf_perm before after maj
    rw [splitMinors] at perm
    rw [split]
    exact perm.trans (arrange min)
  have new : (minorsOf (before ++ maj.withRequest min size :: after)).Perm
      ({ min with reqSize := size } :: (left ++ right ++ minorsOf (before ++ after))) := by
    have perm := minorsOf_perm before after (maj.withRequest min size)
    rw [edited] at perm
    exact perm.trans (arrange _)
  rw [← majors_eq] at layout' same new
  refine ⟨⟨layout', fun bet isBet => ?_, fun other isMinor => ?_⟩, ⟨_, old, new⟩, bytes_eq⟩
  · rw [bestBet_eq] at isBet
    exact (exists_address_congr same).mpr (shape.bet bet isBet)
  · rw [bytes_eq]
    rcases List.mem_cons.mp (new.subset isMinor) with rfl | kept
    · exact (shape.noted min (old.symm.subset List.mem_cons_self)).withRequest size
    · exact shape.noted other (old.symm.subset (List.mem_cons_of_mem _ kept))

end Liballoc

end Alaska
