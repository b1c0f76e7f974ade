import Alaska.Lib.Holes
import Alaska.Runtime.LocalityPageCompaction

/-!
# What a compaction of a locality page keeps

A page is a list of records. One pass keeps the records of the objects and their order, and
every slide takes one pair of a free record and a later object away; the pruning drops free
records at the end of the list. `Valid` is the representation invariant, and `Compacted` says
what happens to the objects, in one pass or in several.
-/

namespace Alaska

open Memory Loop Holes

namespace LocalityPage

/-- The mapping and the size of every object of the page, in the order of their addresses. -/
def objects (p : LocalityPage) : List (Nat × Nat) :=
  p.records.filterMap fun md => if md.allocated then some (md.word, md.size) else none

/-- The pairs of a free record and a later object. -/
def holes (p : LocalityPage) : Nat := inversions Metadata.allocated p.records

/-- The representation invariant, with the mappings. -/
structure Valid (p : LocalityPage) (mappings : Mappings) : Prop where
  intact : p.Intact
  backed : p.Backed mappings

/--
The objects of page `p` were moved within the page, in the same order, by `moved` slides:
they take their bytes along and their mappings follow them, unless they are pinned.
-/
structure Compacted (p : LocalityPage) (s : Store) (p' : LocalityPage) (s' : Store)
    (moved : Nat) : Prop where
  data : p'.data = p.data
  bump : p'.dataBumpNext ≤ p.dataBumpNext
  objects : p'.objects = p.objects
  holes : p'.holes + moved = p.holes
  bytes : ∀ object ∈ p.objects, ∀ offset < object.2,
    s'.bytes ((s'.mappings object.1).getPointer + offset) =
      s.bytes ((s.mappings object.1).getPointer + offset)
  pins : ∀ m, (s'.mappings m).isPinned = (s.mappings m).isPinned
  pinned : ∀ m, (s.mappings m).isPinned = true → s'.mappings m = s.mappings m
  cleared : ∀ m, (s'.mappings m).isFree = (s.mappings m).isFree ∨
    (s'.mappings m).isFree = false
  otherWords : ∀ m, (∀ object ∈ p.objects, object.1 ≠ m) → s'.mappings m = s.mappings m
  otherBytes : ∀ address, address < p.data ∨ p.dataBumpNext ≤ address →
    s'.bytes address = s.bytes address

theorem Compacted.refl (p : LocalityPage) (s : Store) : Compacted p s p s 0 where
  data := rfl
  bump := Nat.le_refl _
  objects := rfl
  holes := rfl
  bytes := fun _ _ _ _ => rfl
  pins := fun _ => rfl
  pinned := fun _ _ => rfl
  cleared := fun _ => Or.inl rfl
  otherWords := fun _ _ => rfl
  otherBytes := fun _ _ => rfl

theorem Compacted.trans {p p' p'' : LocalityPage} {s s' s'' : Store} {moved moved' : Nat}
    (first : Compacted p s p' s' moved) (second : Compacted p' s' p'' s'' moved') :
    Compacted p s p'' s'' (moved + moved') := by
  have objects := first.objects
  have data := first.data
  have bump := first.bump
  constructor
  · exact second.data.trans data
  · exact second.bump.trans bump
  · exact second.objects.trans objects
  · have := first.holes
    have := second.holes
    omega
  · intro object member offset lt
    rw [second.bytes object (by rwa [objects]) offset lt, first.bytes object member offset lt]
  · intro m
    rw [second.pins, first.pins]
  · intro m pinned
    rw [second.pinned m (by rwa [first.pins]), first.pinned m pinned]
  · intro m
    rcases second.cleared m with same | cleared
    · rw [same]
      exact first.cleared m
    · exact Or.inr cleared
  · intro m unnamed
    rw [second.otherWords m (by rwa [objects]), first.otherWords m unnamed]
  · intro address outside
    rw [second.otherBytes address (by omega), first.otherBytes address outside]

section Slide

variable {p : LocalityPage} {c : Sliding} {index other : Nat}

theorem mem_objects {object : Nat × Nat} :
    object ∈ p.objects ↔ ∃ index, p.named index = some object.1 ∧
      (p.metadata index).size = object.2 := by
  simp only [objects, records, List.mem_filterMap, List.mem_map, List.mem_range]
  constructor
  · rintro ⟨_, ⟨index, lt, rfl⟩, equal⟩
    split at equal
    · next live =>
        cases equal
        exact ⟨index, named_eq_some.mpr ⟨lt, live, rfl⟩, rfl⟩
    · exact absurd equal (by simp)
  · rintro ⟨index, named, size⟩
    rcases named_eq_some.mp named with ⟨lt, live, word⟩
    refine ⟨_, ⟨index, lt, rfl⟩, ?_⟩
    rw [if_pos live, word, size]

theorem records_split {rest : Nat} (count : p.numAllocated = index + (2 + rest)) :
    p.records = (List.range index).map p.metadata ++ p.metadata index ::
      p.metadata (index + 1) ::
        (List.range rest).map fun offset => p.metadata (index + (2 + offset)) := by
  have two : List.range 2 = [0, 1] := rfl
  simp [records, count, List.range_add, two, Nat.add_assoc]

/-- A slide exchanges two neighbouring records. -/
theorem records_slid (lt : c.index + 1 < c.page.numAllocated) : ∃ before after,
    c.page.records = before ++ c.page.metadata c.index ::
      c.page.metadata (c.index + 1) :: after ∧
    c.slid.page.records = before ++ c.slid.page.metadata c.index ::
      c.slid.page.metadata (c.index + 1) :: after := by
  obtain ⟨rest, count⟩ : ∃ rest, c.page.numAllocated = c.index + (2 + rest) :=
    ⟨c.page.numAllocated - c.index - 2, by omega⟩
  refine ⟨_, _, records_split count, ?_⟩
  rw [records_split (p := c.slid.page) count]
  have before : (List.range c.index).map c.slid.page.metadata =
      (List.range c.index).map c.page.metadata := by
    apply List.map_congr_left
    intro other member
    rw [List.mem_range] at member
    exact slid_of_ne (by omega) (by omega)
  have after : ((List.range rest).map fun offset =>
      c.slid.page.metadata (c.index + (2 + offset))) =
      (List.range rest).map fun offset => c.page.metadata (c.index + (2 + offset)) := by
    apply List.map_congr_left
    intro other member
    exact slid_of_ne (by omega) (by omega)
  rw [before, after]

theorem slid_objects (lt : c.index + 1 < c.page.numAllocated)
    (movable : c.page.Movable c.store c.index) : c.slid.page.objects = c.page.objects := by
  rcases records_slid lt with ⟨before, after, was, is⟩
  simp [objects, was, is, slid_left, slid_right, movable.1, movable.2.1]

theorem slid_freeBytes (lt : c.index + 1 < c.page.numAllocated)
    (movable : c.page.Movable c.store c.index) : c.slid.page.freeBytes = c.page.freeBytes := by
  rcases records_slid lt with ⟨before, after, was, is⟩
  simp [freeBytes, was, is, slid_left, slid_right, movable.1, movable.2.1]

theorem slid_holes (lt : c.index + 1 < c.page.numAllocated)
    (movable : c.page.Movable c.store c.index) :
    c.slid.page.holes + 1 = c.page.holes := by
  rcases records_slid lt with ⟨before, after, was, is⟩
  rw [holes, holes, was, is]
  apply inversions_swap movable.1 movable.2.1
  · rw [slid_left]
  · rw [slid_right]

theorem slid_start_le (le : other ≤ c.index) : c.slid.page.start other = c.page.start other := by
  refine start_congr rfl fun earlier lt => ?_
  rw [slid_of_ne (by omega) (by omega)]

theorem slid_start_succ (c : Sliding) :
    c.slid.page.start (c.index + 1) =
      c.page.start c.index + (c.page.metadata (c.index + 1)).size := by
  rw [start, slid_start_le (Nat.le_refl _), slid_left]

theorem slid_start_of_gt (gt : c.index + 1 < other) :
    c.slid.page.start other = c.page.start other := by
  induction other, gt using Nat.le_induction with
  | base =>
      rw [start, slid_start_succ, slid_right]
      simp only [start]
      omega
  | succ other gt ih =>
      rw [start, ih, slid_of_ne (by omega) (by omega), start]

theorem slid_named_left (lt : c.index + 1 < c.page.numAllocated) :
    c.slid.page.named c.index = some (c.page.metadata (c.index + 1)).word := by
  rw [named_eq_some, slid_left]
  exact ⟨Nat.lt_of_succ_lt lt, rfl, rfl⟩

theorem slid_named_right (c : Sliding) : c.slid.page.named (c.index + 1) = none := by
  simp [named, slid_right]

theorem slid_named_of_ne (left : other ≠ c.index) (right : other ≠ c.index + 1) :
    c.slid.page.named other = c.page.named other := by
  simp only [named, slid_of_ne left right]
  rfl

theorem Movable.named (movable : c.page.Movable c.store c.index)
    (lt : c.index + 1 < c.page.numAllocated) :
    c.page.named (c.index + 1) = some (c.page.metadata (c.index + 1)).word :=
  named_eq_some.mpr ⟨lt, movable.2.1, rfl⟩

/-- The word of the mapping that moves, and of every other. -/
theorem Valid.slid_mappings (valid : c.page.Valid c.store.mappings)
    (lt : c.index + 1 < c.page.numAllocated) :
    c.slid.store.mappings = Function.update c.store.mappings (c.page.metadata (c.index + 1)).word
      ((c.store.mappings (c.page.metadata (c.index + 1)).word).setPointer
        (c.page.start c.index)) := by
  rw [← valid.intact.getPtr_eq valid.backed (Nat.lt_of_succ_lt lt)]
  rfl

theorem Valid.slid_bytes (valid : c.page.Valid c.store.mappings)
    (lt : c.index + 1 < c.page.numAllocated) :
    c.slid.store.bytes = c.store.bytes.memmove (c.page.start c.index)
      (c.page.start (c.index + 1)) (c.page.metadata (c.index + 1)).size := by
  rw [← valid.intact.getPtr_eq valid.backed (Nat.lt_of_succ_lt lt),
    ← valid.intact.getPtr_eq valid.backed lt]
  rfl

theorem Intact.slid (intact : c.page.Intact) (backed : c.page.Backed c.store.mappings)
    (lt : c.index + 1 < c.page.numAllocated) (movable : c.page.Movable c.store c.index) :
    c.slid.page.Intact := by
  have left_lt := Nat.lt_of_succ_lt lt
  constructor
  · exact intact.memory
  · show c.page.dataBumpNext = c.slid.page.start c.page.numAllocated
    rw [slid_start_of_gt lt]
    exact intact.bump
  · exact intact.space
  · intro other other_lt
    by_cases left : other = c.index
    · rw [left, slid_left]
      exact intact.sizes _ lt
    · by_cases right : other = c.index + 1
      · rw [right, slid_right]
        exact intact.sizes _ left_lt
      · rw [slid_of_ne left right]
        exact intact.sizes other other_lt
  · intro other other_lt
    by_cases left : other = c.index
    · rw [left, slid_left]
      exact intact.aligned _ lt
    · by_cases right : other = c.index + 1
      · rw [right, slid_right]
        exact intact.aligned _ left_lt
      · rw [slid_of_ne left right]
        exact intact.aligned other other_lt
  · intro other other_lt free
    by_cases left : other = c.index
    · rw [left, slid_left] at free
      simp at free
    · by_cases right : other = c.index + 1
      · rw [right, slid_start_succ, slid_right, ← intact.getPtr_eq backed left_lt]
        rfl
      · rw [slid_of_ne left right] at free ⊢
        rw [intact.freed other other_lt free]
        by_cases le : other ≤ c.index
        · rw [slid_start_le le]
        · rw [slid_start_of_gt (by omega)]
  · rw [slid_freeBytes lt movable]
    exact intact.accounted

/-- The mapping of another object is another mapping. -/
theorem Valid.word_ne {m : Nat} (valid : c.page.Valid c.store.mappings)
    (lt : c.index + 1 < c.page.numAllocated) (movable : c.page.Movable c.store c.index)
    (right : other ≠ c.index + 1) (named : c.page.named other = some m) :
    m ≠ (c.page.metadata (c.index + 1)).word := by
  rintro rfl
  have here := valid.backed _ _ (movable.named lt)
  have there := valid.backed _ _ named
  exact right (valid.intact.start_injective (named_eq_some.mp named).1 lt
    (there.symm.trans here))

theorem Movable.left_ne {m : Nat} (movable : c.page.Movable c.store c.index)
    (named : c.page.named other = some m) : other ≠ c.index := by
  rintro rfl
  have live := (named_eq_some.mp named).2.1
  rw [movable.1] at live
  exact Bool.noConfusion live

/-- The object that moves starts where the free record was. -/
theorem Valid.slid_getPointer (valid : c.page.Valid c.store.mappings)
    (lt : c.index + 1 < c.page.numAllocated) :
    (c.slid.store.mappings (c.page.metadata (c.index + 1)).word).getPointer =
      c.page.start c.index := by
  have inside := valid.intact.inside (Nat.lt_of_succ_lt lt)
  have below := valid.intact.memory.below
  rw [valid.slid_mappings lt, Function.update_self]
  apply Mapping.getPointer_setPointer
  omega

theorem Valid.slid_backed (valid : c.page.Valid c.store.mappings)
    (lt : c.index + 1 < c.page.numAllocated) (movable : c.page.Movable c.store c.index) :
    c.slid.page.Backed c.slid.store.mappings := by
  intro other m named
  by_cases left : other = c.index
  · rw [left, slid_named_left lt, Option.some.injEq] at named
    rw [left, slid_start_le (Nat.le_refl _), ← named]
    exact valid.slid_getPointer lt
  · by_cases right : other = c.index + 1
    · rw [right, slid_named_right] at named
      exact absurd named (by simp)
    · rw [slid_named_of_ne left right] at named
      rw [valid.slid_mappings lt, Function.update_of_ne (valid.word_ne lt movable right named),
        valid.backed other m named]
      by_cases le : other ≤ c.index
      · rw [slid_start_le le]
      · rw [slid_start_of_gt (by omega)]

theorem Valid.slid (valid : c.page.Valid c.store.mappings)
    (lt : c.index + 1 < c.page.numAllocated) (movable : c.page.Movable c.store c.index) :
    c.slid.page.Valid c.slid.store.mappings where
  intact := valid.intact.slid valid.backed lt movable
  backed := valid.slid_backed lt movable

/-- On a valid page no assertion of a slide fails. -/
theorem Valid.asserts (valid : c.page.Valid c.store.mappings)
    (lt : c.index + 1 < c.page.numAllocated) (movable : c.page.Movable c.store c.index) :
    c.Asserts := by
  have left_lt := Nat.lt_of_succ_lt lt
  have left : (c.page.metadata c.index).getData c.store.mappings = c.page.start c.index :=
    valid.intact.getPtr_eq valid.backed left_lt
  have right : (c.page.metadata (c.index + 1)).getData c.store.mappings =
      c.page.start (c.index + 1) := valid.intact.getPtr_eq valid.backed lt
  have word := valid.intact.freed c.index left_lt movable.1
  have inside := valid.intact.inside left_lt
  have inside' := valid.intact.inside lt
  have size := (valid.intact.sizes c.index left_lt).1
  have size' := (valid.intact.sizes (c.index + 1) lt).1
  have below := valid.intact.memory.below
  have pointer : ((c.store.mappings (c.page.metadata (c.index + 1)).word).setPointer
      (c.page.start c.index)).getPointer = c.page.start c.index :=
    Mapping.getPointer_setPointer (by omega)
  simp only [Sliding.Asserts, slideAsserts, contains, left, right, word, pointer, Bool.and_eq_true,
    decide_eq_true_eq, and_true]
  refine ⟨⟨fun same => ?_, ?_⟩, ?_⟩
  · simp only [start, same]
  · omega
  · omega

/-- The bytes of every object are where its mapping points after a slide. -/
theorem Valid.slid_object {object : Nat × Nat} {offset : Nat}
    (valid : c.page.Valid c.store.mappings) (lt : c.index + 1 < c.page.numAllocated)
    (movable : c.page.Movable c.store c.index) (member : object ∈ c.page.objects)
    (small : offset < object.2) :
    c.slid.store.bytes ((c.slid.store.mappings object.1).getPointer + offset) =
      c.store.bytes ((c.store.mappings object.1).getPointer + offset) := by
  rcases mem_objects.mp member with ⟨other, named, size⟩
  rw [valid.slid_bytes lt, valid.backed other _ named]
  by_cases right : other = c.index + 1
  · subst right
    have word := (movable.named lt).symm.trans named
    rw [Option.some.injEq] at word
    rw [← word, valid.slid_getPointer lt, Bytes.memmove_inside (by omega) (by omega)]
    congr 1
    omega
  · have left := movable.left_ne named
    rw [valid.slid_mappings lt, Function.update_of_ne (valid.word_ne lt movable right named),
      valid.backed other _ named]
    apply Bytes.memmove_outside
    rcases Nat.lt_or_gt_of_ne left with before | after
    · have := Intact.start_lt c.page before
      omega
    · have := Intact.start_lt c.page (show c.index + 1 < other by omega)
      simp only [start] at this
      omega

theorem Valid.slid_compacted (valid : c.page.Valid c.store.mappings)
    (lt : c.index + 1 < c.page.numAllocated) (movable : c.page.Movable c.store c.index) :
    Compacted c.page c.store c.slid.page c.slid.store 1 := by
  have inside := valid.intact.inside (Nat.lt_of_succ_lt lt)
  have below := valid.intact.memory.below
  have word := valid.slid_mappings lt
  constructor
  · rfl
  · exact Nat.le_refl _
  · exact slid_objects lt movable
  · exact slid_holes lt movable
  · intro object member offset small
    exact valid.slid_object lt movable member small
  · intro m
    by_cases moves : m = (c.page.metadata (c.index + 1)).word
    · rw [moves, word, Function.update_self, movable.2.2]
      apply Mapping.isPinned_setPointer
      omega
    · rw [word, Function.update_of_ne moves]
  · intro m pinned
    rw [word, Function.update_of_ne]
    rintro rfl
    rw [movable.2.2] at pinned
    exact Bool.noConfusion pinned
  · intro m
    by_cases moves : m = (c.page.metadata (c.index + 1)).word
    · rw [moves, word, Function.update_self]
      exact Or.inr rfl
    · rw [word, Function.update_of_ne moves]
      exact Or.inl rfl
  · intro m unnamed
    rw [word, Function.update_of_ne]
    rintro rfl
    exact unnamed ((c.page.metadata (c.index + 1)).word, _)
      (mem_objects.mpr ⟨_, movable.named lt, rfl⟩) rfl
  · intro address outside
    rw [valid.slid_bytes lt]
    apply Bytes.memmove_outside
    have right := valid.intact.inside lt
    simp only [start] at right
    omega

end Slide

section Pass

variable {p p' : LocalityPage} {s : Store}

/-- The state of the scan; when nothing has moved yet, nothing before its index could. -/
structure Scanned (p : LocalityPage) (s : Store) (c : Sliding) : Prop where
  valid : c.page.Valid c.store.mappings
  live : c.page.HasLive ↔ p.HasLive
  compacted : Compacted p s c.page c.store c.moved
  unmoved : c.moved = 0 → c.page = p ∧ c.store = s ∧
    ∀ index < c.index, ¬ p.Movable s index

theorem Valid.scan (valid : p.Valid s.mappings) : ∃ c, p.scan s = some c ∧ Scanned p s c ∧
    c.page.numAllocated = p.numAllocated ∧ c.page.numAllocated ≤ c.index + 1 := by
  apply scan_ends
  · exact ⟨valid, Iff.rfl, Compacted.refl p s, fun _ => ⟨rfl, rfl, by simp⟩⟩
  · intro c scanned lt movable
    rcases slid_hasLive lt movable with ⟨after, before⟩
    refine ⟨scanned.valid.asserts lt movable, scanned.valid.slid lt movable,
      iff_of_true after (scanned.live.mp before),
      scanned.compacted.trans (scanned.valid.slid_compacted lt movable), fun none => ?_⟩
    exact absurd none (Nat.succ_ne_zero _)
  · intro c scanned lt stays
    refine ⟨scanned.valid, scanned.live, scanned.compacted, fun none => ?_⟩
    rcases scanned.unmoved none with ⟨page, store, before⟩
    refine ⟨page, store, fun index index_lt => ?_⟩
    rcases Nat.lt_succ_iff_lt_or_eq.mp index_lt with earlier | rfl
    · exact before index earlier
    · rwa [page, store] at stays

/-- Page `p'` is page `p` without the free records behind its last object. -/
structure Pruned (p p' : LocalityPage) : Prop where
  data : p'.data = p.data
  metadata : p'.metadata = p.metadata
  count : p'.numAllocated ≤ p.numAllocated
  last : ∃ last, p'.numAllocated = last + 1 ∧ (p.metadata last).allocated = true
  dropped : ∃ rest, p.records = p'.records ++ rest ∧ ∀ md ∈ rest, md.allocated = false
  accounted : p.bytesFreed = p.freeBytes → p'.bytesFreed = p'.freeBytes

/-- The page after one iteration of the prune loop. -/
def dropLast (p : LocalityPage) (count : Nat) : LocalityPage :=
  { p with
    numAllocated := count
    bytesFreed := p.bytesFreed - (p.metadata count).size }

theorem records_dropLast {count : Nat} (all : p.numAllocated = count + 1) :
    p.records = (p.dropLast count).records ++ [p.metadata count] := by
  simp [records, all, List.range_succ, dropLast]

theorem freeBytes_dropLast {count : Nat} (all : p.numAllocated = count + 1)
    (free : (p.metadata count).allocated = false) :
    p.freeBytes = (p.dropLast count).freeBytes + (p.metadata count).size := by
  simp [freeBytes, records_dropLast all, free]

theorem prune_spec {count : Nat} (all : p.numAllocated = count) (live : p.HasLive) :
    ∃ p', prune count p = some p' ∧ Pruned p p' ∧ p'.dataBumpNext = p.dataBumpNext := by
  induction count generalizing p with
  | zero =>
      rcases live with ⟨index, lt, _⟩
      omega
  | succ count ih =>
      rw [prune]
      split
      · next last =>
          exact ⟨p, rfl, ⟨rfl, rfl, Nat.le_refl _, ⟨count, all, last⟩, ⟨[], by simp, by simp⟩, id⟩,
            rfl⟩
      · next notLive =>
          have free : (p.metadata count).allocated = false := by simpa using notLive
          have live' : (p.dropLast count).HasLive := by
            rcases live with ⟨index, lt, allocated⟩
            refine ⟨index, ?_, allocated⟩
            rw [all] at lt
            rcases Nat.lt_succ_iff_lt_or_eq.mp lt with before | rfl
            · exact before
            · exact absurd allocated notLive
          rcases ih (p := p.dropLast count) rfl live' with ⟨p', result, pruned, bump⟩
          refine ⟨p', result, ⟨pruned.data, pruned.metadata, ?_, pruned.last, ?_, ?_⟩, bump⟩
          · have := pruned.count
            simp only [dropLast] at this
            omega
          · rcases pruned.dropped with ⟨rest, split, holes⟩
            refine ⟨rest ++ [p.metadata count], ?_, ?_⟩
            · rw [records_dropLast all, split, List.append_assoc]
            · intro md member
              rw [List.mem_append, List.mem_singleton] at member
              rcases member with old | rfl
              · exact holes md old
              · exact free
          · intro accounted
            apply pruned.accounted
            have := freeBytes_dropLast all free
            show p.bytesFreed - (p.metadata count).size = _
            omega

namespace Pruned

theorem objects (pruned : Pruned p p') : p'.objects = p.objects := by
  rcases pruned.dropped with ⟨rest, split, holes⟩
  have none : rest.filterMap (fun md : Metadata =>
      if md.allocated then some (md.word, md.size) else none) = [] := by
    rw [List.filterMap_eq_nil_iff]
    intro md member
    simp [holes md member]
  simp only [LocalityPage.objects, split, List.filterMap_append, none, List.append_nil]

theorem holes (pruned : Pruned p p') : p'.holes = p.holes := by
  rcases pruned.dropped with ⟨rest, split, holes⟩
  rw [LocalityPage.holes, LocalityPage.holes, split, inversions_append_holes holes]

theorem start (pruned : Pruned p p') (index : Nat) : p'.start index = p.start index :=
  start_congr pruned.data fun other _ => by rw [pruned.metadata]

theorem start_le (pruned : Pruned p p') :
    p'.start p'.numAllocated ≤ p.start p.numAllocated := by
  rw [pruned.start]
  rcases Nat.lt_or_eq_of_le pruned.count with lt | equal
  · have := Intact.start_lt p lt
    omega
  · rw [equal]

theorem valid {mappings : Mappings} (pruned : Pruned p p') (valid : p.Valid mappings)
    (bump : p'.dataBumpNext = p'.start p'.numAllocated) : p'.Valid mappings := by
  have count := pruned.count
  have intact := valid.intact
  have before : p'.dataBumpNext ≤ p.dataBumpNext := by
    rw [bump, intact.bump]
    exact pruned.start_le
  refine ⟨⟨?_, bump, ?_, ?_, ?_, ?_, pruned.accounted intact.accounted⟩, ?_⟩
  · rw [pruned.data]
    exact intact.memory
  · have space := intact.space
    rw [pruned.data]
    simp only [Metadata.bytes] at *
    omega
  · intro index lt
    rw [pruned.metadata]
    exact intact.sizes index (Nat.lt_of_lt_of_le lt count)
  · intro index lt
    rw [pruned.metadata]
    exact intact.aligned index (Nat.lt_of_lt_of_le lt count)
  · intro index lt free
    rw [pruned.metadata] at free ⊢
    rw [pruned.start]
    exact intact.freed index (Nat.lt_of_lt_of_le lt count) free
  · intro index m named
    rcases named_eq_some.mp named with ⟨lt, live, word⟩
    rw [pruned.metadata] at live word
    rw [pruned.start]
    exact valid.backed index m
      (named_eq_some.mpr ⟨Nat.lt_of_lt_of_le lt count, live, word⟩)

theorem compacted (pruned : Pruned p p') (s : Store) (bump : p'.dataBumpNext ≤ p.dataBumpNext) :
    Compacted p s p' s 0 where
  data := pruned.data
  bump := bump
  objects := pruned.objects
  holes := pruned.holes
  bytes := fun _ _ _ _ => rfl
  pins := fun _ => rfl
  pinned := fun _ _ => rfl
  cleared := fun _ => Or.inl rfl
  otherWords := fun _ _ => rfl
  otherBytes := fun _ _ => rfl

end Pruned

/-- No object that may move is behind a free record. -/
def Settled (p : LocalityPage) (s : Store) : Prop :=
  ∀ index, index + 1 < p.numAllocated → ¬ p.Movable s index

/-- What one pass does to a page that holds an object. -/
structure CompactSpec (p : LocalityPage) (s : Store) (result : Nat × LocalityPage × Store) :
    Prop where
  valid : result.2.1.Valid result.2.2.mappings
  compacted : Compacted p s result.2.1 result.2.2 result.1
  count : result.2.1.numAllocated ≤ p.numAllocated
  last : ∃ last, result.2.1.numAllocated = last + 1 ∧
    (result.2.1.metadata last).allocated = true
  settled : result.1 = 0 → result.2.1.Settled result.2.2

theorem CompactSpec.sparesRecord {result : Nat × LocalityPage × Store}
    (spec : CompactSpec p s result) (spare : p.SparesRecord) : result.2.1.SparesRecord := by
  have data := spec.compacted.data
  have bump := spec.compacted.bump
  have count := spec.count
  simp only [SparesRecord, Metadata.bytes] at spare ⊢
  omega

theorem start_setBump (p : LocalityPage) (bump index : Nat) :
    LocalityPage.start { p with dataBumpNext := bump } index = p.start index :=
  start_congr rfl fun _ _ => rfl

/-- The bump pointer is behind the last object after the pruning. -/
theorem compact_eq {c : Sliding} (scanned : p.scan s = some c)
    (valid : c.page.Valid c.store.mappings) (live : c.page.HasLive) :
    ∃ p', p.compact s = some (c.moved, p', c.store) ∧ Pruned c.page p' ∧
      p'.dataBumpNext = p'.start p'.numAllocated := by
  rcases prune_spec rfl live with ⟨p', result, pruned, bump⟩
  simp only [compact, scanned, result, Option.bind_eq_bind, Option.bind_some]
  split
  · rcases pruned.last with ⟨last, count, allocated⟩
    refine ⟨_, rfl, ⟨pruned.data, pruned.metadata, pruned.count, pruned.last, pruned.dropped,
      pruned.accounted⟩, ?_⟩
    have last_lt : last < c.page.numAllocated := by
      have := pruned.count
      omega
    have pointer : p'.getPtr c.store.mappings last = p'.start last := by
      rw [pruned.start, ← valid.intact.getPtr_eq valid.backed last_lt, getPtr, getPtr,
        pruned.metadata]
    show _ = LocalityPage.start { p' with dataBumpNext := _ } p'.numAllocated
    rw [start_setBump, count, Nat.add_sub_cancel]
    exact congrArg (· + _) pointer
  · refine ⟨p', rfl, pruned, ?_⟩
    have := pruned.count
    have same : p'.numAllocated = c.page.numAllocated := by omega
    rw [bump, same, pruned.start]
    exact valid.intact.bump

theorem Valid.compact (valid : p.Valid s.mappings) (live : p.HasLive) :
    ∃ result, p.compact s = some result ∧ CompactSpec p s result := by
  rcases valid.scan with ⟨c, result, scanned, count, ended⟩
  have live' : c.page.HasLive := scanned.live.mpr live
  rcases compact_eq result scanned.valid live' with ⟨p', compacted, pruned, bump⟩
  have valid' := pruned.valid scanned.valid bump
  refine ⟨_, compacted, valid', ?_, ?_, ?_, ?_⟩
  · refine scanned.compacted.trans (pruned.compacted c.store ?_)
    rw [bump, scanned.valid.intact.bump]
    exact pruned.start_le
  · have fewer := pruned.count
    show p'.numAllocated ≤ p.numAllocated
    omega
  · rcases pruned.last with ⟨last, last_eq, allocated⟩
    refine ⟨last, last_eq, ?_⟩
    simp only [pruned.metadata]
    exact allocated
  · intro none index lt movable
    rcases scanned.unmoved none with ⟨page, store, before⟩
    have fewer := pruned.count
    simp only at lt
    refine before index (by omega) ?_
    simp only [Movable, pruned.metadata] at movable
    rwa [page, store] at movable

/-- A pass over a valid page inspects records of the page only, just when it holds an object. -/
theorem Valid.compact_isSome_iff (valid : p.Valid s.mappings) :
    (p.compact s).isSome = true ↔ p.HasLive := by
  rcases valid.scan with ⟨c, scanned, spec, _, _⟩
  rw [← spec.live, HasLive, ← prune_isSome]
  simp only [LocalityPage.compact, scanned, Option.bind_eq_bind, Option.bind_some]
  cases prune c.page.numAllocated c.page with
  | none => simp
  | some pruned =>
      simp only [Option.bind_some]
      split
      · simp
      · simp

end Pass

end LocalityPage

end Alaska
