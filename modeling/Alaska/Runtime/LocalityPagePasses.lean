import Alaska.Runtime.LocalityPageRuns

/-!
# Compaction until nothing moves

`Heap::compact_locality_pages` repeats the pass on a page until it returns zero. Every pass
that moves an object takes away a pair of a free record and a later object, so the loop ends.
In the end no object that may move is behind a free record, and the last record is the record
of an object: without pins, there is no free record left.
-/

namespace Alaska

open Memory Lts

namespace LocalityPage

variable {p p' : LocalityPage} {s s' : Store} {moved passes index : Nat}

/-- What compaction keeps: the objects, their bytes and their order, and the pinned ones. -/
structure Preserves (p : LocalityPage) (s : Store) (p' : LocalityPage) (s' : Store) : Prop where
  objects : p'.objects = p.objects
  ordered : p'.objects.Pairwise fun lower upper =>
    (s'.mappings lower.1).getPointer + lower.2 ≤ (s'.mappings upper.1).getPointer
  mapped : ∀ object ∈ p'.objects,
    p'.sizeOf s'.mappings (s'.mappings object.1).getPointer = some object.2
  bytes : ∀ object ∈ p.objects, ∀ offset < object.2,
    s'.bytes ((s'.mappings object.1).getPointer + offset) =
      s.bytes ((s.mappings object.1).getPointer + offset)
  pinned : ∀ m, (s.mappings m).isPinned = true → s'.mappings m = s.mappings m

/-- The objects are in the order of their addresses. -/
theorem Valid.ordered (valid : p.Valid s.mappings) :
    p.objects.Pairwise fun lower upper =>
      (s.mappings lower.1).getPointer + lower.2 ≤ (s.mappings upper.1).getPointer := by
  rw [objects, records, List.filterMap_map, List.pairwise_filterMap]
  refine List.pairwise_lt_range.imp_of_mem fun {left right} leftMem rightMem before => ?_
  have pointer : ∀ index ∈ List.range p.numAllocated, ∀ object, (if (p.metadata index).allocated then
      some ((p.metadata index).word, (p.metadata index).size) else none) = some object →
      (s.mappings object.1).getPointer = p.start index ∧ object.2 = (p.metadata index).size := by
    intro index member object equal
    split at equal
    · next live =>
        cases equal
        have named := named_eq_some.mpr ⟨List.mem_range.mp member, live, rfl⟩
        exact ⟨valid.backed index _ named, rfl⟩
    · exact absurd equal (by simp)
  intro lower lowerEq upper upperEq
  rcases pointer left leftMem lower lowerEq with ⟨lowerPtr, size⟩
  rcases pointer right rightMem upper upperEq with ⟨upperPtr, _⟩
  rw [lowerPtr, upperPtr, size]
  exact Intact.start_lt p before

theorem Compacted.preserves (compacted : Compacted p s p' s' moved)
    (valid : p'.Valid s'.mappings) : Preserves p s p' s' where
  objects := compacted.objects
  ordered := valid.ordered
  mapped := by
    intro object member
    rcases mem_objects.mp member with ⟨index, named, size⟩
    rw [← size]
    exact valid.wellFormed.sizes index _ named
  bytes := compacted.bytes
  pinned := compacted.pinned

/-! ## The loop -/

/-- The last record is the record of an object. -/
def Trimmed (p : LocalityPage) : Prop :=
  ∃ last, p.numAllocated = last + 1 ∧ (p.metadata last).allocated = true

theorem Trimmed.hasLive (trimmed : p.Trimmed) : p.HasLive := by
  rcases trimmed with ⟨last, count, live⟩
  exact ⟨last, by omega, live⟩

/-- The page and the store after the loop. -/
structure CompactAllSpec (p : LocalityPage) (s : Store) (p' : LocalityPage) (s' : Store) :
    Prop where
  valid : p'.Valid s'.mappings
  compacted : ∃ moved, Compacted p s p' s' moved
  trimmed : p'.Trimmed
  settled : p'.Settled s'

/-- The loop ends within as many passes as there are pairs of a hole and a later object. -/
theorem Valid.compactAll (valid : p.Valid s.mappings) (live : p.HasLive)
    (enough : p.holes < passes) :
    ∃ p' s', compactAll passes p s = some (p', s') ∧ CompactAllSpec p s p' s' := by
  induction passes generalizing p s with
  | zero => omega
  | succ passes ih =>
      rcases valid.compact live with ⟨⟨moved, p', s'⟩, result, spec⟩
      have compacted : Compacted p s p' s' moved := spec.compacted
      have trimmed : p'.Trimmed := spec.last
      simp only [LocalityPage.compactAll, result, Option.bind_eq_bind, Option.bind_some]
      split
      · next none =>
          exact ⟨p', s', rfl, spec.valid, ⟨moved, compacted⟩, trimmed, spec.settled none⟩
      · next some =>
          have pairs := compacted.holes
          have fewer : p'.holes < passes := by omega
          rcases ih spec.valid trimmed.hasLive fewer with ⟨p'', s'', rest, final⟩
          rcases final.compacted with ⟨moved', compacted'⟩
          exact ⟨p'', s'', rest, final.valid, ⟨_, compacted.trans compacted'⟩, final.trimmed,
            final.settled⟩

/-! ## The end state -/

/-- The objects are adjacent from the start of the page on, and all records are theirs. -/
structure Packed (p : LocalityPage) (mappings : Mappings) : Prop where
  full : ∀ index < p.numAllocated, (p.metadata index).allocated = true
  starts : ∀ index < p.numAllocated,
    p.getPtr mappings index = p.data + ((p.objects.map Prod.snd).take index).sum
  used : p.dataBumpNext = p.data + (p.objects.map Prod.snd).sum

/-- Without pins, a free record would be followed by free records only. -/
theorem CompactAllSpec.full (spec : CompactAllSpec p s p' s')
    (unpinned : ∀ object ∈ p.objects, (s.mappings object.1).isPinned = false) :
    ∀ index < p'.numAllocated, (p'.metadata index).allocated = true := by
  rcases spec.compacted with ⟨moved, compacted⟩
  rcases spec.trimmed with ⟨last, count, live⟩
  have movable : ∀ index, index + 1 < p'.numAllocated →
      (p'.metadata index).allocated = false → (p'.metadata (index + 1)).allocated = false := by
    intro index lt free
    by_contra notFree
    have next : (p'.metadata (index + 1)).allocated = true := by simpa using notFree
    have member : ((p'.metadata (index + 1)).word, (p'.metadata (index + 1)).size) ∈ p'.objects :=
      mem_objects.mpr ⟨index + 1, named_eq_some.mpr ⟨lt, next, rfl⟩, rfl⟩
    rw [compacted.objects] at member
    refine spec.settled index lt ⟨free, next, ?_⟩
    rw [compacted.pins]
    exact unpinned _ member
  intro index lt
  by_contra notLive
  have free : (p'.metadata index).allocated = false := by simpa using notLive
  have later : ∀ other, index ≤ other → other ≤ last → (p'.metadata other).allocated = false := by
    intro other le
    induction other, le using Nat.le_induction with
    | base => exact fun _ => free
    | succ other le ih =>
        intro le_last
        exact movable other (by omega) (ih (by omega))
  have := later last (by omega) (Nat.le_refl _)
  rw [live] at this
  exact Bool.noConfusion this

theorem start_eq_sum (p : LocalityPage) (index : Nat) :
    p.start index =
      p.data + ((List.range index).map fun other => (p.metadata other).size).sum := by
  induction index with
  | zero => rfl
  | succ index ih =>
      simp only [start, ih, List.range_succ, List.map_append, List.map_singleton, List.sum_append,
        List.sum_singleton]
      omega

theorem objects_sizes (full : ∀ index < p.numAllocated, (p.metadata index).allocated = true) :
    p.objects.map Prod.snd =
      (List.range p.numAllocated).map fun index => (p.metadata index).size := by
  have objects_eq : p.objects = (List.range p.numAllocated).map fun index =>
      ((p.metadata index).word, (p.metadata index).size) := by
    rw [objects, records, List.filterMap_map, ← List.filterMap_eq_map]
    refine List.filterMap_congr fun index member => ?_
    simp only [Function.comp_apply, full index (List.mem_range.mp member), if_true]
  rw [objects_eq, List.map_map]
  rfl

theorem Valid.packed (valid : p.Valid s.mappings)
    (full : ∀ index < p.numAllocated, (p.metadata index).allocated = true) :
    p.Packed s.mappings where
  full := full
  starts := by
    intro index lt
    rw [valid.intact.getPtr_eq valid.backed lt, start_eq_sum, objects_sizes full, ← List.map_take,
      List.take_range, Nat.min_eq_left (Nat.le_of_lt lt)]
  used := by
    rw [valid.intact.bump, start_eq_sum, objects_sizes full]

end LocalityPage

namespace LocalityState

open LocalityPage

variable {t : LocalityState}

/--
A pass over a page that holds an object keeps its objects, and so does their repetition,
which ends; without pins the page is packed then.
-/
theorem compacts_of_run {memory : Nat} {store : Store} {ops : List LocalityOp}
    (pageMemory : SizedPage.PageMemory memory)
    (run : Run (ofFunction next) (start memory store) ops t) (live : t.page.HasLive) :
    (∃ moved page' store', t.page.compact t.store = some (moved, page', store') ∧
      Preserves t.page t.store page' store') ∧
    ∃ passes page' store', compactAll passes t.page t.store = some (page', store') ∧
      Preserves t.page t.store page' store' ∧
      ((∀ m ∈ t.page.live, (t.store.mappings m).isPinned = false) →
        page'.Packed store'.mappings) := by
  have valid := valid_of_run pageMemory run
  constructor
  · rcases valid.compact live with ⟨⟨moved, page', store'⟩, result, spec⟩
    exact ⟨moved, page', store', result, spec.compacted.preserves spec.valid⟩
  · rcases valid.compactAll live (Nat.lt_succ_self _) with ⟨page', store', result, spec⟩
    rcases spec.compacted with ⟨moved, compacted⟩
    refine ⟨_, page', store', result, compacted.preserves spec.valid, fun unpinned => ?_⟩
    apply spec.valid.packed
    apply spec.full
    intro object member
    exact unpinned object.1 (List.mem_map_of_mem member)

theorem compacts_releaseFirst :
    let t := (replay next (start pageSize ⟨fun _ => 0, fun _ => .zero⟩) releaseFirst).get
      releaseFirst_allowed
    (∃ moved page' store', t.page.compact t.store = some (moved, page', store') ∧
      Preserves t.page t.store page' store') ∧
    ∃ passes page' store', compactAll passes t.page t.store = some (page', store') ∧
      Preserves t.page t.store page' store' ∧
      ((∀ m ∈ t.page.live, (t.store.mappings m).isPinned = false) →
        page'.Packed store'.mappings) :=
  compacts_of_run ⟨by decide, by decide, by decide⟩
    (run_of_replay (Option.some_get releaseFirst_allowed).symm) (by decide +kernel)

end LocalityState

end Alaska
