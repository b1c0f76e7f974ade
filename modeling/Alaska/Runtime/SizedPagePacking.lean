import Alaska.Runtime.SizedPageCompaction

/-!
# Packing by compaction

What `compact` leaves behind: the objects are packed up to the pinned ones, and the number it
returns is the number of mappings whose pointer changed. An object is moved at most once,
because it is moved to the left finger, which then walks over it.
-/

namespace Alaska

open Memory Loop

namespace SizedPage

/--
The state of `compact` after some steps: what is right of the left finger is where it was,
only pinned objects are right of the right finger, and every move changed one mapping.
-/
structure Packing (p : SizedPage) (s : Store) (c : Compaction) : Prop where
  untouched : ∀ index, c.left < index → index < p.capacity → ∀ m,
    (c.page.headers index).named = some m →
      (p.headers index).named = some m ∧ c.store.mappings m = s.mappings m
  behind : ∀ index, c.right < index → index < p.capacity → ∀ m,
    (c.page.headers index).named = some m → (c.store.mappings m).isPinned = true
  counted : ∃ changed : List Nat, changed.Nodup ∧
    (∀ m, m ∈ changed ↔ (c.store.mappings m).getPointer ≠ (s.mappings m).getPointer) ∧
    changed.length = c.movedObjects

namespace Packing

variable {p : SizedPage} {s : Store} {c c' : Compaction} {m : Nat}

theorem start : Packing p s
    { left := 0
      right := p.capacity - 1
      lastObject := none
      movedObjects := 0
      page := { p with allocator := p.allocator.resetFreeList }
      store := s } where
  untouched := fun _ _ _ _ named => ⟨named, rfl⟩
  behind := by
    intro index above lt
    simp only at above
    omega
  counted := ⟨[], List.nodup_nil, by simp, rfl⟩

theorem walkLeft (packing : Packing p s c) : Packing p s { c with left := c.left + 1 } where
  untouched := fun index lt => packing.untouched index (Nat.lt_of_succ_lt lt)
  behind := packing.behind
  counted := packing.counted

/-- The right finger walks over a slot that is free or holds a pinned object. -/
theorem walkRight (packing : Packing p s c) (headers : c'.page.headers = c.page.headers)
    (mappings : c'.store.mappings = c.store.mappings) (left : c'.left = c.left)
    (right : c'.right = c.right - 1) (moved : c'.movedObjects = c.movedObjects)
    (stays : ∀ m, (c.page.headers c.right).named = some m →
      (c.store.mappings m).isPinned = true) : Packing p s c' where
  untouched := by
    rw [headers, mappings, left]
    exact packing.untouched
  behind := by
    rw [headers, mappings, right]
    intro index above lt m named
    by_cases equal : index = c.right
    · rw [equal] at named
      exact stays m named
    · exact packing.behind index (by omega) lt m named
  counted := by
    rw [mappings, moved]
    exact packing.counted

/-- The mapping of an object in another slot is another mapping. -/
theorem moved_ne {index other : Nat} (distinct : c.page.Distinct)
    (index_lt : index < c.page.capacity) (right_lt : c.right < c.page.capacity)
    (named : (c.page.headers c.right).named = some m) (ne : index ≠ c.right)
    (namedOther : (c.page.headers index).named = some other) : other ≠ m := by
  rintro rfl
  exact ne (distinct _ _ _ index_lt right_lt namedOther named)

theorem move (packing : Packing p s c) (compacting : Compacting p s c) (layout : p.Layout)
    (backed : p.Backed s.mappings) (apart : c.left < c.right)
    (rightLive : (c.page.headers c.right).isFree = false) :
    Packing p s
      { c with
        page := (c.page.moveObject c.store c.right c.left).1
        store := (c.page.moveObject c.store c.right c.left).2
        movedObjects := c.movedObjects + 1 } := by
  rcases compacting.relocated with ⟨slots, relocated⟩
  have right_lt := compacting.right_lt
  have capacity := relocated.same.capacity
  have distinct := relocated.distinct (backed.distinct layout)
  obtain ⟨m, named⟩ : ∃ m, (c.page.headers c.right).named = some m :=
    ⟨_, Header.named_eq_some.mpr ⟨rightLive, rfl⟩⟩
  have word : (c.page.moveObject c.store c.right c.left).2.mappings =
      Function.update c.store.mappings m
        ((c.store.mappings m).setPointer (p.indToObject c.left)) := by
    rw [← (Header.named_eq_some.mp named).2, ← relocated.same.indToObject]
    rfl
  have right_named : ((c.page.moveObject c.store c.right c.left).1.headers c.right).named = none :=
    Header.named_eq_none.mpr (moveObject_source _ _ _ _)
  constructor
  · intro index above lt other namedOther
    have ne : index ≠ c.right := by
      rintro rfl
      rw [right_named] at namedOther
      exact absurd namedOther (by simp)
    rw [moveObject_of_ne (Nat.ne_of_gt above) ne] at namedOther
    have other_ne := moved_ne distinct (by omega) (by omega) named ne namedOther
    rw [word, Function.update_of_ne other_ne]
    exact packing.untouched index above lt other namedOther
  · intro index above lt other namedOther
    have beyond : c.right < index := above
    have ne : index ≠ c.right := Nat.ne_of_gt beyond
    rw [moveObject_of_ne (by omega) ne] at namedOther
    have other_ne := moved_ne distinct (by omega) (by omega) named ne namedOther
    rw [word, Function.update_of_ne other_ne]
    exact packing.behind index above lt other namedOther
  · rcases packing.counted with ⟨changed, nodup, member, count⟩
    rcases packing.untouched c.right apart right_lt m named with ⟨before, same⟩
    have fresh : m ∉ changed := by
      rw [member, same]
      exact not_not.mpr rfl
    have pointer : ((c.store.mappings m).setPointer (p.indToObject c.left)).getPointer =
        p.indToObject c.left := by
      have := layout.slot_lt (show c.left < p.capacity by omega)
      apply Mapping.getPointer_setPointer
      omega
    refine ⟨m :: changed, List.nodup_cons.mpr ⟨fresh, nodup⟩, fun other => ?_, ?_⟩
    · rw [word, List.mem_cons]
      by_cases equal : other = m
      · refine iff_of_true (Or.inl equal) ?_
        rw [equal, Function.update_self, pointer, backed c.right right_lt m before]
        intro equal
        exact Nat.ne_of_lt apart (layout.indToObject_injective equal)
      · rw [Function.update_of_ne equal, ← member]
        exact or_iff_right equal
    · rw [List.length_cons, count]

theorem step (packing : Packing p s c) (compacting : Compacting p s c) (layout : p.Layout)
    (backed : p.Backed s.mappings) (apart : c.left < c.right) : Packing p s (compactStep c) := by
  unfold compactStep
  split
  · exact packing.walkLeft
  · split
    · next rightFree =>
        have none : ∀ m, (c.page.headers c.right).named = some m →
            (c.store.mappings m).isPinned = true := by
          intro m named
          rw [Header.named_eq_none.mpr rightFree] at named
          exact absurd named (by simp)
        split
        · exact packing.walkRight rfl rfl rfl rfl rfl none
        · exact packing.walkRight rfl rfl rfl rfl rfl none
    · next notFree =>
        split
        · next pinned =>
            refine packing.walkRight rfl rfl rfl rfl rfl fun m named => ?_
            rw [← (Header.named_eq_some.mp named).2]
            exact pinned
        · exact packing.move compacting layout backed apart (by simpa using notFree)

/-- The loop ends with the fingers on the same slot, and both invariants hold there. -/
theorem loop (layout : p.Layout) (backed : p.Backed s.mappings) (capacity_pos : 0 < p.capacity) :
    Compacting p s (p.compactLoop s) ∧ Packing p s (p.compactLoop s) := by
  have preserved : ∀ c, Compacting p s c ∧ Packing p s c → decide (c.right > c.left) = true →
      Compacting p s (compactStep c) ∧ Packing p s (compactStep c) := by
    rintro c ⟨compacting, packing⟩ apart
    have lt : c.left < c.right := by simpa using apart
    exact ⟨compacting.step layout (backed.distinct layout) lt,
      packing.step compacting layout backed lt⟩
  exact whileLoop_invariant preserved _ ⟨Compacting.start capacity_pos, start⟩

end Packing

/-- What `compact` guarantees for the objects of the page. -/
structure Compacts (p : SizedPage) (s : Store) : Prop where
  ends : (p.compactLoop s).right ≤ (p.compactLoop s).left
  objects : ∀ index < p.capacity, ∀ m, (p.headers index).named = some m →
    ∃ slot < p.capacity, (p.compact s).2.1.headers slot = p.headers index ∧
      ((p.compact s).2.2.mappings m).getPointer = p.indToObject slot ∧
      ∀ offset < p.objectSize, (p.compact s).2.2.bytes (p.indToObject slot + offset) =
        s.bytes (p.indToObject index + offset)
  pinned : ∀ m, (s.mappings m).isPinned = true → (p.compact s).2.2.mappings m = s.mappings m
  packed : ∀ i j, i < j → j < p.capacity → ((p.compact s).2.1.headers i).isFree = true →
    ∀ m, ((p.compact s).2.1.headers j).named = some m →
      ((p.compact s).2.2.mappings m).isPinned = true
  counted : ∃ changed : List Nat, changed.Nodup ∧
    (∀ m, m ∈ changed ↔
      ((p.compact s).2.2.mappings m).getPointer ≠ (s.mappings m).getPointer) ∧
    changed.length = (p.compact s).1

variable {p p' : SizedPage} {s s' : Store} {slots : Equiv.Perm Nat}

theorem Relocated.object (relocated : Relocated p s p' s' slots) (layout : p.Layout)
    (backed : p.Backed s.mappings) {index m : Nat} (lt : index < p.capacity)
    (named : (p.headers index).named = some m) :
    ∃ slot < p.capacity, p'.headers slot = p.headers index ∧
      (s'.mappings m).getPointer = p.indToObject slot ∧
      ∀ offset < p.objectSize, s'.bytes (p.indToObject slot + offset) =
        s.bytes (p.indToObject index + offset) := by
  have slot_lt := relocated.symm_lt lt
  have back : slots (slots.symm index) = index := slots.apply_symm_apply index
  have live := (Header.named_eq_some.mp named).1
  have header := relocated.headers _ slot_lt (Or.inr (by rwa [back]))
  rw [back] at header
  refine ⟨slots.symm index, slot_lt, header, ?_, ?_⟩
  · have after := relocated.backed layout backed (slots.symm index)
      (relocated.same.capacity.symm ▸ slot_lt) m (by rw [header, named])
    rw [after, relocated.same.indToObject]
  · intro offset small
    rw [relocated.bytes _ slot_lt (by rw [header, live]) offset small, back]

theorem Relocated.pinned (relocated : Relocated p s p' s' slots) {m : Nat}
    (pinned : (s.mappings m).isPinned = true) : s'.mappings m = s.mappings m := by
  by_cases exists_named : ∃ index < p.capacity, (p'.headers index).named = some m
  · rcases exists_named with ⟨index, lt, named⟩
    rcases relocated.words index lt m named with ⟨same, _⟩ | ⟨unpinned, _⟩
    · exact same
    · exact Bool.noConfusion (pinned.symm.trans unpinned)
  · exact relocated.otherWords m fun index lt named => exists_named ⟨index, lt, named⟩

/-- Compaction ends, keeps every object, packs the page, and counts the objects it moved. -/
theorem compacts (layout : p.Layout) (backed : p.Backed s.mappings) : p.Compacts s := by
  rcases Nat.eq_zero_or_pos p.capacity with none | capacity_pos
  · have result : p.compact s = (0, p, s) := by
      rw [compact, if_pos (layout.liveObjects.trans none.symm)]
    have loop : p.compactLoop s =
        ⟨0, p.capacity - 1, Option.none, 0, { p with allocator := p.allocator.resetFreeList }, s⟩ := by
      rw [compactLoop, none]
      rfl
    constructor
    · rw [loop, none]
    · intro index lt
      omega
    · rw [result]
      exact fun _ _ => rfl
    · intro i j before lt
      omega
    · rw [result]
      exact ⟨[], List.nodup_nil, by simp, rfl⟩
  · rcases Packing.loop layout backed capacity_pos with ⟨compacting, packing⟩
    have met := (Compacting.loop (s := s) layout (backed.distinct layout) capacity_pos).2
    have started : ¬ p.liveObjects = p.capacity := by
      rw [layout.liveObjects]
      omega
    have page : (p.compact s).2.1.headers = (p.compactLoop s).page.headers := by
      rw [compact, if_neg started]
    have store : (p.compact s).2.2 = (p.compactLoop s).store := by
      rw [compact, if_neg started]
    have count : (p.compact s).1 = (p.compactLoop s).movedObjects := by
      rw [compact, if_neg started]
    rcases compacting.relocated with ⟨slots, relocated⟩
    constructor
    · exact Nat.le_of_eq met.symm
    · intro index lt m named
      rw [page, store]
      exact relocated.object layout backed lt named
    · intro m pinned
      rw [store]
      exact relocated.pinned pinned
    · intro i j before lt free m named
      rw [page] at free named
      rw [store]
      have passed : (p.compactLoop s).left ≤ i := by
        by_contra inside
        have live := compacting.packed i (Nat.lt_of_not_le inside)
        rw [live] at free
        exact Bool.false_ne_true free
      exact packing.behind j (by omega) lt m named
    · rw [store, count]
      exact packing.counted

/-- A page of 160-byte objects with one in slot 5 and another one in slot 9. -/
def twoObjects : SizedPage :=
  ((setSizeClass pageSize 8).setHeader 5 (Header.zero.setMapping (2 ^ 42))).setHeader 9
    (Header.zero.setMapping (2 ^ 42 + 8))

/-- The object in slot 5 is pinned. -/
def pinnedObject : Store where
  bytes := fun _ => 0
  mappings := fun m =>
    if m = 2 ^ 42 then (Mapping.ofPtr (twoObjects.indToObject 5)).setPinned true
    else Mapping.ofPtr (twoObjects.indToObject 9)

theorem layout_twoObjects : twoObjects.Layout :=
  (layout_setSizeClass ⟨by decide, by decide, by decide⟩ (by decide)).of_same
    ⟨rfl, rfl, rfl, rfl, rfl, rfl⟩

theorem backed_twoObjects : twoObjects.Backed pinnedObject.mappings := by
  intro index _ m named
  by_cases isLast : index = 9
  · have header : twoObjects.headers 9 = Header.zero.setMapping (2 ^ 42 + 8) := by
      simp [twoObjects, setHeader]
    rw [isLast, header, Header.named_setMapping ⟨by decide, by decide, by decide⟩,
      Option.some.injEq] at named
    rw [← named, isLast]
    decide +kernel
  by_cases isFirst : index = 5
  · have header : twoObjects.headers 5 = Header.zero.setMapping (2 ^ 42) := by
      simp [twoObjects, setHeader]
    rw [isFirst, header, Header.named_setMapping ⟨by decide, by decide, by decide⟩,
      Option.some.injEq] at named
    rw [← named, isFirst]
    decide +kernel
  · have header : twoObjects.headers index = Header.zero := by
      simp [twoObjects, setHeader, isLast, isFirst, setSizeClass]
    rw [header, Header.named_eq_none.mpr rfl] at named
    exact absurd named (by simp)

theorem compacts_twoObjects :
    (pinnedObject.mappings (2 ^ 42)).isPinned = true ∧ twoObjects.Compacts pinnedObject :=
  ⟨by decide +kernel, compacts layout_twoObjects backed_twoObjects⟩

end SizedPage

end Alaska
