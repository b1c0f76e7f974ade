import Alaska.Lib.ListHead
import Alaska.Lib.Run
import Alaska.Runtime.HugeObjectAllocator
import Mathlib.Data.List.Perm.Subperm
import Mathlib.Data.Set.Finite.Basic

/-!
# The list of huge objects in memory

`HugeObjectAllocator.cpp` on the memory its list lives in: every header is at the start of
the mapping of its object, so `free` unlinks a header and then unmaps it. The list of headers
in `HugeObjectAllocator` is what the circle of `list_head`s in memory represents, and it is
in turn a finite map from pointers to sizes.
-/

namespace Alaska.HugeObjectList

open Memory HugeObjectAllocator

/-! ## The allocator in memory -/

/-- `allocate`, when `mmap` returns `memory`. -/
def allocate (allocations size memory : Nat) (space : AddressSpace) :
    Option (Nat × AddressSpace) := do
  let space := space.mmap memory (mmapBytes (mappingSize size))
  let space ← space.store (memory + 16) (mappingSize size)
  let space ← space.store (memory + 24) size
  let space ← space.listAdd memory allocations
  some (memory + HugeHeader.bytes, space)

/-- `find_header`; a list in memory has fewer entries than there are addresses. -/
def findHeader (allocations ptr : Nat) (space : AddressSpace) : Option (Option Nat) := do
  let first ← space.load allocations
  space.listFind allocations (fun entry => entry + HugeHeader.bytes == ptr) (2 ^ 64) first

def free (allocations ptr : Nat) (space : AddressSpace) : Option (Bool × AddressSpace) := do
  match ← findHeader allocations ptr space with
  | none => some (false, space)
  | some header =>
      let space ← space.listDel header
      let mappingSize ← space.load (header + 16)
      some (true, space.munmap header (mmapBytes mappingSize))

def sizeOf (allocations ptr : Nat) (space : AddressSpace) : Option Nat := do
  match ← findHeader allocations ptr space with
  | none => some 0
  | some header => space.load (header + 24)

def owns (allocations ptr : Nat) (space : AddressSpace) : Option Bool := do
  let header ← findHeader allocations ptr space
  some header.isSome

inductive Call where
  | allocate (size memory : Nat)
  | free (ptr : Nat)
  | sizeOf (ptr : Nat)
  | owns (ptr : Nat)

inductive Result where
  | pointer (ptr : Nat)
  | bool (value : Bool)
  | size (value : Nat)

/-- A call; there is no result when it touches memory that is not mapped. -/
def call (allocations : Nat) (space : AddressSpace) : Call → Option (Result × AddressSpace)
  | .allocate size memory =>
      (allocate allocations size memory space).map fun result => (.pointer result.1, result.2)
  | .free ptr => (free allocations ptr space).map fun result => (.bool result.1, result.2)
  | .sizeOf ptr => (sizeOf allocations ptr space).map fun value => (.size value, space)
  | .owns ptr => (owns allocations ptr space).map fun value => (.bool value, space)

/-- The mapping size does not wrap, and `mmap` gives pages that nothing is mapped at. -/
def Admissible (space : AddressSpace) : Call → Prop
  | .allocate size memory =>
      FitsMapping size ∧ memory % 4096 = 0 ∧ memory + mappingSize size ≤ 2 ^ 64 ∧
        ∀ other, memory ≤ other → other < memory + mappingSize size → space.mapped other = false
  | _ => True

def step (allocations : Nat) (space : AddressSpace) (label : Call × Result)
    (space' : AddressSpace) : Prop :=
  Admissible space label.1 ∧ call allocations space label.1 = some (label.2, space')

/-! ## What the memory represents -/

/-- The bytes that are mapped for an object. -/
def length (header : HugeHeader) : Nat := mmapBytes header.mappingSize

/-- The mappings of the objects and the head of the list do not overlap. -/
structure Layout (allocations : Nat) (huge : HugeObjectAllocator) : Prop where
  apart : huge.Pairwise fun header header' =>
    header.address + length header ≤ header'.address ∨
      header'.address + length header' ≤ header.address
  headApart : ∀ header ∈ huge,
    allocations + 16 ≤ header.address ∨ header.address + length header ≤ allocations
  room : ∀ header ∈ huge, 32 ≤ length header ∧ header.address + length header ≤ 2 ^ 64
  headRoom : allocations + 16 ≤ 2 ^ 64

/-- The words in memory are those of a circle through the headers of a list. -/
structure Represents (allocations : Nat) (space : AddressSpace) (huge : HugeObjectAllocator) :
    Prop extends Layout allocations huge where
  linked : Linked space.words allocations (huge.map (·.address)) allocations
  sizes : ∀ header ∈ huge, space.words (header.address + 16) = some header.mappingSize ∧
    space.words (header.address + 24) = some header.allocationSize
  mapped : ∀ header ∈ huge, ∀ other, header.address ≤ other →
    other < header.address + length header → space.mapped other = true
  headMapped : ∀ other, allocations ≤ other → other < allocations + 16 →
    space.mapped other = true

variable {allocations ptr size memory : Nat} {space space' : AddressSpace}
  {huge before after : HugeObjectAllocator} {header : HugeHeader}

/-- The nodes of the circle. -/
def nodes (allocations : Nat) (huge : HugeObjectAllocator) : List Nat :=
  allocations :: huge.map (·.address)

theorem Layout.nodes_apart (layout : Layout allocations huge) :
    (nodes allocations huge).Pairwise NodesApart := by
  rw [nodes, List.pairwise_cons, List.pairwise_map]
  constructor
  · intro node isNode
    rcases List.mem_map.mp isNode with ⟨header, member, rfl⟩
    have := layout.headApart header member
    have := layout.room header member
    unfold NodesApart
    omega
  · apply layout.apart.imp_of_mem
    intro header header' member member' apart
    have := layout.room header member
    have := layout.room header' member'
    unfold NodesApart
    omega

theorem Layout.nodes_lt (layout : Layout allocations huge) :
    ∀ node ∈ nodes allocations huge, node < 2 ^ 64 := by
  intro node isNode
  rcases List.mem_cons.mp isNode with rfl | isNode
  · have := layout.headRoom
    omega
  · rcases List.mem_map.mp isNode with ⟨header, member, rfl⟩
    have := layout.room header member
    omega

/-- The sizes in a header are at no node of the circle. -/
theorem Layout.ne_node (layout : Layout allocations huge) (member : header ∈ huge) {node : Nat}
    (isNode : node ∈ nodes allocations huge) {offset : Nat} (lower : 16 ≤ offset)
    (upper : offset ≤ 24) :
    header.address + offset ≠ node ∧ header.address + offset ≠ node + 8 := by
  have own := layout.room header member
  rcases List.mem_cons.mp isNode with rfl | isNode
  · have := layout.headApart header member
    omega
  · rcases List.mem_map.mp isNode with ⟨header', member', rfl⟩
    by_cases same : header = header'
    · subst same
      omega
    · have other := layout.room header' member'
      have : Std.Symm fun header header' : HugeHeader =>
          header.address + length header ≤ header'.address ∨
            header'.address + length header' ≤ header.address :=
        ⟨fun _ _ apart => Or.symm apart⟩
      have := layout.apart.forall member member' same
      omega

theorem Layout.length_lt (layout : Layout allocations huge) : huge.length < 2 ^ 64 := by
  have bounded := layout.nodes_lt
  have nodup := nodup_of_apart layout.nodes_apart
  generalize 2 ^ 64 = bound at bounded
  have subset : nodes allocations huge ⊆ List.range bound :=
    fun node member => List.mem_range.mpr (bounded node member)
  have := (List.subperm_of_subset nodup subset).length_le
  simp only [nodes, List.length_cons, List.length_map, List.length_range] at this
  omega

theorem Represents.head_open (represents : Represents allocations space huge) :
    (space.words allocations).isSome := by
  rw [represents.linked.first.1]
  rfl

/-- `find_header` finds what is in the list. -/
theorem findHeader_eq (represents : Represents allocations space huge) :
    findHeader allocations ptr space = some ((huge.findHeader ptr).map (·.address)) := by
  have first := AddressSpace.load_of_words represents.linked.first.1
  have found := listFind_spec (fun entry => entry + HugeHeader.bytes == ptr)
    (2 ^ 64) represents.linked represents.head_open
    (List.nodup_cons.mp (nodup_of_apart represents.nodes_apart)).1
    (by rw [List.length_map]; exact represents.length_lt)
  rw [findHeader, first, Option.bind_eq_bind, Option.bind_some, found, List.find?_map]
  rfl

/-! ## What the calls do to the list -/

/-- What is mapped does not overlap what is not. -/
theorem mapped_apart_fresh {start bytes fresh freshBytes : Nat}
    (mapped : ∀ other, start ≤ other → other < start + bytes → space.mapped other = true)
    (unmapped : ∀ other, fresh ≤ other → other < fresh + freshBytes → space.mapped other = false)
    (some_ : 0 < bytes) (some_' : 0 < freshBytes) :
    start + bytes ≤ fresh ∨ fresh + freshBytes ≤ start := by
  by_contra overlap
  have both : ∀ other, start ≤ other → other < start + bytes → fresh ≤ other →
      other < fresh + freshBytes → False := by
    intro other lower upper lower' upper'
    have := mapped other lower upper
    rw [unmapped other lower' upper'] at this
    contradiction
  rcases Nat.le_total start fresh with le | le
  · exact both fresh le (by omega) le_rfl (by omega)
  · exact both start le_rfl (by omega) le (by omega)

theorem mappingSize_lt (size : Nat) : mappingSize size < 2 ^ 64 := by
  unfold mappingSize
  dsimp only
  split <;> omega

theorem length_allocate (fits : FitsMapping size) :
    length ⟨memory, mappingSize size, size⟩ = mappingSize size := by
  apply mmapBytes_mappingSize
  unfold FitsMapping at fits
  omega

/-- The layout with a mapping added where nothing was mapped. -/
theorem layout_allocate (represents : Represents allocations space huge)
    (admissible : Admissible space (.allocate size memory)) :
    Layout allocations (huge.allocate size memory).2 := by
  rcases admissible with ⟨fits, _, bounded, fresh⟩
  have page := mappingSize_pos size
  refine ⟨?_, ?_, ?_, represents.headRoom⟩
  · apply List.pairwise_cons.mpr
    refine ⟨fun header member => ?_, represents.apart⟩
    rw [length_allocate fits]
    have room := represents.room header member
    exact Or.symm (mapped_apart_fresh (represents.mapped header member) fresh (by omega) (by omega))
  · intro header member
    rcases List.mem_cons.mp member with rfl | member
    · rw [length_allocate fits]
      exact mapped_apart_fresh represents.headMapped fresh (by omega) (by omega)
    · exact represents.headApart header member
  · intro header member
    rcases List.mem_cons.mp member with rfl | member
    · rw [length_allocate fits]
      exact ⟨by omega, bounded⟩
    · exact represents.room header member

/-- `allocate` puts a header at the front of the list. -/
theorem allocate_spec (represents : Represents allocations space huge)
    (admissible : Admissible space (.allocate size memory)) :
    ∃ space', allocate allocations size memory space =
        some ((huge.allocate size memory).1, space') ∧
      Represents allocations space' (huge.allocate size memory).2 := by
  have layout := layout_allocate represents admissible
  rcases admissible with ⟨fits, aligned, bounded, fresh⟩
  have same : mmapBytes (mappingSize size) = mappingSize size := @length_allocate size 0 fits
  have page := mappingSize_pos size
  have small : size < 2 ^ 64 := by
    unfold FitsMapping at fits
    omega
  have kept : ∀ address word, space.words address = some word →
      (space.mmap memory (mappingSize size)).words address = some word :=
    fun address word found => AddressSpace.words_mmap fresh found
  have opened : ∀ offset, offset % 8 = 0 → offset ≤ 24 →
      ((space.mmap memory (mappingSize size)).words (memory + offset)).isSome :=
    fun offset aligned' le => AddressSpace.isSome_words_mmap (by omega) (by omega) (by omega)
  have unused : ∀ offset, offset % 8 = 0 → offset ≤ 24 → ∀ address word,
      space.words address = some word → address ≠ memory + offset := by
    rintro offset aligned' le address word found rfl
    have := (AddressSpace.isSome_words.mp (by rw [found]; rfl)).2 (memory + offset) le_rfl
      (by omega)
    rw [fresh _ (by omega) (by omega)] at this
    contradiction
  rcases (space.mmap memory (mappingSize size)).exists_store _ _ (opened 16 rfl (by omega))
    (mappingSize_lt size) with ⟨space1, store1, words1, mapped1⟩
  rcases space1.exists_store (memory + 24) _
    (by rw [words1]; exact isSome_update (opened 24 rfl le_rfl)) small
    with ⟨space2, store2, words2, mapped2⟩
  have kept2 : ∀ address word, space.words address = some word →
      space2.words address = some word := by
    intro address word found
    rw [words2, Function.update_of_ne (unused 24 rfl le_rfl address word found), words1,
      Function.update_of_ne (unused 16 rfl (by omega) address word found)]
    exact kept address word found
  have open2 : ∀ offset, offset % 8 = 0 → offset ≤ 24 →
      (space2.words (memory + offset)).isSome := by
    intro offset aligned' le
    rw [words2, words1]
    exact isSome_update (isSome_update (opened offset aligned' le))
  have shape : (memory :: allocations :: huge.map (·.address)).Perm
      (nodes allocations (huge.allocate size memory).2) := List.Perm.swap _ _ _
  rcases listAdd_spec (represents.linked.mono kept2)
    ((shape.pairwise_iff fun apart => Or.symm apart).mpr layout.nodes_apart)
    (fun node member => layout.nodes_lt node (shape.mem_iff.mp member))
    (open2 0 rfl (by omega)) (open2 8 rfl (by omega)) with ⟨space3, added, mapped3, linked, frame⟩
  have frame' : ∀ header ∈ (huge.allocate size memory).2, ∀ offset, 16 ≤ offset → offset ≤ 24 →
      space3.words (header.address + offset) = space2.words (header.address + offset) := by
    intro header member offset lower upper
    exact frame _ fun node isNode =>
      layout.ne_node member (shape.mem_iff.mp isNode) lower upper
  have mappedNow : ∀ other, space3.mapped other =
      (decide (memory ≤ other ∧ other < memory + mappingSize size) || space.mapped other) := by
    intro other
    rw [mapped3, mapped2, mapped1]
    rfl
  refine ⟨space3, ?_, { layout with linked := linked, sizes := ?_, mapped := ?_, headMapped := ?_ }⟩
  · simp [allocate, same, store1, store2, added, HugeObjectAllocator.allocate, HugeHeader.data]
  · intro header member
    rw [frame' header member 16 le_rfl (by omega), frame' header member 24 (by omega) le_rfl]
    rcases List.mem_cons.mp member with rfl | member
    · rw [words2, Function.update_of_ne (show memory + 16 ≠ memory + 24 by omega), words1]
      exact ⟨Function.update_self _ _ _, Function.update_self _ _ _⟩
    · have := represents.sizes header member
      exact ⟨kept2 _ _ this.1, kept2 _ _ this.2⟩
  · intro header member other lower upper
    rw [mappedNow]
    rcases List.mem_cons.mp member with rfl | member
    · rw [length_allocate fits] at upper
      simp only [Bool.or_eq_true, decide_eq_true_eq]
      exact Or.inl ⟨lower, upper⟩
    · rw [represents.mapped header member other lower upper, Bool.or_true]
  · intro other lower upper
    rw [mappedNow, represents.headMapped other lower upper, Bool.or_true]

theorem layout_sublist {huge' : HugeObjectAllocator} (layout : Layout allocations huge)
    (sub : huge'.Sublist huge) : Layout allocations huge' where
  apart := layout.apart.sublist sub
  headApart header member := layout.headApart header (sub.subset member)
  room header member := layout.room header (sub.subset member)
  headRoom := layout.headRoom

/-- `free` takes the header of a live object out of the list and unmaps it. -/
theorem free_spec (represents : Represents allocations space huge)
    (found : huge.findHeader ptr = some header) :
    ∃ space', free allocations ptr space = some (true, space') ∧
      Represents allocations space' (huge.erase header) := by
  have member : header ∈ huge := List.mem_of_find?_eq_some found
  rcases List.exists_erase_eq member with ⟨before, after, -, split, erased⟩
  have shape : nodes allocations huge =
      allocations :: before.map (·.address) ++ header.address :: after.map (·.address) := by
    simp [nodes, split]
  have linked : Linked space.words allocations
      (before.map (·.address) ++ header.address :: after.map (·.address)) allocations := by
    have := represents.linked
    rwa [split, List.map_append, List.map_cons] at this
  rcases listDel_spec linked (shape ▸ represents.nodes_apart) (shape ▸ represents.nodes_lt)
    with ⟨space1, deleted, mapped1, linked1, frame⟩
  have frame' : ∀ header ∈ huge, ∀ offset, 16 ≤ offset → offset ≤ 24 →
      space1.words (header.address + offset) = space.words (header.address + offset) := by
    intro header member offset lower upper
    exact frame _ fun node isNode => represents.ne_node member (shape ▸ isNode) lower upper
  have size : space1.words (header.address + 16) = some header.mappingSize := by
    rw [frame' header member 16 le_rfl (by omega)]
    exact (represents.sizes header member).1
  have sub : (before ++ after).Sublist huge := by
    rw [split]
    exact List.Sublist.append_left (List.sublist_cons_self _ _) _
  -- the other mappings and the head are outside the one that is unmapped
  have apart : ∀ other ∈ before ++ after, other.address + length other ≤ header.address ∨
      header.address + length header ≤ other.address := by
    intro other otherMember
    have pairs := represents.apart
    rw [split, List.pairwise_append, List.pairwise_cons] at pairs
    rcases List.mem_append.mp otherMember with inBefore | inAfter
    · exact pairs.2.2 other inBefore header List.mem_cons_self
    · exact Or.symm (pairs.2.1.1 other inAfter)
  have layout := layout_sublist represents.toLayout sub
  refine ⟨space1.munmap header.address (length header), ?_, ?_⟩
  · have notFound : findHeader allocations ptr space = some (some header.address) := by
      rw [findHeader_eq represents, found]
      rfl
    simp [free, notFound, deleted, AddressSpace.load_of_words size, length]
  rw [erased]
  refine { layout with linked := ?_, sizes := ?_, mapped := ?_, headMapped := ?_ }
  · rw [List.map_append]
    have outside : ∀ node ∈ allocations :: (before.map (·.address) ++ after.map (·.address)),
        node + 16 ≤ header.address ∨ header.address + length header ≤ node := by
      intro node isNode
      rcases List.mem_cons.mp isNode with rfl | isNode
      · exact represents.headApart header member
      · rw [← List.map_append] at isNode
        rcases List.mem_map.mp isNode with ⟨other, otherMember, rfl⟩
        have room := layout.room other otherMember
        have := apart other otherMember
        omega
    apply linked1.congr
    · intro node isNode
      have := outside node isNode
      exact AddressSpace.words_munmap (by omega)
    · intro node isNode
      have := outside node (by
        simp only [List.mem_append, List.mem_cons, List.not_mem_nil, or_false] at isNode ⊢
        tauto)
      exact AddressSpace.words_munmap (by omega)
  · intro other otherMember
    have room := layout.room other otherMember
    have aside := apart other otherMember
    have inHuge := sub.subset otherMember
    rw [AddressSpace.words_munmap (by omega), AddressSpace.words_munmap (by omega),
      frame' other inHuge 16 le_rfl (by omega), frame' other inHuge 24 (by omega) le_rfl]
    exact represents.sizes other inHuge
  · intro other otherMember byte lower upper
    have aside := apart other otherMember
    have kept : decide (header.address ≤ byte ∧ byte < header.address + length header) = false :=
      decide_eq_false (by omega)
    simp only [AddressSpace.munmap, kept, mapped1, Bool.not_false, Bool.true_and]
    exact represents.mapped other (sub.subset otherMember) byte lower upper
  · intro byte lower upper
    have aside := represents.headApart header member
    have kept : decide (header.address ≤ byte ∧ byte < header.address + length header) = false :=
      decide_eq_false (by omega)
    simp only [AddressSpace.munmap, kept, mapped1, Bool.not_false, Bool.true_and]
    exact represents.headMapped byte lower upper

theorem free_of_not_found (represents : Represents allocations space huge)
    (notFound : huge.findHeader ptr = none) :
    free allocations ptr space = some (false, space) := by
  simp [free, findHeader_eq represents, notFound]

theorem sizeOf_spec (represents : Represents allocations space huge) :
    sizeOf allocations ptr space = some (huge.sizeOf ptr) := by
  rw [sizeOf, findHeader_eq represents, HugeObjectAllocator.sizeOf]
  cases found : huge.findHeader ptr with
  | none => rfl
  | some header =>
      have member : header ∈ huge := List.mem_of_find?_eq_some found
      exact AddressSpace.load_of_words (represents.sizes header member).2

theorem owns_spec (represents : Represents allocations space huge) :
    owns allocations ptr space = some (huge.owns ptr) := by
  simp [owns, findHeader_eq represents, HugeObjectAllocator.owns]

/-! ## A finite map -/

/-- The live objects after some calls, with the sizes they were requested with. -/
def liveObjects (trace : List (Call × Result)) : Nat → Option Nat :=
  trace.foldl (fun objects entry =>
    match entry with
    | (.allocate size _, .pointer ptr) => Function.update objects ptr (some size)
    | (.free ptr, _) => Function.update objects ptr none
    | _ => objects) fun _ => none

/-- The map of a list of headers. -/
def sizes (huge : HugeObjectAllocator) (ptr : Nat) : Option Nat :=
  (huge.findHeader ptr).map (·.allocationSize)

theorem sizes_allocate :
    sizes (huge.allocate size memory).2 =
      Function.update (sizes huge) (huge.allocate size memory).1 (some size) := by
  funext ptr
  by_cases same : ptr = (huge.allocate size memory).1
  · subst same
    simp [sizes, HugeObjectAllocator.allocate, HugeObjectAllocator.findHeader]
  · rw [Function.update_of_ne same]
    have differs : HugeHeader.data ⟨memory, mappingSize size, size⟩ ≠ ptr := Ne.symm same
    simp [sizes, HugeObjectAllocator.allocate, HugeObjectAllocator.findHeader, differs]

theorem sizes_erase (layout : Layout allocations huge)
    (found : huge.findHeader ptr = some header) :
    sizes (huge.erase header) = Function.update (sizes huge) ptr none := by
  have member : header ∈ huge := List.mem_of_find?_eq_some found
  have isPtr : header.data = ptr := by simpa using List.find?_some found
  have nodup := (List.nodup_cons.mp (nodup_of_apart layout.nodes_apart)).2
  rcases List.exists_erase_eq member with ⟨before, after, -, split, erased⟩
  rw [split, List.map_append, List.map_cons, List.nodup_middle, List.nodup_cons,
    ← List.map_append] at nodup
  rw [erased]
  funext other
  by_cases same : other = ptr
  · subst same
    rw [Function.update_self, sizes, Option.map_eq_none_iff]
    apply List.find?_eq_none.mpr
    intro header' member' matches_
    have data : header'.data = header.data := by
      rw [isPtr]
      simpa using matches_
    apply nodup.1
    rw [show header.address = header'.address by unfold HugeHeader.data at data; omega]
    exact List.mem_map_of_mem member'
  · have differs : header.data ≠ other := by
      rw [isPtr]
      exact Ne.symm same
    rw [Function.update_of_ne same, split]
    simp [sizes, HugeObjectAllocator.findHeader, List.find?_append, differs]

theorem finite_sizes (huge : HugeObjectAllocator) : {ptr | (sizes huge ptr).isSome}.Finite := by
  apply (List.finite_toSet (huge.map HugeHeader.data)).subset
  intro ptr found
  rw [Set.mem_ofPred_eq, sizes, Option.isSome_map] at found
  rcases Option.isSome_iff_exists.mp found with ⟨header, isFound⟩
  have isPtr : header.data = ptr := by simpa using List.find?_some isFound
  exact List.mem_map.mpr ⟨header, List.mem_of_find?_eq_some isFound, isPtr⟩

/-- The pointer to a new object is not that of a live one. -/
theorem sizes_fresh (layout : Layout allocations (huge.allocate size memory).2) :
    sizes huge (huge.allocate size memory).1 = none := by
  rw [sizes, Option.map_eq_none_iff]
  apply List.find?_eq_none.mpr
  intro header member matches_
  have nodup := (List.nodup_cons.mp (nodup_of_apart layout.nodes_apart)).2
  apply (List.nodup_cons.mp nodup).1
  have data : header.data = (huge.allocate size memory).1 := by simpa using matches_
  change header.address + HugeHeader.bytes = memory + HugeHeader.bytes at data
  show memory ∈ huge.map (·.address)
  rw [show memory = header.address by omega]
  exact List.mem_map_of_mem member

/-- A step keeps a list of headers in memory whose sizes are those of the live objects. -/
theorem represents_step {trace : List (Call × Result)} {label : Call × Result}
    (represents : Represents allocations space huge) (live : liveObjects trace = sizes huge)
    (taken : step allocations space label space') :
    ∃ huge', Represents allocations space' huge' ∧
      liveObjects (trace ++ [label]) = sizes huge' := by
  rcases label with ⟨request, result⟩
  rcases taken with ⟨admissible, returned⟩
  cases request with
  | allocate size memory =>
      rcases allocate_spec represents admissible with ⟨next, allocated, kept⟩
      simp only [call, allocated, Option.map_some, Option.some.injEq, Prod.mk.injEq] at returned
      obtain ⟨rfl, rfl⟩ := returned
      refine ⟨_, kept, ?_⟩
      simp only [liveObjects, List.foldl_append, List.foldl_cons, List.foldl_nil]
      rw [sizes_allocate, ← live, liveObjects]
  | free ptr =>
      cases found : huge.findHeader ptr with
      | none =>
          simp only [call, free_of_not_found represents found, Option.map_some,
            Option.some.injEq, Prod.mk.injEq] at returned
          obtain ⟨rfl, rfl⟩ := returned
          refine ⟨huge, represents, ?_⟩
          simp only [liveObjects, List.foldl_append, List.foldl_cons, List.foldl_nil]
          rw [← liveObjects, live]
          apply Function.update_eq_iff.mpr
          simp [sizes, found]
      | some header =>
          rcases free_spec represents found with ⟨next, freed, kept⟩
          simp only [call, freed, Option.map_some, Option.some.injEq, Prod.mk.injEq] at returned
          obtain ⟨rfl, rfl⟩ := returned
          refine ⟨_, kept, ?_⟩
          simp only [liveObjects, List.foldl_append, List.foldl_cons, List.foldl_nil]
          rw [sizes_erase represents.toLayout found, ← live, liveObjects]
  | sizeOf ptr =>
      simp only [call, sizeOf_spec represents, Option.map_some, Option.some.injEq,
        Prod.mk.injEq] at returned
      obtain ⟨rfl, rfl⟩ := returned
      refine ⟨huge, represents, ?_⟩
      simpa [liveObjects] using live
  | owns ptr =>
      simp only [call, owns_spec represents, Option.map_some, Option.some.injEq,
        Prod.mk.injEq] at returned
      obtain ⟨rfl, rfl⟩ := returned
      refine ⟨huge, represents, ?_⟩
      simpa [liveObjects] using live

theorem represents_run (past : List (Call × Result)) {trace : List (Call × Result)}
    (run : Lts.Run (step allocations) space trace space')
    (represents : Represents allocations space huge) (live : liveObjects past = sizes huge) :
    ∃ huge', Represents allocations space' huge' ∧
      liveObjects (past ++ trace) = sizes huge' := by
  induction run generalizing past huge with
  | nil => exact ⟨huge, represents, by simpa using live⟩
  | cons head _ ih =>
      rcases represents_step represents live head with ⟨huge', represents', live'⟩
      rcases ih _ represents' live' with ⟨huge'', represents'', live''⟩
      exact ⟨huge'', represents'', by simpa using live''⟩

/-- The constructor leaves an empty list. -/
theorem represents_init (aligned : allocations % 8 = 0) (room : allocations + 16 ≤ 2 ^ 64)
    (object : ∀ other, allocations ≤ other → other < allocations + 16 →
      space.mapped other = true)
    (constructed : space.initListHead allocations = some space') :
    Represents allocations space' [] := by
  rcases space.exists_store allocations allocations
    (AddressSpace.isSome_words.mpr ⟨aligned, fun _ _ _ => object _ (by omega) (by omega)⟩)
    (by omega) with ⟨space1, store1, words1, mapped1⟩
  rcases space1.exists_store (allocations + 8) allocations
    (AddressSpace.isSome_words.mpr
      ⟨by omega, fun _ _ _ => mapped1 ▸ object _ (by omega) (by omega)⟩)
    (by omega) with ⟨space2, store2, words2, mapped2⟩
  obtain rfl : space2 = space' := by
    simpa [AddressSpace.initListHead, store1, store2] using constructed
  refine ⟨⟨.nil, by simp, by simp, room⟩, ⟨?_, ?_⟩, by simp, by simp, ?_⟩
  · rw [words2, Function.update_of_ne (by omega), words1, Function.update_self]
  · rw [words2, Function.update_self]
  · rw [mapped2, mapped1]
    exact object

/--
The allocator is a finite map from pointers to sizes. After any run of calls, the size of a
live object is the one it was requested with and that of any other pointer is 0, the live
objects are the ones that are owned, a free returns whether its pointer is live and does
nothing if it is not, and a new object gets a pointer that is not live. No call touches
memory that is not mapped.
-/
theorem refines_map {start : AddressSpace} {trace : List (Call × Result)}
    (aligned : allocations % 8 = 0) (room : allocations + 16 ≤ 2 ^ 64)
    (object : ∀ other, allocations ≤ other → other < allocations + 16 →
      start.mapped other = true)
    (constructed : start.initListHead allocations = some space)
    (run : Lts.Run (step allocations) space trace space') :
    {ptr | (liveObjects trace ptr).isSome}.Finite ∧
    (∀ ptr, call allocations space' (.sizeOf ptr) =
      some (.size ((liveObjects trace ptr).getD 0), space')) ∧
    (∀ ptr, call allocations space' (.owns ptr) =
      some (.bool (liveObjects trace ptr).isSome, space')) ∧
    (∀ ptr, (liveObjects trace ptr).isSome →
      ∃ next, call allocations space' (.free ptr) = some (.bool true, next)) ∧
    (∀ ptr, liveObjects trace ptr = none →
      call allocations space' (.free ptr) = some (.bool false, space')) ∧
    (∀ size memory, Admissible space' (.allocate size memory) →
      ∃ ptr next, call allocations space' (.allocate size memory) = some (.pointer ptr, next) ∧
        liveObjects trace ptr = none) := by
  rcases represents_run [] run (represents_init aligned room object constructed) rfl
    with ⟨huge, represents, live⟩
  rw [List.nil_append] at live
  rw [live]
  refine ⟨finite_sizes huge, ?_, ?_, ?_, ?_, ?_⟩
  · intro ptr
    rw [call, sizeOf_spec represents, HugeObjectAllocator.sizeOf, sizes]
    cases huge.findHeader ptr <;> rfl
  · intro ptr
    rw [call, owns_spec represents, HugeObjectAllocator.owns, sizes, Option.isSome_map]
    rfl
  · intro ptr isLive
    rw [sizes, Option.isSome_map] at isLive
    rcases Option.isSome_iff_exists.mp isLive with ⟨header, found⟩
    rcases free_spec represents found with ⟨next, freed, _⟩
    exact ⟨next, by rw [call, freed]; rfl⟩
  · intro ptr notLive
    rw [sizes, Option.map_eq_none_iff] at notLive
    rw [call, free_of_not_found represents notLive]
    rfl
  · intro size memory admissible
    rcases allocate_spec represents admissible with ⟨next, allocated, kept⟩
    exact ⟨_, next, by rw [call, allocated]; rfl, sizes_fresh kept.toLayout⟩

/-- One page is mapped. -/
def onePage : AddressSpace where
  bytes _ := 0
  mapped other := decide (4096 ≤ other ∧ other < 8192)

theorem refines_map_allocate :
    ∃ space next, onePage.initListHead 4096 = some space ∧
      call 4096 space (.allocate 200 8192) = some (.pointer 8224, next) ∧
      call 4096 next (.sizeOf 8224) = some (.size 200, next) ∧
      call 4096 next (.free 8000) = some (.bool false, next) := by
  obtain ⟨space, constructed, mapped⟩ :
      ∃ space, onePage.initListHead 4096 = some space ∧ space.mapped = onePage.mapped :=
    ⟨_, rfl, rfl⟩
  have object : ∀ other, 4096 ≤ other → other < 4096 + 16 → onePage.mapped other = true := by
    intro other lower upper
    exact decide_eq_true ⟨lower, by omega⟩
  have fresh : Admissible space (.allocate 200 8192) := by
    refine ⟨by decide, by decide, by decide, fun other lower _ => ?_⟩
    rw [mapped]
    exact decide_eq_false (by omega)
  rcases allocate_spec (represents_init (by decide) (by decide) object constructed) fresh
    with ⟨next, allocated, _⟩
  have taken : step 4096 space (.allocate 200 8192, .pointer 8224) next :=
    ⟨fresh, by rw [call, allocated]; rfl⟩
  have refined := refines_map (by decide) (by decide) object constructed (.cons taken (.nil _))
  exact ⟨space, next, constructed, taken.2, refined.2.1 8224, refined.2.2.2.2.1 8000 rfl⟩

end Alaska.HugeObjectList
