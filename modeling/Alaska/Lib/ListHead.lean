import Alaska.Lib.Memory
import Mathlib.Data.List.Nodup
import Mathlib.Data.List.Pairwise
import Mathlib.Tactic.Tauto

/-!
# Circular lists in mapped memory

An address space maps some of its bytes; touching another one is a fault. A `list_head` is a
pair of pointers inside the object that is on a list, and the list is a circle through its
head. `Linked` describes a stretch of such a circle by the words at its nodes, so the
effect of adding and deleting an entry can be followed on the words alone.
-/

namespace Memory

structure AddressSpace where
  bytes : Bytes
  mapped : Nat → Bool

namespace AddressSpace

/-- Whether the eight bytes at an address are mapped. -/
def accessible (space : AddressSpace) (address : Nat) : Bool :=
  (List.range 8).all fun index => space.mapped (address + index)

def load (space : AddressSpace) (address : Nat) : Option Nat :=
  if space.accessible address then some (space.bytes.load64 address) else none

def store (space : AddressSpace) (address word : Nat) : Option AddressSpace :=
  if space.accessible address then
    some { space with bytes := space.bytes.store64 address word }
  else
    none

/-- Maps fresh zero pages at an address that the kernel has picked. -/
def mmap (space : AddressSpace) (address length : Nat) : AddressSpace where
  bytes := space.bytes.memset address 0 length
  mapped other := decide (address ≤ other ∧ other < address + length) || space.mapped other

def munmap (space : AddressSpace) (address length : Nat) : AddressSpace where
  bytes := space.bytes
  mapped other := !decide (address ≤ other ∧ other < address + length) && space.mapped other

/-- The words of an address space: what is at the addresses that are multiples of eight. -/
def words (space : AddressSpace) (address : Nat) : Option Nat :=
  if address % 8 = 0 then space.load address else none

variable {space space' : AddressSpace} {address word length other : Nat}

theorem accessible_iff :
    space.accessible address = true ↔
      ∀ other, address ≤ other → other < address + 8 → space.mapped other = true := by
  simp only [accessible, List.all_eq_true, List.mem_range]
  constructor
  · intro all other lower upper
    have := all (other - address) (by omega)
    rwa [show address + (other - address) = other by omega] at this
  · intro all index bounded
    exact all _ (by omega) (by omega)

theorem isSome_words :
    (space.words address).isSome ↔
      address % 8 = 0 ∧ ∀ other, address ≤ other → other < address + 8 →
        space.mapped other = true := by
  rw [← accessible_iff]
  unfold words load
  split
  · split <;> simp_all
  · simp_all

theorem load_of_words (found : space.words address = some word) :
    space.load address = some word := by
  unfold words at found
  split at found
  · exact found
  · contradiction

/-- The word at an address depends on the eight bytes there alone. -/
theorem words_congr
    (mapped : ∀ other, address ≤ other → other < address + 8 →
      space'.mapped other = space.mapped other)
    (bytes : ∀ other, address ≤ other → other < address + 8 →
      space.mapped other = true → space'.bytes other = space.bytes other) :
    space'.words address = space.words address := by
  unfold words load
  split
  · have same : space'.accessible address = space.accessible address := by
      rw [Bool.eq_iff_iff, accessible_iff, accessible_iff]
      constructor <;> intro all other lower upper
      · exact mapped other lower upper ▸ all other lower upper
      · exact (mapped other lower upper).symm ▸ all other lower upper
    rw [same]
    split
    · next open_ =>
        rw [Bytes.load64_congr fun other lower upper =>
          bytes other lower upper (accessible_iff.mp open_ other lower upper)]
    · rfl
  · rfl

/-- Storing a word changes that word and no other one. -/
theorem exists_store (address word : Nat) (found : (space.words address).isSome)
    (small : word < 2 ^ 64) :
    ∃ space', space.store address word = some space' ∧
      space'.words = Function.update space.words address (some word) ∧
      space'.mapped = space.mapped := by
  rcases isSome_words.mp found with ⟨aligned, mapped⟩
  have isOpen := accessible_iff.mpr mapped
  refine ⟨{ space with bytes := space.bytes.store64 address word }, ?_, ?_, rfl⟩
  · simp [store, isOpen]
  · funext other
    by_cases same : other = address
    · subst same
      rw [Function.update_self]
      have stillOpen : accessible { space with bytes := space.bytes.store64 other word } other =
          true := isOpen
      unfold words load
      rw [if_pos aligned, if_pos stillOpen, Bytes.load64_store64 small]
    · rw [Function.update_of_ne same]
      by_cases otherAligned : other % 8 = 0
      · apply words_congr
        · exact fun _ _ _ => rfl
        · exact fun byte _ _ _ => Bytes.store64_outside (by omega)
      · simp [words, otherAligned]

/-- Mapping fresh pages leaves the words alone that are there already. -/
theorem words_mmap (fresh : ∀ other, address ≤ other → other < address + length →
    space.mapped other = false) (found : space.words other = some word) :
    (space.mmap address length).words other = some word := by
  have mapped := (isSome_words.mp (by rw [found]; rfl)).2
  have outside : ∀ byte, other ≤ byte → byte < other + 8 →
      ¬ (address ≤ byte ∧ byte < address + length) := by
    rintro byte lower upper ⟨from_, until_⟩
    have := mapped byte lower upper
    rw [fresh byte from_ until_] at this
    contradiction
  rw [← found]
  apply words_congr
  · intro byte lower upper
    simp [mmap, outside byte lower upper]
  · intro byte lower upper _
    exact Bytes.memset_outside (by have := outside byte lower upper; omega)

theorem isSome_words_mmap (aligned : other % 8 = 0) (lower : address ≤ other)
    (upper : other + 8 ≤ address + length) :
    ((space.mmap address length).words other).isSome := by
  apply isSome_words.mpr
  refine ⟨aligned, fun byte from_ until_ => ?_⟩
  simp only [mmap, Bool.or_eq_true, decide_eq_true_eq]
  exact Or.inl ⟨by omega, by omega⟩

/-- Unmapping pages leaves the words outside alone. -/
theorem words_munmap (outside : other + 8 ≤ address ∨ address + length ≤ other) :
    (space.munmap address length).words other = space.words other := by
  apply words_congr
  · intro byte lower upper
    have kept : decide (address ≤ byte ∧ byte < address + length) = false :=
      decide_eq_false (by omega)
    simp only [munmap, kept, Bool.not_false, Bool.true_and]
  · exact fun _ _ _ _ => rfl

end AddressSpace

/-! ## Lists -/

/-- The words that `list_del` leaves in the entry it deletes. -/
def listPoison1 : Nat := 0xf000000000100100

def listPoison2 : Nat := 0xf000000000200200

namespace AddressSpace

/-- `INIT_LIST_HEAD` -/
def initListHead (space : AddressSpace) (list : Nat) : Option AddressSpace := do
  let space ← space.store list list
  space.store (list + 8) list

/-- `list_add`, with the arguments of `__list_add` read first. -/
def listAdd (space : AddressSpace) (nelm head : Nat) : Option AddressSpace := do
  let next ← space.load head
  let space ← space.store (next + 8) nelm
  let space ← space.store nelm next
  let space ← space.store (nelm + 8) head
  space.store head nelm

/-- `list_del` -/
def listDel (space : AddressSpace) (entry : Nat) : Option AddressSpace := do
  let prev ← space.load (entry + 8)
  let next ← space.load entry
  let space ← space.store (next + 8) prev
  let space ← space.store prev next
  let space ← space.store entry listPoison1
  space.store (entry + 8) listPoison2

/--
`list_for_each_entry` from the entry at `pos`, for a body that returns the first entry that
passes a test.
-/
def listFind (space : AddressSpace) (head : Nat) (test : Nat → Bool) :
    Nat → (pos : Nat) → Option (Option Nat)
  | 0, _ => none
  | fuel + 1, pos => do
      let next ← space.load pos
      if pos = head then
        some none
      else if test pos then
        some (some pos)
      else
        listFind space head test fuel next

end AddressSpace

/-- The nodes from `node` through `entries` to `last` are linked both ways. -/
def Linked (words : Nat → Option Nat) (node : Nat) : List Nat → (last : Nat) → Prop
  | [], last => words node = some last ∧ words (last + 8) = some node
  | entry :: entries, last =>
      words node = some entry ∧ words (entry + 8) = some node ∧ Linked words entry entries last

/-- The two list heads do not overlap. -/
def NodesApart (node node' : Nat) : Prop :=
  node + 16 ≤ node' ∨ node' + 16 ≤ node

namespace Linked

variable {words words' : Nat → Option Nat} {node last entry : Nat}
  {entries before after : List Nat}

/-- A stretch depends on the pointers forward from its nodes and back to them. -/
theorem congr (linked : Linked words node entries last)
    (next : ∀ other ∈ node :: entries, words' other = words other)
    (prev : ∀ other ∈ entries ++ [last], words' (other + 8) = words (other + 8)) :
    Linked words' node entries last := by
  induction entries generalizing node with
  | nil => exact ⟨(next node (by simp)).trans linked.1, (prev last (by simp)).trans linked.2⟩
  | cons entry entries ih =>
      rcases linked with ⟨forward, back, rest⟩
      refine ⟨(next node (by simp)).trans forward, (prev entry (by simp)).trans back, ?_⟩
      apply ih rest
      · exact fun other member => next other (List.mem_cons_of_mem _ member)
      · exact fun other member => prev other (List.mem_cons_of_mem _ member)

/-- A stretch stays as long as the words that are there stay. -/
theorem mono (linked : Linked words node entries last)
    (kept : ∀ address word, words address = some word → words' address = some word) :
    Linked words' node entries last := by
  induction entries generalizing node with
  | nil => exact ⟨kept _ _ linked.1, kept _ _ linked.2⟩
  | cons entry entries ih =>
      exact ⟨kept _ _ linked.1, kept _ _ linked.2.1, ih linked.2.2⟩

theorem append_iff :
    Linked words node (before ++ entry :: after) last ↔
      Linked words node before entry ∧ Linked words entry after last := by
  induction before generalizing node with
  | nil => simp [Linked, and_assoc]
  | cons other before ih => simp [Linked, ih, and_assoc]

/-- The first node of a stretch after its start. -/
theorem first (linked : Linked words node entries last) :
    words node = some ((entries ++ [last]).head (by simp)) ∧
      words ((entries ++ [last]).head (by simp) + 8) = some node := by
  cases entries with
  | nil => exact linked
  | cons entry entries => exact ⟨linked.1, linked.2.1⟩

/-- The last node of a stretch before its end. -/
theorem prev_last (linked : Linked words node entries last) :
    words ((node :: entries).getLast (by simp)) = some last ∧
      words (last + 8) = some ((node :: entries).getLast (by simp)) := by
  induction entries generalizing node with
  | nil => exact linked
  | cons entry entries ih => exact ih linked.2.2

/-- Taking an entry out of a stretch by linking its neighbours. -/
theorem remove (words' : Nat → Option Nat) (left : Linked words node before entry)
    (right : Linked words entry after last)
    (nodup : (node :: before ++ after).Nodup) (inner : last ∉ before ++ after)
    (forward : words' ((node :: before).getLast (by simp)) =
      some ((after ++ [last]).head (by simp)))
    (back : words' ((after ++ [last]).head (by simp) + 8) =
      some ((node :: before).getLast (by simp)))
    (next : ∀ other ∈ node :: before ++ after, other ≠ (node :: before).getLast (by simp) →
      words' other = words other)
    (prev : ∀ other ∈ before ++ after ++ [last], other ≠ (after ++ [last]).head (by simp) →
      words' (other + 8) = words (other + 8)) :
    Linked words' node (before ++ after) last := by
  induction before generalizing node with
  | nil =>
      cases after with
      | nil => exact ⟨forward, back⟩
      | cons entry' after =>
          refine ⟨forward, back, right.2.2.congr ?_ ?_⟩
          · intro other member
            apply next other (by simp_all)
            rintro rfl
            simp at nodup
            simp_all
          · intro other member
            apply prev other (by simp_all)
            rintro rfl
            simp_all
  | cons entry' before ih =>
      rcases left with ⟨nodeForward, entryBack, rest⟩
      have lastMem := List.getLast_mem (List.cons_ne_nil entry' before)
      have headMem := List.head_mem (l := after ++ [last]) (by simp)
      simp only [List.cons_append, List.nodup_cons, List.mem_cons, List.mem_append, not_or]
        at nodup inner
      refine ⟨?_, ?_, ?_⟩
      · rw [next node (by simp)]
        · exact nodeForward
        · intro same
          rw [List.getLast_cons (List.cons_ne_nil _ _)] at same
          rw [← same, List.mem_cons] at lastMem
          tauto
      · rw [prev entry' (by simp)]
        · exact entryBack
        · intro same
          rw [← same, List.mem_append, List.mem_singleton] at headMem
          rcases headMem with member | rfl <;> tauto
      · apply ih rest _ _ forward back
        · exact fun other member => next other (List.mem_cons_of_mem _ member)
        · exact fun other member => prev other (List.mem_cons_of_mem _ member)
        · simp only [List.cons_append, List.nodup_cons, List.mem_append, not_or]
          tauto
        · simp only [List.mem_append, not_or]
          tauto

end Linked

/-! ## Adding and deleting entries -/

section Operations

variable {space : AddressSpace} {head nelm entry address node node' word : Nat}
  {nodes entries before after : List Nat} {words : Nat → Option Nat}

instance : Std.Symm NodesApart :=
  ⟨fun _ _ apart => Or.symm apart⟩

/-- A node is never where another one, or it itself, has its pointer back. -/
theorem ne_back (apart : nodes.Pairwise NodesApart) (member : node ∈ nodes)
    (member' : node' ∈ nodes) : node ≠ node' + 8 := by
  by_cases same : node = node'
  · omega
  · have := apart.forall member member' same
    unfold NodesApart at this
    omega

theorem nodup_of_apart (apart : nodes.Pairwise NodesApart) : nodes.Nodup := by
  apply apart.imp
  rintro node node' apart rfl
  unfold NodesApart at apart
  omega

theorem isSome_update (found : (words node).isSome) :
    (Function.update words address (some word) node).isSome := by
  by_cases same : node = address
  · subst same
    simp
  · simpa [same] using found

/-- A new entry goes to the front of the list; words that belong to no node stay as they are. -/
theorem listAdd_spec (circle : Linked space.words head entries head)
    (wholeApart : (nelm :: head :: entries).Pairwise NodesApart)
    (bounded : ∀ node ∈ nelm :: head :: entries, node < 2 ^ 64)
    (nextOpen : (space.words nelm).isSome) (prevOpen : (space.words (nelm + 8)).isSome) :
    ∃ space', space.listAdd nelm head = some space' ∧ space'.mapped = space.mapped ∧
      Linked space'.words head (nelm :: entries) head ∧
      ∀ address, (∀ node ∈ nelm :: head :: entries, address ≠ node ∧ address ≠ node + 8) →
        space'.words address = space.words address := by
  have firstEntry := circle.first
  generalize equal : (entries ++ [head]).head (by simp) = next at firstEntry
  rcases firstEntry with ⟨forward, back⟩
  have nextInner : next ∈ head :: entries := by
    have := List.head_mem (l := entries ++ [head]) (by simp)
    rw [equal] at this
    simpa [or_comm] using this
  have nextMem : next ∈ nelm :: head :: entries := List.mem_cons_of_mem _ nextInner
  have nelmMem : nelm ∈ nelm :: head :: entries := by simp
  have headMem : head ∈ nelm :: head :: entries := by simp
  rcases space.exists_store (next + 8) _ (by rw [back]; rfl) (bounded nelm nelmMem)
    with ⟨space1, store1, words1, mapped1⟩
  rcases space1.exists_store nelm _ (by rw [words1]; exact isSome_update nextOpen)
    (bounded next nextMem) with ⟨space2, store2, words2, mapped2⟩
  rcases space2.exists_store (nelm + 8) _
    (by rw [words2, words1]; exact isSome_update (isSome_update prevOpen)) (bounded head headMem)
    with ⟨space3, store3, words3, mapped3⟩
  rcases space3.exists_store head _
    (by rw [words3, words2, words1]
        exact isSome_update (isSome_update (isSome_update (by rw [forward]; rfl))))
    (bounded nelm nelmMem) with ⟨space4, store4, words4, mapped4⟩
  have frame : ∀ address, address ≠ head → address ≠ nelm + 8 → address ≠ nelm →
      address ≠ next + 8 → space4.words address = space.words address := by
    intro address h1 h2 h3 h4
    rw [words4, Function.update_of_ne h1, words3, Function.update_of_ne h2, words2,
      Function.update_of_ne h3, words1, Function.update_of_ne h4]
  have nodup := nodup_of_apart wholeApart
  have nextNe : next ≠ nelm := by
    rintro rfl
    exact (List.nodup_cons.mp nodup).1 nextInner
  simp only [List.nodup_cons, List.mem_cons, not_or] at nodup
  have headNext : space4.words head = some nelm := by
    rw [words4, Function.update_self]
  have nelmPrev : space4.words (nelm + 8) = some head := by
    rw [words4, Function.update_of_ne (ne_back wholeApart headMem nelmMem).symm, words3,
      Function.update_self]
  have nelmNext : space4.words nelm = some next := by
    rw [words4, Function.update_of_ne nodup.1.1, words3,
      Function.update_of_ne (ne_back wholeApart nelmMem nelmMem), words2, Function.update_self]
  have nextPrev : space4.words (next + 8) = some nelm := by
    rw [words4, Function.update_of_ne (ne_back wholeApart headMem nextMem).symm, words3,
      Function.update_of_ne (by omega), words2,
      Function.update_of_ne (ne_back wholeApart nelmMem nextMem).symm, words1,
      Function.update_self]
  refine ⟨space4, ?_, ?_, ?_, ?_⟩
  · simp [AddressSpace.listAdd, AddressSpace.load_of_words forward, store1, store2, store3, store4]
  · rw [mapped4, mapped3, mapped2, mapped1]
  · refine ⟨headNext, nelmPrev, ?_⟩
    cases entries with
    | nil =>
        obtain rfl : head = next := equal
        exact ⟨nelmNext, nextPrev⟩
    | cons entry entries =>
        obtain rfl : entry = next := equal
        refine ⟨nelmNext, nextPrev, circle.2.2.congr ?_ ?_⟩
        · intro other member
          have otherMem : other ∈ nelm :: head :: entry :: entries := by simp_all
          apply frame
          · rintro rfl
            simp_all
          · exact ne_back wholeApart otherMem nelmMem
          · rintro rfl
            simp_all
          · exact ne_back wholeApart otherMem nextMem
        · intro other member
          have otherMem : other ∈ nelm :: head :: entry :: entries := by
            simp only [List.mem_append, List.mem_cons] at member ⊢
            tauto
          apply frame
          · exact (ne_back wholeApart headMem otherMem).symm
          · intro same
            obtain rfl : other = nelm := by omega
            simp_all
          · exact (ne_back wholeApart nelmMem otherMem).symm
          · intro same
            obtain rfl : other = entry := by omega
            simp_all
  · intro address other
    exact frame address (other head headMem).1 (other nelm nelmMem).2 (other nelm nelmMem).1
      (other next nextMem).2

/-- Deleting an entry links its neighbours; words that belong to no node stay as they are. -/
theorem listDel_spec (circle : Linked space.words head (before ++ entry :: after) head)
    (apart : (head :: before ++ entry :: after).Pairwise NodesApart)
    (bounded : ∀ node ∈ head :: before ++ entry :: after, node < 2 ^ 64) :
    ∃ space', space.listDel entry = some space' ∧ space'.mapped = space.mapped ∧
      Linked space'.words head (before ++ after) head ∧
      ∀ address, (∀ node ∈ head :: before ++ entry :: after,
        address ≠ node ∧ address ≠ node + 8) → space'.words address = space.words address := by
  rcases Linked.append_iff.mp circle with ⟨left, right⟩
  have leftEnd := left.prev_last
  have rightStart := right.first
  have remove := fun words' => Linked.remove words' left right
  generalize equal : (head :: before).getLast (by simp) = prev at leftEnd remove
  generalize equal' : (after ++ [head]).head (by simp) = next at rightStart remove
  have prevInner : prev ∈ head :: before := equal ▸ List.getLast_mem _
  have nextInner : next ∈ after ++ [head] := equal' ▸ List.head_mem _
  have prevMem : prev ∈ head :: before ++ entry :: after := List.mem_append_left _ prevInner
  have nextMem : next ∈ head :: before ++ entry :: after := by
    simp only [List.mem_append, List.mem_cons, List.not_mem_nil, or_false] at nextInner ⊢
    tauto
  have entryMem : entry ∈ head :: before ++ entry :: after := by simp
  obtain ⟨outside, nodup⟩ := List.nodup_cons.mp (List.nodup_middle.mp (nodup_of_apart apart))
  have nextNe : next ≠ entry := by
    rintro rfl
    apply outside
    simp only [List.mem_append, List.mem_cons, List.not_mem_nil, or_false] at nextInner ⊢
    tauto
  have prevNe : prev ≠ entry := by
    rintro rfl
    exact outside (List.mem_append_left _ prevInner)
  rcases space.exists_store (next + 8) _ (by rw [rightStart.2]; rfl)
    (bounded prev prevMem) with ⟨space1, store1, words1, mapped1⟩
  rcases space1.exists_store prev _
    (by rw [words1]; exact isSome_update (by rw [leftEnd.1]; rfl)) (bounded next nextMem)
    with ⟨space2, store2, words2, mapped2⟩
  rcases space2.exists_store entry listPoison1
    (by rw [words2, words1]
        exact isSome_update (isSome_update (by rw [rightStart.1]; rfl))) (by decide)
    with ⟨space3, store3, words3, mapped3⟩
  rcases space3.exists_store (entry + 8) listPoison2
    (by rw [words3, words2, words1]
        exact isSome_update (isSome_update (isSome_update (by rw [leftEnd.2]; rfl)))) (by decide)
    with ⟨space4, store4, words4, mapped4⟩
  have frame : ∀ address, address ≠ entry + 8 → address ≠ entry → address ≠ prev →
      address ≠ next + 8 → space4.words address = space.words address := by
    intro address h1 h2 h3 h4
    rw [words4, Function.update_of_ne h1, words3, Function.update_of_ne h2, words2,
      Function.update_of_ne h3, words1, Function.update_of_ne h4]
  have prevNext : space4.words prev = some next := by
    rw [words4, Function.update_of_ne (ne_back apart prevMem entryMem), words3,
      Function.update_of_ne prevNe, words2, Function.update_self]
  have nextPrev : space4.words (next + 8) = some prev := by
    rw [words4, Function.update_of_ne (by omega), words3,
      Function.update_of_ne (ne_back apart entryMem nextMem).symm, words2,
      Function.update_of_ne (ne_back apart prevMem nextMem).symm, words1, Function.update_self]
  refine ⟨space4, ?_, ?_, ?_, ?_⟩
  · simp [AddressSpace.listDel, AddressSpace.load_of_words leftEnd.2,
      AddressSpace.load_of_words rightStart.1, store1, store2, store3, store4]
  · rw [mapped4, mapped3, mapped2, mapped1]
  · apply remove space4.words nodup (List.nodup_cons.mp nodup).1 prevNext nextPrev
    · intro other member different
      have otherMem : other ∈ head :: before ++ entry :: after := by
        simp only [List.cons_append, List.mem_append, List.mem_cons] at member ⊢
        tauto
      apply frame
      · exact ne_back apart otherMem entryMem
      · rintro rfl
        exact outside member
      · exact different
      · exact ne_back apart otherMem nextMem
    · intro other member different
      have inner : other ∈ head :: before ++ after := by
        simp only [List.cons_append, List.mem_append, List.mem_cons, List.not_mem_nil, or_false]
          at member ⊢
        tauto
      have otherMem : other ∈ head :: before ++ entry :: after := by
        simp only [List.cons_append, List.mem_append, List.mem_cons] at inner ⊢
        tauto
      apply frame
      · intro same
        obtain rfl : other = entry := by omega
        exact outside inner
      · exact (ne_back apart entryMem otherMem).symm
      · exact (ne_back apart prevMem otherMem).symm
      · intro same
        exact different (by omega)
  · intro address other
    exact frame address (other entry entryMem).2 (other entry entryMem).1 (other prev prevMem).1
      (other next nextMem).2

/-- The walk ends at the head, so it finds the first entry of the list that passes the test. -/
theorem listFind_spec (test : Nat → Bool) (fuel : Nat)
    (linked : Linked space.words node entries head) (headOpen : (space.words head).isSome)
    (inner : head ∉ entries) (enough : entries.length < fuel) :
    space.listFind head test fuel ((entries ++ [head]).head (by simp)) =
      some (entries.find? test) := by
  induction entries generalizing node fuel with
  | nil =>
      rcases fuel with _ | fuel
      · simp at enough
      · rcases Option.isSome_iff_exists.mp headOpen with ⟨word, found⟩
        simp [AddressSpace.listFind, AddressSpace.load_of_words found]
  | cons entry entries ih =>
      rcases fuel with _ | fuel
      · simp at enough
      · have next := AddressSpace.load_of_words linked.2.2.first.1
        simp only [List.mem_cons, not_or] at inner
        have notHead : entry ≠ head := Ne.symm inner.1
        by_cases passes : test entry = true
        · simp [AddressSpace.listFind, next, notHead, passes]
        · have rest := ih fuel linked.2.2 inner.2 (by simpa using enough)
          simp [AddressSpace.listFind, next, notHead, passes, rest]

end Operations

end Memory
