import Alaska.Lib.Memory

/-!
# Sharded free lists

`ShardedFreeList.hpp` keeps two intrusive lists of free blocks: the owner of the blocks
pops and pushes `localFree`, everyone else pushes `remoteFree`, and the owner moves the
remote list over when the local one is empty. The links live in the blocks, so every
push writes memory. Operations are modelled one whole call at a time.
-/

namespace Alaska

open Memory LinkCells

universe u

/-- The list heads and the counters of the class; the null pointer is `0`. -/
structure ShardedFreeList where
  localFree : Nat := 0
  remoteFree : Nat := 0
  numLocalFree : Int := 0
  numRemoteFree : Int := 0
  deriving DecidableEq

namespace ShardedFreeList

variable {Cell : Type u} [LinkCells Cell]

def hasLocalFree (list : ShardedFreeList) : Bool := list.localFree != 0

def numFree (list : ShardedFreeList) : Int := list.numLocalFree + list.numRemoteFree

/-- `pop`: the popped block, null when the local list is empty. -/
def pop (list : ShardedFreeList) (mem : Nat → Cell) : Nat × ShardedFreeList :=
  if list.localFree ≠ 0 then
    (list.localFree,
      { list with
        numLocalFree := list.numLocalFree - 1
        localFree := next mem list.localFree })
  else
    (list.localFree, list)

def swap (list : ShardedFreeList) : ShardedFreeList :=
  if list.localFree ≠ 0 then
    list
  else
    { localFree := list.remoteFree
      remoteFree := 0
      numLocalFree := list.numLocalFree + list.numRemoteFree
      numRemoteFree := 0 }

def freeLocal (list : ShardedFreeList) (mem : Nat → Cell) (block : Nat) :
    ShardedFreeList × (Nat → Cell) :=
  ({ list with localFree := block, numLocalFree := list.numLocalFree + 1 },
    setNext mem block list.localFree)

def freeRemote (list : ShardedFreeList) (mem : Nat → Cell) (block : Nat) :
    ShardedFreeList × (Nat → Cell) :=
  ({ list with remoteFree := block, numRemoteFree := list.numRemoteFree + 1 },
    setNext mem block list.remoteFree)

/-- The two lists in memory are `locals` and `remotes`, and the counters count them. -/
structure Holds (list : ShardedFreeList) (mem : Nat → Cell) (locals remotes : List Nat) :
    Prop where
  localList : IsList mem list.localFree locals
  remoteList : IsList mem list.remoteFree remotes
  numLocal : list.numLocalFree = locals.length
  numRemote : list.numRemoteFree = remotes.length

namespace Holds

variable {list : ShardedFreeList} {mem mem' : Nat → Cell} {locals remotes : List Nat} {block : Nat}

theorem empty (mem : Nat → Cell) : ({} : ShardedFreeList).Holds mem [] [] := by
  constructor <;> rfl

theorem congr (holds : list.Holds mem locals remotes)
    (same : ∀ other ∈ locals ++ remotes, next mem' other = next mem other) :
    list.Holds mem' locals remotes where
  localList := holds.localList.congr fun _ member => same _ (List.mem_append_left _ member)
  remoteList := holds.remoteList.congr fun _ member => same _ (List.mem_append_right _ member)
  numLocal := holds.numLocal
  numRemote := holds.numRemote

theorem numFree_eq (holds : list.Holds mem locals remotes) :
    list.numFree = (locals ++ remotes).length := by
  simp [numFree, holds.numLocal, holds.numRemote]

theorem hasLocalFree_eq (holds : list.Holds mem locals remotes) :
    list.hasLocalFree = !locals.isEmpty := by
  cases locals with
  | nil => simp [hasLocalFree, IsList.nil_iff.mp holds.localList]
  | cons first rest =>
      rcases holds.localList with ⟨equal, nonzero, _⟩
      simp [hasLocalFree, equal, nonzero]

theorem pop_nil (holds : list.Holds mem [] remotes) : list.pop mem = (0, list) := by
  have : list.localFree = 0 := holds.localList
  simp [pop, this]

theorem pop_cons (holds : list.Holds mem (block :: locals) remotes) :
    (list.pop mem).1 = block ∧ block ≠ 0 ∧ (list.pop mem).2.Holds mem locals remotes := by
  rcases holds.localList with ⟨equal, nonzero, tail⟩
  have popped : list.localFree ≠ 0 := by rw [equal]; exact nonzero
  simp only [pop, if_pos popped]
  refine ⟨equal, nonzero, ?_⟩
  constructor
  · simpa [equal] using tail
  · exact holds.remoteList
  · simp [holds.numLocal]
  · exact holds.numRemote

theorem swap (holds : list.Holds mem [] remotes) : list.swap.Holds mem remotes [] := by
  have : list.localFree = 0 := holds.localList
  have counter : list.numLocalFree = 0 := holds.numLocal
  simp only [ShardedFreeList.swap, this, ne_eq, not_true_eq_false, if_false]
  constructor
  · exact holds.remoteList
  · rfl
  · simp [counter, holds.numRemote]
  · rfl

theorem freeLocal (holds : list.Holds mem locals remotes) (nonzero : block ≠ 0)
    (small : ∀ other ∈ locals ++ remotes, other < 2 ^ 64)
    (apart : ∀ other ∈ locals ++ remotes, Apart block other) :
    (list.freeLocal mem block).1.Holds (list.freeLocal mem block).2 (block :: locals) remotes where
  localList := holds.localList.push nonzero (fun _ member => small _ (List.mem_append_left _ member))
    fun _ member => apart _ (List.mem_append_left _ member)
  remoteList := holds.remoteList.congr fun _ member =>
    next_setNext_of_apart (apart _ (List.mem_append_right _ member))
  numLocal := by simp [ShardedFreeList.freeLocal, holds.numLocal]
  numRemote := holds.numRemote

theorem freeRemote (holds : list.Holds mem locals remotes) (nonzero : block ≠ 0)
    (small : ∀ other ∈ locals ++ remotes, other < 2 ^ 64)
    (apart : ∀ other ∈ locals ++ remotes, Apart block other) :
    (list.freeRemote mem block).1.Holds (list.freeRemote mem block).2
      locals (block :: remotes) where
  localList := holds.localList.congr fun _ member =>
    next_setNext_of_apart (apart _ (List.mem_append_left _ member))
  remoteList := holds.remoteList.push nonzero
    (fun _ member => small _ (List.mem_append_right _ member))
    fun _ member => apart _ (List.mem_append_right _ member)
  numLocal := holds.numLocal
  numRemote := by simp [ShardedFreeList.freeRemote, holds.numRemote]

end Holds

end ShardedFreeList

end Alaska
