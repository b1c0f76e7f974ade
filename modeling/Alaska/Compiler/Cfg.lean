import Alaska.Lib.Liveness
import Mathlib.Data.List.Enum

/-!
# Control flow

The functions that the passes analyse. A block is a list of instructions, of which the last
one is the terminator; a point is an instruction by its block and its position there.
-/

namespace Alaska

open Liveness

/-- How control leaves a block, by the numbers of the blocks it may go to. -/
inductive Terminator where
  | br (successors : List Nat)
  | switch (defaultDest : Nat) (caseSuccessors : List Nat)
  | invoke (normalDest unwindDest : Nat)
  | other (successors : List Nat)
  deriving DecidableEq

/-- `successors`, all edges out of the block. -/
def Terminator.successors : Terminator → List Nat
  | .br successors => successors
  | .switch defaultDest caseSuccessors => defaultDest :: caseSuccessors
  | .invoke normalDest unwindDest => [normalDest, unwindDest]
  | .other successors => successors

structure Block (Inst : Type) where
  body : List Inst
  last : Inst
  terminator : Terminator

/-- The instructions of a block. -/
def Block.insts {Inst : Type} (block : Block Inst) : List Inst := block.body ++ [block.last]

/-- A function; control starts at the first block and stays among the blocks. -/
structure Cfg (Inst : Type) where
  blocks : List (Block Inst)
  nonempty : blocks ≠ []
  closed : ∀ block ∈ blocks, ∀ target ∈ block.terminator.successors, target < blocks.length

/-- A block and a position in it. -/
abbrev Point := Nat × Nat

namespace Cfg

variable {Inst : Type} {f : Cfg Inst} {p q : Point} {edges : Terminator → List Nat}

/-- The block of a point of the function. -/
structure At (f : Cfg Inst) (p : Point) (block : Block Inst) : Prop where
  isBlock : f.blocks[p.1]? = some block
  position : p.2 ≤ block.body.length

/-- `instructions`, the points of a function in their order. -/
def instructions (f : Cfg Inst) : List Point :=
  f.blocks.zipIdx.flatMap fun (block, b) =>
    (List.range (block.body.length + 1)).map fun i => (b, i)

def points (f : Cfg Inst) : Finset Point := f.instructions.toFinset

/-- The instruction at a point. -/
def inst (f : Cfg Inst) (p : Point) : Option Inst :=
  f.blocks[p.1]?.bind fun block => block.insts[p.2]?

def entry : Point := (0, 0)

/-- The points that control goes to when a terminator leads where `edges` says. -/
def succ (f : Cfg Inst) (edges : Terminator → List Nat) (p : Point) : List Point :=
  match f.blocks[p.1]? with
  | none => []
  | some block =>
      if p.2 < block.body.length then
        [(p.1, p.2 + 1)]
      else if p.2 = block.body.length then
        (edges block.terminator).map fun b => (b, 0)
      else
        []

/-- The point before, or the terminators of the blocks before. -/
def pred (f : Cfg Inst) (p : Point) : List Point :=
  if 0 < p.2 then
    [(p.1, p.2 - 1)]
  else
    f.blocks.zipIdx.filterMap fun (block, b) =>
      if p.1 ∈ block.terminator.successors then some (b, block.body.length) else none

/-- The blocks that control goes to from a block. -/
def successors (f : Cfg Inst) (b : Nat) : List Nat :=
  f.blocks[b]?.elim [] fun block => block.terminator.successors

/-- The blocks from which control goes to a block. -/
def predecessors (f : Cfg Inst) (b : Nat) : List Nat :=
  f.blocks.zipIdx.filterMap fun (block, other) =>
    if b ∈ block.terminator.successors then some other else none

/-- Is the point the terminator of its block? -/
def isTerminator (f : Cfg Inst) (p : Point) : Bool :=
  match f.blocks[p.1]? with
  | none => false
  | some block => decide (p.2 = block.body.length)

theorem mem_instructions : p ∈ f.instructions ↔ ∃ block, f.At p block := by
  simp only [instructions, List.mem_flatMap, List.mem_map, List.mem_range, Prod.exists,
    List.mem_zipIdx_iff_getElem?]
  constructor
  · rintro ⟨block, b, isBlock, i, lt, rfl⟩
    exact ⟨block, isBlock, Nat.lt_succ_iff.mp lt⟩
  · rintro ⟨block, isBlock, le⟩
    exact ⟨block, p.1, isBlock, p.2, Nat.lt_succ_iff.mpr le, rfl⟩

theorem instructions_nodup (f : Cfg Inst) : f.instructions.Nodup := by
  refine List.nodup_flatMap.mpr ⟨fun _ _ => ?_, ?_⟩
  · exact List.nodup_range.map fun i j same => (Prod.mk.injEq ..).mp same |>.2
  · have distinct : (f.blocks.zipIdx.map Prod.snd).Nodup := by
      rw [List.zipIdx_map_snd]
      exact List.nodup_range'
    refine (List.pairwise_map.mp distinct).imp fun ne p first second => ?_
    rcases List.mem_map.mp first with ⟨i, _, rfl⟩
    rcases List.mem_map.mp second with ⟨j, _, same⟩
    exact ne ((Prod.mk.injEq ..).mp same).1.symm

theorem mem_points : p ∈ f.points ↔ ∃ block, f.At p block :=
  List.mem_toFinset.trans mem_instructions

theorem exists_entry (f : Cfg Inst) : ∃ block, f.At entry block := by
  cases blocks : f.blocks with
  | nil => exact absurd blocks f.nonempty
  | cons block rest => exact ⟨block, by rw [blocks]; rfl, Nat.zero_le _⟩

/-- An edge inside a block, or from its terminator to the start of another one. -/
theorem mem_succ : q ∈ f.succ edges p ↔ ∃ block, f.blocks[p.1]? = some block ∧
    (p.2 < block.body.length ∧ q = (p.1, p.2 + 1) ∨
      p.2 = block.body.length ∧ ∃ b ∈ edges block.terminator, q = (b, 0)) := by
  unfold succ
  cases f.blocks[p.1]? with
  | none => simp
  | some block =>
      simp only [Option.some.injEq, exists_eq_left']
      split
      · next inside => simp [inside, inside.ne]
      · next outside =>
          split
          · next last => simp [last, eq_comm]
          · next beyond => simp [outside, beyond]

theorem exists_at_of_succ (next : q ∈ f.succ edges p) : ∃ block, f.At p block := by
  rcases mem_succ.mp next with ⟨block, isBlock, ⟨lt, _⟩ | ⟨last, _⟩⟩
  · exact ⟨block, isBlock, lt.le⟩
  · exact ⟨block, isBlock, last.le⟩

/-- A point that is not at the start of its block is only reached from the one before it. -/
theorem eq_of_mem_succ {b i : Nat} (next : (b, i + 1) ∈ f.succ edges p) : p = (b, i) := by
  rcases mem_succ.mp next with ⟨block, _, ⟨_, same⟩ | ⟨_, target, _, same⟩⟩
  · rw [Prod.mk.injEq, Nat.add_right_cancel_iff] at same
    exact Prod.ext same.1.symm same.2.symm
  · cases same

/-- A point that is no terminator has one successor. -/
theorem succ_of_not_terminator (inside : f.isTerminator p = false) (next : q ∈ f.succ edges p) :
    f.succ edges p = [q] := by
  rcases mem_succ.mp next with ⟨block, isBlock, ⟨lt, rfl⟩ | ⟨last, _⟩⟩
  · simp [succ, isBlock, lt]
  · simp [isTerminator, isBlock, last] at inside

theorem exists_at_of_mem_succ (subset : ∀ t, edges t ⊆ t.successors) (next : q ∈ f.succ edges p) :
    ∃ block, f.At q block := by
  rcases mem_succ.mp next with ⟨block, isBlock, ⟨lt, rfl⟩ | ⟨_, b, isEdge, rfl⟩⟩
  · exact ⟨block, isBlock, lt⟩
  · have inside := f.closed block (List.mem_of_getElem? isBlock) b (subset _ isEdge)
    exact ⟨f.blocks[b], List.getElem?_eq_getElem inside, Nat.zero_le _⟩

theorem mem_pred_of_mem_succ {block : Block Inst} (subset : ∀ t, edges t ⊆ t.successors)
    (isAt : f.At p block) (next : q ∈ f.succ edges p) : p ∈ f.pred q := by
  rcases mem_succ.mp next with ⟨other, isBlock, rest⟩
  obtain rfl := Option.some.inj (isAt.isBlock.symm.trans isBlock)
  rcases rest with ⟨lt, rfl⟩ | ⟨last, b, isEdge, rfl⟩
  · simp [pred]
  · simp only [pred, Nat.lt_irrefl, if_false, List.mem_filterMap, Prod.exists,
      Option.ite_none_right_eq_some, Option.some.injEq, List.mem_zipIdx_iff_getElem?]
    exact ⟨block, p.1, isBlock, subset _ isEdge, Prod.ext rfl last.symm⟩

theorem successors_lt (f : Cfg Inst) {b target : Nat} (edge : target ∈ f.successors b) :
    target < f.blocks.length := by
  unfold successors at edge
  cases isBlock : f.blocks[b]? with
  | none => simp [isBlock] at edge
  | some block =>
      rw [isBlock] at edge
      exact f.closed block (List.mem_of_getElem? isBlock) target edge

theorem mem_predecessors {b other : Nat} :
    other ∈ f.predecessors b ↔ ∃ block, f.blocks[other]? = some block ∧
      b ∈ block.terminator.successors := by
  simp [predecessors, List.mem_zipIdx_iff_getElem?]

theorem mem_predecessors_of_mem_successors {b target : Nat} (edge : target ∈ f.successors b) :
    b ∈ f.predecessors target := by
  unfold successors at edge
  cases isBlock : f.blocks[b]? with
  | none => simp [isBlock] at edge
  | some block =>
      rw [isBlock] at edge
      exact mem_predecessors.mpr ⟨block, isBlock, edge⟩

/-- A step inside a block, or to a block that control goes to from it. -/
theorem successors_of_mem_succ (next : q ∈ f.succ Terminator.successors p) :
    q = (p.1, p.2 + 1) ∨ ∃ b ∈ f.successors p.1, q = (b, 0) := by
  rcases mem_succ.mp next with ⟨block, isBlock, ⟨_, same⟩ | ⟨_, b, edge, same⟩⟩
  · exact Or.inl same
  · exact Or.inr ⟨b, by simpa [successors, isBlock] using edge, same⟩

theorem exists_at_of_mem_pred {block : Block Inst} (isAt : f.At p block) (before : q ∈ f.pred p) :
    ∃ other, f.At q other := by
  unfold pred at before
  split at before
  · next pos =>
      obtain rfl := List.mem_singleton.mp before
      exact ⟨block, isAt.isBlock, (Nat.pred_le _).trans isAt.position⟩
  · simp only [List.mem_filterMap, Prod.exists, Option.ite_none_right_eq_some, Option.some.injEq,
      List.mem_zipIdx_iff_getElem?] at before
    rcases before with ⟨other, b, isBlock, _, rfl⟩
    exact ⟨other, isBlock, Nat.le_refl _⟩

/-- A liveness analysis of the points along some of the edges. -/
def dataflow {Fact : Type} (f : Cfg Inst) (edges : Terminator → List Nat)
    (gen kill : Inst → Finset Fact) : System Point Fact where
  nodes := f.points
  succ := f.succ edges
  pred := f.pred
  gen := fun p => (f.inst p).elim ∅ gen
  kill := fun p => (f.inst p).elim ∅ kill

theorem dataflow_closed {Fact : Type} {gen kill : Inst → Finset Fact}
    (subset : ∀ t, edges t ⊆ t.successors) : (f.dataflow edges gen kill).Closed where
  succ := fun _ _ _ next => mem_points.mpr (exists_at_of_mem_succ subset next)
  pred := by
    intro p isPoint q before
    rcases mem_points.mp isPoint with ⟨block, isAt⟩
    exact mem_points.mpr (exists_at_of_mem_pred isAt before)
  mem_pred := by
    intro p isPoint q next
    rcases mem_points.mp isPoint with ⟨block, isAt⟩
    exact mem_pred_of_mem_succ subset isAt next

end Cfg

end Alaska
