import Mathlib.Data.List.Nodup
import Mathlib.Logic.Function.Basic

/-!
# Doubly linked lists

A list whose nodes know their neighbors, with null links at both ends. `Linked` follows the
links of one direction; a doubly linked list is linked forward, and backward as its reverse,
so a lemma about one direction serves for both.
-/

namespace DoublyLinked

universe u

variable {Node : Type u}

/-- Following `next` from `head` visits the nodes, and then arrives at `stop`. -/
def Linked (next : Node → Option Node) : Option Node → List Node → Option Node → Prop
  | head, [], stop => head = stop
  | head, node :: rest, stop => head = some node ∧ Linked next (next node) rest stop

/-- The two directions and the two ends describe the same list. -/
structure Describes (next prev : Node → Option Node) (head tail : Option Node)
    (nodes : List Node) : Prop where
  nodup : nodes.Nodup
  forward : Linked next head nodes none
  backward : Linked prev tail nodes.reverse none

namespace Linked

variable {next next' : Node → Option Node} {head stop middle : Option Node}
  {node : Node} {nodes before after : List Node}

theorem append_iff : Linked next head (before ++ after) stop ↔
    ∃ middle, Linked next head before middle ∧ Linked next middle after stop := by
  induction before generalizing head with
  | nil => simp [Linked]
  | cons first rest ih => simp [Linked, ih, and_assoc]

/-- Only the links of the nodes matter. -/
theorem congr (linked : Linked next head nodes stop)
    (same : ∀ node ∈ nodes, next' node = next node) : Linked next' head nodes stop := by
  induction nodes generalizing head with
  | nil => exact linked
  | cons first rest ih =>
      rcases linked with ⟨rfl, linked⟩
      refine ⟨rfl, ?_⟩
      rw [same first List.mem_cons_self]
      exact ih linked fun node member => same node (List.mem_cons_of_mem _ member)

theorem head_eq (linked : Linked next head nodes none) : head = nodes.head? := by
  cases nodes with
  | nil => exact linked
  | cons first rest => exact linked.1

/-- The link of a node that others follow. -/
theorem next_eq (linked : Linked next head (before ++ node :: after) none) :
    next node = after.head? := by
  rcases append_iff.mp linked with ⟨middle, _, _, rest⟩
  exact rest.head_eq

/-- The last node of a part of the list may link to something else. -/
theorem relink_last (linked : Linked next head before stop) (nodup : before.Nodup)
    (same : ∀ other ∈ before, before.getLast? ≠ some other → next' other = next other)
    (last : ∀ other, before.getLast? = some other → next' other = middle)
    (empty : before = [] → head = middle) : Linked next' head before middle := by
  rcases List.eq_nil_or_concat before with rfl | ⟨front, other, rfl⟩
  · exact empty rfl
  · rw [List.concat_eq_append] at linked nodup same last ⊢
    rcases append_iff.mp linked with ⟨_, linked, rfl, _⟩
    refine append_iff.mpr ⟨some other, linked.congr fun node member => ?_, rfl, ?_⟩
    · refine same node (List.mem_append_left _ member) ?_
      rw [List.getLast?_concat]
      rintro ⟨rfl⟩
      rw [List.nodup_append] at nodup
      exact nodup.2.2 _ member _ List.mem_cons_self rfl
    · exact last other (List.getLast?_concat ..)

/-- A node is taken out: the one before it, or else the head, takes over its link. -/
theorem remove (linked : Linked next head (before ++ node :: after) stop)
    (nodup : (before ++ node :: after).Nodup)
    (same : ∀ other ∈ before ++ after, before.getLast? ≠ some other → next' other = next other)
    (last : ∀ other, before.getLast? = some other → next' other = next node) :
    Linked next' (if before = [] then next node else head) (before ++ after) stop := by
  rcases append_iff.mp linked with ⟨middle, front, rfl, back⟩
  have apart := List.nodup_append.mp nodup
  have untouched : Linked next' (next node) after stop := by
    refine back.congr fun other member => same other (List.mem_append_right _ member) ?_
    intro isLast
    have inFront := List.mem_of_getLast? isLast
    exact apart.2.2 other inFront other (List.mem_cons_of_mem _ member) rfl
  refine append_iff.mpr ⟨next node, ?_, untouched⟩
  by_cases empty : before = []
  · rw [if_pos empty, empty]
    rfl
  · rw [if_neg empty]
    exact front.relink_last apart.1
      (fun other member => same other (List.mem_append_left _ member)) last
      (fun isEmpty => absurd isEmpty empty)

/-- A node is put behind the others. -/
theorem concat (linked : Linked next head nodes stop) (nodup : nodes.Nodup)
    (same : ∀ other ∈ nodes, nodes.getLast? ≠ some other → next' other = next other)
    (last : ∀ other, nodes.getLast? = some other → next' other = some node)
    (new : next' node = stop) :
    Linked next' (if nodes = [] then some node else head) (nodes ++ [node]) stop := by
  refine append_iff.mpr ⟨some node, ?_, rfl, new⟩
  by_cases empty : nodes = []
  · rw [if_pos empty, empty]
    rfl
  · rw [if_neg empty]
    exact linked.relink_last nodup same last fun isEmpty => absurd isEmpty empty

end Linked

namespace Describes

variable {next prev next' prev' : Node → Option Node} {head tail : Option Node} {node : Node}
  {nodes before after : List Node}

theorem nil : Describes next prev none none [] := ⟨List.nodup_nil, rfl, rfl⟩

/-- Read from the other end. -/
theorem reverse (describes : Describes next prev head tail nodes) :
    Describes prev next tail head nodes.reverse where
  nodup := List.nodup_reverse.mpr describes.nodup
  forward := describes.backward
  backward := by
    rw [List.reverse_reverse]
    exact describes.forward

theorem congr (describes : Describes next prev head tail nodes)
    (sameNext : ∀ node ∈ nodes, next' node = next node)
    (samePrev : ∀ node ∈ nodes, prev' node = prev node) :
    Describes next' prev' head tail nodes where
  nodup := describes.nodup
  forward := describes.forward.congr sameNext
  backward := describes.backward.congr fun node member =>
    samePrev node (List.mem_reverse.mp member)

theorem head_eq (describes : Describes next prev head tail nodes) : head = nodes.head? :=
  describes.forward.head_eq

theorem tail_eq (describes : Describes next prev head tail nodes) : tail = nodes.getLast? := by
  rw [describes.backward.head_eq, List.head?_reverse]

theorem next_eq (describes : Describes next prev head tail (before ++ node :: after)) :
    next node = after.head? :=
  describes.forward.next_eq

theorem prev_eq (describes : Describes next prev head tail (before ++ node :: after)) :
    prev node = before.getLast? := by
  have backward := describes.backward
  rw [List.reverse_append, List.reverse_cons, List.append_assoc, List.singleton_append] at backward
  rw [backward.next_eq, List.head?_reverse]

/-- The list without a node, when its neighbors or else the ends take over its links. -/
theorem remove (describes : Describes next prev head tail (before ++ node :: after))
    (sameNext : ∀ other ∈ before ++ after, prev node ≠ some other → next' other = next other)
    (samePrev : ∀ other ∈ before ++ after, next node ≠ some other → prev' other = prev other)
    (newNext : ∀ other, prev node = some other → next' other = next node)
    (newPrev : ∀ other, next node = some other → prev' other = prev node) :
    Describes next' prev' (if prev node = none then next node else head)
      (if next node = none then prev node else tail) (before ++ after) := by
  have isPrev := describes.prev_eq
  have isNext := describes.next_eq
  have nodup := describes.nodup
  have forward := describes.forward
  have backward := describes.reverse.forward
  have nodup' := describes.reverse.nodup
  simp only [List.reverse_append, List.reverse_cons, List.append_assoc, List.singleton_append]
    at backward nodup'
  have first : (prev node = none) = (before = []) := by rw [isPrev, List.getLast?_eq_none_iff]
  have last : (next node = none) = (after.reverse = []) := by
    rw [isNext, List.head?_eq_none_iff, List.reverse_eq_nil_iff]
  simp only [first, last]
  refine ⟨nodup.sublist ?_, ?_, ?_⟩
  · exact List.Sublist.append (List.Sublist.refl _) (List.sublist_cons_self _ _)
  · rw [isPrev] at sameNext newNext
    exact forward.remove nodup sameNext newNext
  · rw [List.reverse_append]
    rw [isNext, ← List.getLast?_reverse] at samePrev newPrev
    refine backward.remove nodup' (fun other member => samePrev other ?_) newPrev
    rw [List.mem_append, List.mem_reverse, List.mem_reverse] at member
    exact List.mem_append.mpr member.symm

/-- The list with one more node at its end. -/
theorem concat (describes : Describes next prev head tail nodes) (fresh : node ∉ nodes)
    (sameNext : ∀ other ∈ nodes, tail ≠ some other → next' other = next other)
    (newNext : ∀ other, tail = some other → next' other = some node)
    (samePrev : ∀ other ∈ nodes, prev' other = prev other) (atEnd : next' node = none)
    (behind : prev' node = tail) :
    Describes next' prev' (if nodes = [] then some node else head) (some node)
      (nodes ++ [node]) := by
  have isTail := describes.tail_eq
  refine ⟨?_, ?_, ?_⟩
  · rw [List.nodup_append]
    refine ⟨describes.nodup, List.nodup_singleton _, ?_⟩
    rintro other member _ last rfl
    rw [List.mem_singleton.mp last] at member
    exact fresh member
  · rw [isTail] at sameNext newNext
    exact describes.forward.concat describes.nodup sameNext newNext atEnd
  · rw [List.reverse_append, List.reverse_singleton, List.singleton_append]
    refine ⟨rfl, ?_⟩
    rw [behind]
    exact describes.backward.congr fun other member => samePrev other (List.mem_reverse.mp member)

end Describes

end DoublyLinked
