import Alaska.Lib.DoublyLinked

/-!
# Circular lists

A circular doubly linked list with a node of its own at its start. Nothing is null in it, so
the links are total; in either direction they lead from the start through the other nodes and
back to the start.
-/

namespace DoublyLinked

/-- The links lead around through `nodes`, in both directions. -/
structure Circular {Node : Type*} (next prev : Node → Node) (start : Node) (nodes : List Node) :
    Prop where
  nodup : (start :: nodes).Nodup
  forward : Linked (fun node => some (next node)) (some start) (start :: nodes) (some start)
  backward :
    Linked (fun node => some (prev node)) (some start) (start :: nodes.reverse) (some start)

namespace Circular

universe u

variable {Node : Type u} {next prev next' prev' : Node → Node} {start node : Node}
  {nodes before after : List Node}

theorem nil (atNext : next start = start) (atPrev : prev start = start) :
    Circular next prev start [] :=
  ⟨List.nodup_singleton _, ⟨rfl, congrArg some atNext⟩, ⟨rfl, congrArg some atPrev⟩⟩

/-- Only the links of the nodes matter. -/
theorem congr (ring : Circular next prev start nodes)
    (sameNext : ∀ node ∈ start :: nodes, next' node = next node)
    (samePrev : ∀ node ∈ start :: nodes, prev' node = prev node) :
    Circular next' prev' start nodes where
  nodup := ring.nodup
  forward := ring.forward.congr fun node member => congrArg some (sameNext node member)
  backward := ring.backward.congr fun node member => congrArg some <| samePrev node <| by
    simpa using member

theorem reverse (ring : Circular next prev start nodes) :
    Circular prev next start nodes.reverse where
  nodup := by simpa using ring.nodup
  forward := ring.backward
  backward := by
    rw [List.reverse_reverse]
    exact ring.forward

/-- The node in front of the start is the last one. -/
theorem getLast?_eq (ring : Circular next prev start nodes) :
    (start :: nodes).getLast? = some (prev start) := by
  have backward := ring.backward.2
  rcases List.eq_nil_or_concat nodes with rfl | ⟨front, last, rfl⟩
  · exact backward.symm
  · rw [List.concat_eq_append] at backward ⊢
    rw [List.reverse_append] at backward
    rw [← List.cons_append, List.getLast?_concat]
    exact backward.1.symm

/-- The node behind one of the nodes. -/
theorem head?_eq (ring : Circular next prev start (before ++ node :: after)) :
    (after ++ [start]).head? = some (next node) := by
  have forward := ring.forward.2
  rcases Linked.append_iff.mp forward with ⟨_, _, _, rest⟩
  cases after with
  | nil => exact rest.symm
  | cons first others => exact rest.1.symm

/-- The node in front of one of the nodes. -/
theorem prev_eq (ring : Circular next prev start (before ++ node :: after)) :
    (start :: before).getLast? = some (prev node) := by
  have reversed := ring.reverse
  rw [List.reverse_append, List.reverse_cons, List.append_assoc, List.singleton_append] at reversed
  have first := reversed.head?_eq
  rw [← List.reverse_cons, List.head?_reverse] at first
  exact first

/-- A new node between the last one and the start. -/
theorem concat (ring : Circular next prev start nodes) (fresh : node ∉ start :: nodes)
    (sameNext : ∀ other ∈ start :: nodes, other ≠ prev start → next' other = next other)
    (newNext : next' (prev start) = node) (atEnd : next' node = start)
    (samePrev : ∀ other ∈ nodes, prev' other = prev other) (newPrev : prev' start = node)
    (behind : prev' node = prev start) : Circular next' prev' start (nodes ++ [node]) := by
  have isLast := ring.getLast?_eq
  refine ⟨?_, ?_, ?_⟩
  · rw [← List.cons_append, List.nodup_append]
    refine ⟨ring.nodup, List.nodup_singleton _, ?_⟩
    rintro other member _ last rfl
    rw [List.mem_singleton.mp last] at member
    exact fresh member
  · have grown : Linked (fun node => some (next' node))
        (if start :: nodes = [] then some node else some start) (start :: nodes ++ [node])
        (some start) := ring.forward.concat ring.nodup
      (fun other member ne => congrArg some (sameNext other member fun same =>
        ne (isLast.trans (congrArg some same.symm))))
      (fun other last => by
        obtain rfl := Option.some.inj (isLast.symm.trans last)
        exact congrArg some newNext)
      (congrArg some atEnd)
    rwa [if_neg (List.cons_ne_nil start nodes)] at grown
  · rw [List.reverse_append, List.reverse_singleton, List.singleton_append]
    refine ⟨rfl, congrArg some newPrev, ?_⟩
    change Linked _ (some (prev' node)) _ _
    rw [behind]
    exact ring.backward.2.congr fun other member =>
      congrArg some (samePrev other (List.mem_reverse.mp member))

/-- One direction without a node. -/
theorem forward_remove (ring : Circular next prev start (before ++ node :: after))
    (sameNext : ∀ other ∈ start :: before ++ after, other ≠ prev node → next' other = next other)
    (newNext : next' (prev node) = next node) :
    Linked (fun node => some (next' node)) (some start) (start :: (before ++ after))
      (some start) := by
  have isPrev := ring.prev_eq
  have nodup := ring.nodup
  have forward := ring.forward
  rw [← List.cons_append] at forward nodup
  have less : Linked (fun node => some (next' node))
      (if start :: before = [] then some (next node) else some start) (start :: before ++ after)
      (some start) := forward.remove nodup
    (fun other member ne => congrArg some (sameNext other member fun same =>
      ne (isPrev.trans (congrArg some same.symm))))
    (fun other last => by
      obtain rfl := Option.some.inj (isPrev.symm.trans last)
      exact congrArg some newNext)
  rwa [if_neg (List.cons_ne_nil start before)] at less

/-- The ring without a node, whose neighbors are linked to each other. -/
theorem remove (ring : Circular next prev start (before ++ node :: after))
    (sameNext : ∀ other ∈ start :: before ++ after, other ≠ prev node → next' other = next other)
    (newNext : next' (prev node) = next node)
    (samePrev : ∀ other ∈ start :: before ++ after, other ≠ next node → prev' other = prev other)
    (newPrev : prev' (next node) = prev node) : Circular next' prev' start (before ++ after) := by
  have reversed := ring.reverse
  rw [List.reverse_append, List.reverse_cons, List.append_assoc, List.singleton_append] at reversed
  refine ⟨ring.nodup.sublist ?_, ring.forward_remove sameNext newNext, ?_⟩
  · exact ((List.Sublist.refl before).append (List.sublist_cons_self node after)).cons_cons start
  · rw [List.reverse_append]
    refine reversed.forward_remove (fun other member => samePrev other ?_) newPrev
    simp only [List.cons_append, List.mem_cons, List.mem_append, List.mem_reverse] at member ⊢
    tauto

end Circular

end DoublyLinked
