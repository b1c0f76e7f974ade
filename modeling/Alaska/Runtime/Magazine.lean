import Alaska.Lib.CircularList
import Alaska.Lib.Run

/-!
# Magazines

`Magazine`, the pages of the heap that have one size class, or that are locality pages. Each
magazine is a ring through the `list_head`s of its pages that starts at a `list_head` of its
own. The `list_head`s are known by their addresses, and a page by the one that it has.
-/

namespace Alaska

open Lts DoublyLinked

/-- The two words of the `list_head`s, and the `m_count` of the magazines. -/
structure Magazines where
  next : Nat → Nat
  prev : Nat → Nat
  count : Nat → Int

namespace Magazines

/-- `INIT_LIST_HEAD`. -/
def initListHead (s : Magazines) (list : Nat) : Magazines :=
  { s with next := Function.update s.next list list, prev := Function.update s.prev list list }

/-- `__list_add`. -/
def insertBetween (s : Magazines) (nelm prev next : Nat) : Magazines :=
  { s with
    next := Function.update (Function.update s.next nelm next) prev nelm
    prev := Function.update (Function.update s.prev next nelm) nelm prev }

def listAddTail (s : Magazines) (nelm head : Nat) : Magazines :=
  s.insertBetween nelm (s.prev head) head

/-- `__list_del`. -/
def unlink (s : Magazines) (prev next : Nat) : Magazines :=
  { s with next := Function.update s.next prev next, prev := Function.update s.prev next prev }

def listDelInit (s : Magazines) (entry : Nat) : Magazines :=
  (s.unlink (s.prev entry) (s.next entry)).initListHead entry

def add (s : Magazines) (mag page : Nat) : Magazines :=
  let s := s.listAddTail page mag
  { s with count := Function.update s.count mag (s.count mag + 1) }

def remove (s : Magazines) (mag page : Nat) : Magazines :=
  listDelInit { s with count := Function.update s.count mag (s.count mag - 1) } page

/-- `pop`, with the page that it returns. -/
def pop (s : Magazines) (mag : Nat) : Option Nat × Magazines :=
  if s.next mag = mag then (none, s) else (some (s.next mag), s.remove mag (s.next mag))

/-- The loop of `find`, with a bound on its rounds. -/
def findFrom (s : Magazines) (mag : Nat) (test : Nat → Bool) : Nat → Nat → Option (Option Nat)
  | 0, _ => none
  | fuel + 1, entry =>
      if entry = mag then
        some none
      else if test entry then
        some (some entry)
      else
        findFrom s mag test fuel (s.next entry)

def find (s : Magazines) (mag : Nat) (test : Nat → Bool) (fuel : Nat) : Option (Option Nat) :=
  s.findFrom mag test fuel (s.next mag)

/-- The pages for which the loop of `foreach` calls its function, which may end it. -/
def visitFrom (s : Magazines) (mag : Nat) (goesOn : Nat → Bool) : Nat → Nat → Option (List Nat)
  | 0, _ => none
  | fuel + 1, entry =>
      if entry = mag then
        some []
      else if goesOn entry then
        (visitFrom s mag goesOn fuel (s.next entry)).map fun rest => entry :: rest
      else
        some [entry]

/-- `foreach`. -/
def visited (s : Magazines) (mag : Nat) (goesOn : Nat → Bool) (fuel : Nat) : Option (List Nat) :=
  s.visitFrom mag goesOn fuel (s.next mag)

/-! ## Loops along a ring -/

variable {s : Magazines} {mag entry : Nat} {pages : List Nat}

theorem findFrom_eq (test : Nat → Bool) {fuel : Nat}
    (linked : Linked (fun node => some (s.next node)) (some entry) pages (some mag))
    (inner : mag ∉ pages) (enough : pages.length < fuel) :
    s.findFrom mag test fuel entry = some (pages.find? test) := by
  induction pages generalizing entry fuel with
  | nil =>
      obtain rfl := Option.some.inj linked
      cases fuel with
      | zero => cases enough
      | succ fuel => rw [findFrom, if_pos rfl, List.find?_nil]
  | cons page rest ih =>
      rcases linked with ⟨here, linked⟩
      obtain rfl := Option.some.inj here
      have ne : entry ≠ mag := fun same => inner (same ▸ List.mem_cons_self)
      cases fuel with
      | zero => cases enough
      | succ fuel =>
          rw [findFrom, if_neg ne, List.find?_cons]
          cases test entry with
          | true => rfl
          | false =>
              rw [if_neg Bool.false_ne_true]
              exact ih linked (fun member => inner (List.mem_cons_of_mem _ member))
                (Nat.lt_of_succ_lt_succ enough)

/-- The pages up to the first one at which the function ends the loop. -/
def upTo (goesOn : Nat → Bool) (pages : List Nat) : List Nat :=
  pages.take (pages.findIdx (fun page => !goesOn page) + 1)

theorem visitFrom_eq (goesOn : Nat → Bool) {fuel : Nat}
    (linked : Linked (fun node => some (s.next node)) (some entry) pages (some mag))
    (inner : mag ∉ pages) (enough : pages.length < fuel) :
    s.visitFrom mag goesOn fuel entry = some (upTo goesOn pages) := by
  induction pages generalizing entry fuel with
  | nil =>
      obtain rfl := Option.some.inj linked
      cases fuel with
      | zero => cases enough
      | succ fuel => rw [visitFrom, if_pos rfl, upTo, List.take_nil]
  | cons page rest ih =>
      rcases linked with ⟨here, linked⟩
      obtain rfl := Option.some.inj here
      have ne : entry ≠ mag := fun same => inner (same ▸ List.mem_cons_self)
      cases fuel with
      | zero => cases enough
      | succ fuel =>
          have others := ih linked (fun member => inner (List.mem_cons_of_mem _ member))
            (Nat.lt_of_succ_lt_succ enough)
          rw [visitFrom, if_neg ne, upTo, List.findIdx_cons]
          cases goesOn entry with
          | true =>
              rw [if_pos rfl, others]
              rfl
          | false => rfl

theorem find_eq (ring : Circular s.next s.prev mag pages) (test : Nat → Bool) {fuel : Nat}
    (enough : pages.length < fuel) : s.find mag test fuel = some (pages.find? test) :=
  findFrom_eq test ring.forward.2 (List.nodup_cons.mp ring.nodup).1 enough

theorem visited_eq (ring : Circular s.next s.prev mag pages) (goesOn : Nat → Bool) {fuel : Nat}
    (enough : pages.length < fuel) : s.visited mag goesOn fuel = some (upTo goesOn pages) :=
  visitFrom_eq goesOn ring.forward.2 (List.nodup_cons.mp ring.nodup).1 enough

/-- `pop` takes the first page. -/
theorem pop_eq (ring : Circular s.next s.prev mag pages) :
    s.pop mag = (pages.head?, pages.head?.elim s (s.remove mag)) := by
  have forward := ring.forward.2
  cases pages with
  | nil =>
      have empty : s.next mag = mag := Option.some.inj forward
      rw [pop, if_pos empty]
      rfl
  | cons page rest =>
      have isFirst : s.next mag = page := Option.some.inj forward.1
      have ne : s.next mag ≠ mag := by
        rw [isFirst]
        intro same
        exact (List.nodup_cons.mp ring.nodup).1 (same ▸ List.mem_cons_self)
      rw [pop, if_neg ne, isFirst]
      rfl

/-! ## Rings before and after a change -/

variable {page : Nat} {before after : List Nat}

/-- The ring that a page is added to. -/
theorem ring_add (ring : Circular s.next s.prev mag pages) (fresh : page ∉ mag :: pages) :
    Circular (s.add mag page).next (s.add mag page).prev mag (pages ++ [page]) := by
  have last : s.prev mag ∈ mag :: pages := List.mem_of_getLast? ring.getLast?_eq
  have ne : ∀ other ∈ mag :: pages, other ≠ page := fun other member same => fresh (same ▸ member)
  have inner := (List.nodup_cons.mp ring.nodup).1
  refine ring.concat fresh ?_ ?_ ?_ ?_ ?_ ?_
  · intro other member notLast
    simp [add, listAddTail, insertBetween, notLast, ne other member]
  · simp [add, listAddTail, insertBetween]
  · simp [add, listAddTail, insertBetween, (ne _ last).symm]
  · intro other member
    have notStart : other ≠ mag := fun same => inner (same ▸ member)
    simp [add, listAddTail, insertBetween, notStart, ne other (List.mem_cons_of_mem _ member)]
  · simp [add, listAddTail, insertBetween, ne mag List.mem_cons_self]
  · simp [add, listAddTail, insertBetween]

/-- A ring without the nodes that `add` writes to. -/
theorem ring_add_other {other : Nat} {others : List Nat} (ring : Circular s.next s.prev mag pages)
    (ring' : Circular s.next s.prev other others) (fresh : page ∉ other :: others)
    (apart : ∀ node ∈ other :: others, node ∉ mag :: pages) :
    Circular (s.add mag page).next (s.add mag page).prev other others := by
  have last : s.prev mag ∈ mag :: pages := List.mem_of_getLast? ring.getLast?_eq
  refine ring'.congr ?_ ?_
  · intro node member
    have notLast : node ≠ s.prev mag := fun same => apart node member (same ▸ last)
    have notPage : node ≠ page := fun same => fresh (same ▸ member)
    simp [add, listAddTail, insertBetween, notLast, notPage]
  · intro node member
    have notStart : node ≠ mag := fun same => apart node member (same ▸ List.mem_cons_self)
    have notPage : node ≠ page := fun same => fresh (same ▸ member)
    simp [add, listAddTail, insertBetween, notStart, notPage]

/-- The neighbors of a page are other nodes of its ring. -/
theorem neighbors (ring : Circular s.next s.prev mag (before ++ page :: after)) :
    s.prev page ∈ mag :: (before ++ page :: after) ∧ s.prev page ≠ page ∧
      s.next page ∈ mag :: (before ++ page :: after) ∧ s.next page ≠ page := by
  have isPrev : s.prev page ∈ mag :: before := List.mem_of_getLast? ring.prev_eq
  have isNext : s.next page ∈ after ++ [mag] := List.mem_of_head? ring.head?_eq
  have nodup := ring.nodup
  rw [← List.cons_append, List.nodup_append] at nodup
  rw [List.mem_append, List.mem_singleton] at isNext
  refine ⟨?_, ?_, ?_, ?_⟩
  · rw [← List.cons_append]
    exact List.mem_append_left _ isPrev
  · exact fun same => nodup.2.2 _ isPrev _ List.mem_cons_self same
  · rcases isNext with inAfter | isStart
    · exact List.mem_cons_of_mem _ (List.mem_append_right _ (List.mem_cons_of_mem _ inAfter))
    · rw [isStart]
      exact List.mem_cons_self
  · rintro same
    rcases isNext with inAfter | isStart
    · exact (List.nodup_cons.mp nodup.2.1).1 (same ▸ inAfter)
    · exact nodup.2.2 mag List.mem_cons_self page List.mem_cons_self (isStart.symm.trans same)

/-- The ring that a page is removed from. -/
theorem ring_remove (ring : Circular s.next s.prev mag (before ++ page :: after)) :
    Circular (s.remove mag page).next (s.remove mag page).prev mag (before ++ after) := by
  rcases neighbors ring with ⟨_, prevNe, _, nextNe⟩
  have nodup := ring.nodup
  rw [← List.cons_append] at nodup
  have ne : ∀ other ∈ mag :: before ++ after, other ≠ page := by
    rintro other member rfl
    have perm : (mag :: before ++ other :: after).Perm (other :: (mag :: before ++ after)) :=
      List.perm_middle
    exact (List.nodup_cons.mp (perm.nodup_iff.mp nodup)).1 member
  refine ring.remove ?_ ?_ ?_ ?_
  · intro other member notPrev
    simp [remove, listDelInit, unlink, initListHead, notPrev, ne other member]
  · simp [remove, listDelInit, unlink, initListHead, prevNe]
  · intro other member notNext
    simp [remove, listDelInit, unlink, initListHead, notNext, ne other member]
  · simp [remove, listDelInit, unlink, initListHead, nextNe]

theorem ring_remove_other {other : Nat} {others : List Nat}
    (ring : Circular s.next s.prev mag (before ++ page :: after))
    (ring' : Circular s.next s.prev other others)
    (apart : ∀ node ∈ other :: others, node ∉ mag :: (before ++ page :: after)) :
    Circular (s.remove mag page).next (s.remove mag page).prev other others := by
  rcases neighbors ring with ⟨isPrev, _, isNext, _⟩
  have isPage : page ∈ mag :: (before ++ page :: after) := by simp
  refine ring'.congr ?_ ?_
  · intro node member
    have notPrev : node ≠ s.prev page := fun same => apart node member (same ▸ isPrev)
    have notPage : node ≠ page := fun same => apart node member (same ▸ isPage)
    simp [remove, listDelInit, unlink, initListHead, notPrev, notPage]
  · intro node member
    have notNext : node ≠ s.next page := fun same => apart node member (same ▸ isNext)
    have notPage : node ≠ page := fun same => apart node member (same ▸ isPage)
    simp [remove, listDelInit, unlink, initListHead, notNext, notPage]

end Magazines

end Alaska
