import Alaska.Runtime.Heap
import Alaska.Runtime.Magazine

/-!
# Runs of the magazines

Any number of magazines in one memory. A page has one `list_head`, so it can be in one
magazine only; as long as the heap adds no page twice and removes each page from the magazine
that it is in, every magazine is the queue of its pages.
-/

namespace Alaska

open Lts DoublyLinked

inductive MagazineOp where
  | add (mag page : Nat)
  | remove (mag page : Nat)
  | pop (mag : Nat)

/-- The rings beside the queues that they are to represent, and the magazine of each page. -/
structure MagazineState where
  magazines : Magazines
  queue : Nat → List Nat
  place : Nat → Option Nat

namespace MagazineState

/-- Every `list_head` has just been constructed. -/
def start : MagazineState :=
  ⟨⟨fun node => node, fun node => node, fun _ => 0⟩, fun _ => [], fun _ => none⟩

/--
A call, where `isMag` tells the `list_head`s of magazines from those of pages; `none` when a
page is already in a magazine, or in another one than the one it is to be removed from.
-/
def next (isMag : Nat → Bool) (s : MagazineState) : MagazineOp → Option MagazineState
  | .add mag page =>
      if isMag mag = true ∧ isMag page = false ∧ s.place page = none then
        some ⟨s.magazines.add mag page, Function.update s.queue mag (s.queue mag ++ [page]),
          Function.update s.place page (some mag)⟩
      else
        none
  | .remove mag page =>
      if isMag mag = true ∧ s.place page = some mag then
        some ⟨s.magazines.remove mag page, Function.update s.queue mag ((s.queue mag).erase page),
          Function.update s.place page none⟩
      else
        none
  | .pop mag =>
      if isMag mag = true then
        match s.magazines.pop mag with
        | (none, magazines) => some { s with magazines := magazines }
        | (some page, magazines) =>
            some ⟨magazines, Function.update s.queue mag (s.queue mag).tail,
              Function.update s.place page none⟩
      else
        none

/-- A magazine is the queue of its pages. -/
structure IsQueue (s : MagazineState) (mag : Nat) : Prop where
  nodup : (s.queue mag).Nodup
  place : ∀ page, page ∈ s.queue mag ↔ s.place page = some mag
  size : s.magazines.count mag = (s.queue mag).length
  pop : (s.magazines.pop mag).1 = (s.queue mag).head?
  find : ∀ test fuel, (s.queue mag).length < fuel →
    s.magazines.find mag test fuel = some ((s.queue mag).find? test)
  visited : ∀ goesOn fuel, (s.queue mag).length < fuel →
    s.magazines.visited mag goesOn fuel = some (Magazines.upTo goesOn (s.queue mag))

/--
The loop of `find_or_alloc_page` through a magazine is the search of the heap's list of pages,
where `node` is the `list_head` of a page and `entry` leads back to the page.
-/
theorem IsQueue.find_eq_findPage {s : MagazineState} {mag : Nat} (isQueue : s.IsQueue mag)
    (h : Heap) {magazine : List Nat} {node entry : Nat → Nat} (inverse : ∀ n, entry (node n) = n)
    (listed : s.queue mag = magazine.map node) (availRequirement : Nat) {fuel : Nat}
    (enough : magazine.length < fuel) :
    s.magazines.find mag (fun list =>
        decide ((h.available (entry list) % 2 ^ 64).toNat ≥ availRequirement) &&
          h.owners (entry list) == none) fuel =
      some ((h.findPage magazine availRequirement).map node) := by
  have enough' : (s.queue mag).length < fuel := by rwa [listed, List.length_map]
  rw [isQueue.find _ fuel enough', listed, List.find?_map, Heap.findPage]
  simp only [Function.comp_def, inverse]

structure Invariant (isMag : Nat → Bool) (s : MagazineState) : Prop where
  circular : ∀ mag, isMag mag = true →
    Circular s.magazines.next s.magazines.prev mag (s.queue mag)
  mem_iff : ∀ mag page, isMag mag = true → (page ∈ s.queue mag ↔ s.place page = some mag)
  pages : ∀ mag page, isMag mag = true → page ∈ s.queue mag → isMag page = false
  count : ∀ mag, isMag mag = true → s.magazines.count mag = (s.queue mag).length

variable {isMag : Nat → Bool} {s t : MagazineState} {mag page other : Nat} {before after : List Nat}

theorem start_invariant : start.Invariant isMag where
  circular _ _ := .nil rfl rfl
  mem_iff := by simp [start]
  pages := by simp [start]
  count := by simp [start]

namespace Invariant

theorem isQueue (holds : s.Invariant isMag) (isMagazine : isMag mag = true) : s.IsQueue mag where
  nodup := (List.nodup_cons.mp (holds.circular mag isMagazine).nodup).2
  place page := holds.mem_iff mag page isMagazine
  size := holds.count mag isMagazine
  pop := by rw [Magazines.pop_eq (holds.circular mag isMagazine)]
  find test _ enough := Magazines.find_eq (holds.circular mag isMagazine) test enough
  visited goesOn _ enough := Magazines.visited_eq (holds.circular mag isMagazine) goesOn enough

/-- Two magazines have no node in common. -/
theorem apart (holds : s.Invariant isMag) (isMagazine : isMag mag = true)
    (isMagazine' : isMag other = true) (ne : other ≠ mag) :
    ∀ node ∈ other :: s.queue other, node ∉ mag :: s.queue mag := by
  intro node member member'
  rcases List.mem_cons.mp member with rfl | inOther
  · rcases List.mem_cons.mp member' with same | inMag
    · exact ne same
    · rw [holds.pages mag node isMagazine inMag] at isMagazine'
      cases isMagazine'
  · rcases List.mem_cons.mp member' with rfl | inMag
    · rw [holds.pages other node isMagazine' inOther] at isMagazine
      cases isMagazine
    · have isPlace := (holds.mem_iff other node isMagazine').mp inOther
      have isPlace' := (holds.mem_iff mag node isMagazine).mp inMag
      exact ne (Option.some.inj (isPlace.symm.trans isPlace'))

/-- A page that is in no magazine is none of its nodes. -/
theorem fresh (holds : s.Invariant isMag) (isMagazine : isMag mag = true)
    (isPage : isMag page = false) (idle : s.place page = none) : page ∉ mag :: s.queue mag := by
  intro member
  rcases List.mem_cons.mp member with rfl | inMag
  · rw [isPage] at isMagazine
    cases isMagazine
  · rw [holds.mem_iff mag page isMagazine, idle] at inMag
    cases inMag

theorem add (holds : s.Invariant isMag) (isMagazine : isMag mag = true)
    (isPage : isMag page = false) (idle : s.place page = none) :
    Invariant isMag ⟨s.magazines.add mag page,
      Function.update s.queue mag (s.queue mag ++ [page]),
      Function.update s.place page (some mag)⟩ := by
  have ring := holds.circular mag isMagazine
  refine ⟨fun other isOther => ?_, fun other x isOther => ?_, fun other x isOther => ?_,
    fun other isOther => ?_⟩
  · by_cases same : other = mag
    · subst same
      simp only [Function.update_self]
      exact Magazines.ring_add ring (holds.fresh isMagazine isPage idle)
    · simp only [Function.update_of_ne same]
      exact Magazines.ring_add_other ring (holds.circular other isOther)
        (holds.fresh isOther isPage idle) (holds.apart isMagazine isOther same)
  · have old := holds.mem_iff other x isOther
    by_cases same : other = mag
    · subst same
      by_cases isNew : x = page
      · simp [isNew]
      · simp [isNew, old]
    · have same' : ¬ mag = other := fun equal => same equal.symm
      by_cases isNew : x = page
      · subst isNew
        simp [same, same', old, idle]
      · simp [same, isNew, old]
  · by_cases same : other = mag
    · subst same
      simp only [Function.update_self, List.mem_append, List.mem_singleton]
      rintro (inMag | rfl)
      · exact holds.pages other x isOther inMag
      · exact isPage
    · simp only [Function.update_of_ne same]
      exact holds.pages other x isOther
  · by_cases same : other = mag
    · subst same
      simp [Magazines.add, Magazines.listAddTail, Magazines.insertBetween,
        holds.count other isOther]
    · simp [Magazines.add, Magazines.listAddTail, Magazines.insertBetween, same,
        holds.count other isOther]

theorem remove (holds : s.Invariant isMag) (isMagazine : isMag mag = true)
    (split : s.queue mag = before ++ page :: after) :
    Invariant isMag ⟨s.magazines.remove mag page,
      Function.update s.queue mag (before ++ after), Function.update s.place page none⟩ := by
  have ring := holds.circular mag isMagazine
  rw [split] at ring
  have isPlace : s.place page = some mag := by
    rw [← holds.mem_iff mag page isMagazine, split]
    simp
  have unique : page ∉ before ++ after :=
    (List.nodup_cons.mp (List.perm_middle.nodup_iff.mp (List.nodup_cons.mp ring.nodup).2)).1
  refine ⟨fun other isOther => ?_, fun other x isOther => ?_, fun other x isOther => ?_,
    fun other isOther => ?_⟩
  · by_cases same : other = mag
    · subst same
      simp only [Function.update_self]
      exact Magazines.ring_remove ring
    · simp only [Function.update_of_ne same]
      refine Magazines.ring_remove_other ring (holds.circular other isOther) ?_
      rw [← split]
      exact holds.apart isMagazine isOther same
  · have old := holds.mem_iff other x isOther
    by_cases same : other = mag
    · subst same
      rw [split] at old
      by_cases gone : x = page
      · subst gone
        simp only [Function.update_self]
        exact iff_of_false unique (by simp)
      · simp only [Function.update_self, Function.update_of_ne gone, ← old, List.mem_append,
          List.mem_cons, gone, false_or]
    · by_cases gone : x = page
      · subst gone
        have same' : ¬ mag = other := fun equal => same equal.symm
        simp [same, same', old, isPlace]
      · simp [same, gone, old]
  · by_cases same : other = mag
    · subst same
      simp only [Function.update_self]
      intro member
      refine holds.pages other x isOther ?_
      rw [split]
      exact ((List.Sublist.refl before).append (List.sublist_cons_self page after)).subset member
    · simp only [Function.update_of_ne same]
      exact holds.pages other x isOther
  · by_cases same : other = mag
    · subst same
      have count := holds.count other isOther
      rw [split] at count
      simp [Magazines.remove, Magazines.listDelInit, Magazines.unlink, Magazines.initListHead,
        count]
      omega
    · simp [Magazines.remove, Magazines.listDelInit, Magazines.unlink, Magazines.initListHead,
        same, holds.count other isOther]

theorem step (holds : s.Invariant isMag) {op : MagazineOp} (stepped : s.next isMag op = some t) :
    t.Invariant isMag := by
  cases op with
  | add mag page =>
      simp only [next] at stepped
      split at stepped
      · next allowed =>
          obtain rfl := Option.some.inj stepped
          exact holds.add allowed.1 allowed.2.1 allowed.2.2
      · cases stepped
  | remove mag page =>
      simp only [next] at stepped
      split at stepped
      · next allowed =>
          obtain rfl := Option.some.inj stepped
          have member := (holds.mem_iff mag page allowed.1).mpr allowed.2
          rcases List.exists_erase_eq member with ⟨before, after, _, split, erased⟩
          rw [erased]
          exact holds.remove allowed.1 split
      · cases stepped
  | pop mag =>
      simp only [next] at stepped
      split at stepped
      · next isMagazine =>
          have popped := Magazines.pop_eq (holds.circular mag isMagazine)
          cases split : s.queue mag with
          | nil =>
              rw [split] at popped
              rw [popped] at stepped
              obtain rfl := Option.some.inj stepped
              exact holds
          | cons page rest =>
              rw [split] at popped
              rw [popped] at stepped
              obtain rfl := Option.some.inj stepped
              have split' : s.queue mag = [] ++ page :: rest := split
              rw [split, List.tail_cons]
              exact holds.remove isMagazine split'
      · cases stepped

end Invariant

/--
After every run of calls on any magazines, each is the queue of its pages: `size` and `pop`,
and the loops of `find` and `foreach`, which end, see exactly its pages in their order.
-/
theorem isQueue_of_run {ops : List MagazineOp} (run : Run (ofFunction (next isMag)) start ops s)
    (isMagazine : isMag mag = true) : s.IsQueue mag := by
  have holds : s.Invariant isMag :=
    run.invariant (Invariant isMag) (fun _ _ _ holds stepped => holds.step stepped)
      start_invariant
  exact holds.isQueue isMagazine

/-- Two magazines, at 1 and 2, and a page that goes from one to the other. -/
def exchangeOps : List MagazineOp :=
  [.add 1 16, .add 1 32, .add 2 48, .add 1 64, .remove 1 32, .add 2 32, .pop 1, .pop 2]

theorem exchangeOps_allowed :
    (replay (next fun node => node < 16) start exchangeOps).isSome = true := by
  decide +kernel

theorem isQueue_of_run_exchange :
    ((replay (next fun node => node < 16) start exchangeOps).get exchangeOps_allowed).IsQueue 2 :=
  isQueue_of_run (run_of_replay (Option.some_get exchangeOps_allowed).symm) (by decide)

end MagazineState

end Alaska
