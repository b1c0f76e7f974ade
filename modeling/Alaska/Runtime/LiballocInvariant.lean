import Alaska.Runtime.LiballocSteps
import Mathlib.Data.List.Pairwise

/-!
# The invariant of the internal allocator

Majors do not overlap, and neither do the minors of all of them. Every operation is one edit
of the list of majors: a minor more, a minor less, or a minor with another request.
-/

namespace Alaska

open Memory Intervals

namespace LiballocMajor

open Liballoc

variable {maj maj' other : LiballocMajor} {min : LiballocMinor} {reqSize : Nat}

/-- The part of the address space that a major takes. -/
def extent (maj : LiballocMajor) : Nat × Nat := (maj.address, maj.size)

theorem Placed.extent_eq (placed : Placed reqSize maj maj' min) : maj'.extent = maj.extent :=
  Prod.ext placed.address_eq placed.size_eq

theorem endOf_eq (min : LiballocMinor) : endOf min = min.address + 40 + min.size := rfl

/-- A minor lies behind the header of its major and before its end. -/
theorem Ok.inside (ok : maj.Ok) (member : min ∈ maj.minors) :
    maj.address + 40 ≤ min.address ∧ endOf min ≤ maj.address + maj.size := by
  have inside := ok.packed.of_mem member
  exact ⟨inside.1, inside.2.2⟩

/-- The major with some minors less, or with smaller requests. -/
theorem Ok.edit {minors : List LiballocMinor} {usage : Nat} (ok : maj.Ok)
    (usage_eq : usage = bytes + occupied LiballocMinor.address endOf minors)
    (packed : PackedMinors (maj.address + bytes) (maj.address + maj.size) minors)
    (room : ∀ min ∈ minors, min.reqSize + 32 ≤ min.size) :
    { maj with usage := usage, minors := minors }.Ok :=
  ⟨ok.size_eq, ok.small, ok.positive, ok.below, usage_eq, packed, room⟩

end LiballocMajor

namespace Liballoc

open LiballocMajor

/-- The minors of some majors. -/
def minorsOf (majors : List LiballocMajor) : List LiballocMinor :=
  majors.flatMap LiballocMajor.minors

/-- Two minors do not overlap. -/
def Separate (min other : LiballocMinor) : Prop :=
  endOf min ≤ other.address ∨ endOf other ≤ min.address

instance : Std.Symm Apart := ⟨fun _ _ => Or.symm⟩

instance : Std.Symm Separate := ⟨fun _ _ => Or.symm⟩

/-- The byte that `ALIGN` leaves for `UNALIGN`. -/
def Noted (mem : Bytes) (min : LiballocMinor) : Prop :=
  mem (min.pointer - 16) = UInt8.ofNat (alignment (min.address + LiballocMinor.bytes))

/-- The majors are in order and in different places. -/
structure Layout (majors : List LiballocMajor) : Prop where
  inUse : InUse majors
  apart : majors.Pairwise Apart

/-- What holds of the allocator's own data between two operations. -/
structure Shape (s : Liballoc) : Prop where
  layout : Layout s.majors
  bet : ∀ bet, s.bestBet = some bet → ∃ maj ∈ s.majors, maj.address = bet
  noted : ∀ min ∈ minorsOf s.majors, Noted s.bytes min

variable {s t : Liballoc} {mmap : Mmap} {maj maj' other next : LiballocMajor}
  {min min' : LiballocMinor} {before after majors majors' : List LiballocMajor} {reqSize : Nat}

theorem mem_minorsOf : min ∈ minorsOf majors ↔ ∃ maj ∈ majors, min ∈ maj.minors :=
  List.mem_flatMap

/-- The pointer is aligned and lies between the header and the end of the minor. -/
theorem pointer_spec (room : min.reqSize + 32 ≤ min.size) : min.pointer % 16 = 0 ∧
    min.address + 56 ≤ min.pointer ∧ min.pointer + min.reqSize < endOf min := by
  have spec := alignment_spec (min.address + LiballocMinor.bytes)
  have header : LiballocMinor.bytes = 40 := rfl
  rw [endOf_eq, LiballocMinor.pointer]
  refine ⟨spec.2.2, ?_, ?_⟩ <;> omega

theorem Noted.unalign_eq {mem : Bytes} (noted : Noted mem min) :
    unalign mem min.pointer = min.address + LiballocMinor.bytes := by
  have spec := alignment_spec (min.address + LiballocMinor.bytes)
  unfold unalign
  rw [noted, UInt8.toNat_ofNat_of_lt' (show _ < 256 by omega), if_pos spec.2.1,
    LiballocMinor.pointer]
  omega

/-- Whether majors are apart is a matter of where they are. -/
theorem pairwise_apart_congr (same : majors'.map extent = majors.map extent) :
    majors'.Pairwise Apart ↔ majors.Pairwise Apart := by
  have located : ∀ majors : List LiballocMajor, majors.Pairwise Apart ↔
      (majors.map extent).Pairwise fun e e' => e.1 + e.2 ≤ e'.1 ∨ e'.1 + e'.2 ≤ e.1 := by
    intro majors
    rw [List.pairwise_map]
    exact Iff.rfl
  rw [located, located, same]

theorem exists_address_congr {bet : Nat} (same : majors'.map extent = majors.map extent) :
    (∃ maj ∈ majors', maj.address = bet) ↔ ∃ maj ∈ majors, maj.address = bet := by
  have located : ∀ majors : List LiballocMajor, (∃ maj ∈ majors, maj.address = bet) ↔
      ∃ e ∈ majors.map extent, e.1 = bet := by
    intro majors
    simp [extent]
  rw [located, located, same]

namespace Layout

/-- Two majors that have a place in common are one. -/
theorem eq_of_not_apart (layout : Layout majors) (member : maj ∈ majors) (member' : other ∈ majors)
    (overlap : ¬ Apart maj other) : maj = other := by
  by_contra ne
  exact overlap (layout.apart.forall member member' ne)

/-- No two minors overlap, whether they are in one major or in two. -/
theorem separate (layout : Layout majors) : (minorsOf majors).Pairwise Separate := by
  refine List.pairwise_flatMap.mpr ⟨fun maj member => ?_, ?_⟩
  · exact (layout.inUse maj member).1.packed.pairwise.imp fun before => Or.inl before
  · refine layout.apart.imp_of_mem fun {maj other} member member' apart min isIn min' isIn' => ?_
    have inside := (layout.inUse maj member).1.inside isIn
    have inside' := (layout.inUse other member').1.inside isIn'
    unfold Apart at apart
    unfold Separate
    omega

theorem room (layout : Layout majors) (member : min ∈ minorsOf majors) :
    min.reqSize + 32 ≤ min.size := by
  rcases mem_minorsOf.mp member with ⟨maj, isMajor, isIn⟩
  exact (layout.inUse maj isMajor).1.room min isIn

theorem nodup (layout : Layout majors) : (minorsOf majors).Nodup := by
  refine layout.separate.imp_of_mem fun {min other} member _ separate same => ?_
  have := layout.room member
  subst same
  unfold Separate at separate
  rw [endOf_eq] at separate
  omega

/-- A minor that overlaps another one is that one. -/
theorem eq_of_not_separate (layout : Layout majors) (member : min ∈ minorsOf majors)
    (member' : min' ∈ minorsOf majors) (overlap : ¬ Separate min min') : min = min' := by
  by_contra ne
  exact overlap (layout.separate.forall member member' ne)

theorem eq_of_address_eq (layout : Layout majors) (member : min ∈ minorsOf majors)
    (member' : min' ∈ minorsOf majors) (same : min.address = min'.address) : min = min' := by
  refine layout.eq_of_not_separate member member' fun separate => ?_
  unfold Separate at separate
  rw [endOf_eq, endOf_eq] at separate
  omega

theorem eq_of_pointer_eq (layout : Layout majors) (member : min ∈ minorsOf majors)
    (member' : min' ∈ minorsOf majors) (same : min.pointer = min'.pointer) : min = min' := by
  refine layout.eq_of_not_separate member member' fun separate => ?_
  have spec := pointer_spec (layout.room member)
  have spec' := pointer_spec (layout.room member')
  unfold Separate at separate
  omega

/-- A minor is in one major only. -/
theorem major_eq (layout : Layout majors) (member : maj ∈ majors) (isIn : min ∈ maj.minors)
    (member' : other ∈ majors) (isIn' : min ∈ other.minors) : maj = other := by
  refine layout.eq_of_not_apart member member' fun apart => ?_
  have inside := (layout.inUse maj member).1.inside isIn
  have inside' := (layout.inUse other member').1.inside isIn'
  unfold Apart at apart
  rw [endOf_eq] at inside inside'
  omega

/-- The majors after an edit of one of them. -/
theorem edit (layout : Layout (before ++ maj :: after)) (extent_eq : maj'.extent = maj.extent)
    (ok : maj'.Ok) (used : maj'.minors ≠ []) : Layout (before ++ maj' :: after) := by
  have same : (before ++ maj' :: after).map extent = (before ++ maj :: after).map extent := by
    rw [List.map_append, List.map_append, List.map_cons, List.map_cons, extent_eq]
  refine ⟨fun other member => ?_, (pairwise_apart_congr same).mpr layout.apart⟩
  rw [List.mem_append, List.mem_cons] at member
  have inUse := layout.inUse other
  rw [List.mem_append, List.mem_cons] at inUse
  rcases member with first | rfl | last
  · exact inUse (Or.inl first)
  · exact ⟨ok, used⟩
  · exact inUse (Or.inr (Or.inr last))

theorem remove (layout : Layout (before ++ maj :: after)) : Layout (before ++ after) := by
  have less : (before ++ after).Sublist (before ++ maj :: after) :=
    (List.Sublist.refl before).append (List.sublist_cons_self maj after)
  exact ⟨fun other member => layout.inUse other (less.subset member), layout.apart.sublist less⟩

/-- The majors with a new one. -/
theorem append (layout : Layout majors) (ok : next.Ok) (used : next.minors ≠ [])
    (apart : ∀ maj ∈ majors, Apart maj next) : Layout (majors ++ [next]) := by
  refine ⟨fun other member => ?_,
    List.pairwise_append.mpr ⟨layout.apart, List.pairwise_singleton .., ?_⟩⟩
  · rcases List.mem_append.mp member with old | new
    · exact layout.inUse other old
    · obtain rfl := List.mem_singleton.mp new
      exact ⟨ok, used⟩
  · intro maj member other isNext
    obtain rfl := List.mem_singleton.mp isNext
    exact apart maj member

end Layout

/-- An edit of one major changes the minors by that major's. -/
theorem minorsOf_perm (before after : List LiballocMajor) (maj : LiballocMajor) :
    (minorsOf (before ++ maj :: after)).Perm (maj.minors ++ minorsOf (before ++ after)) := by
  have moved := (@List.perm_middle _ maj before after).flatMap_right LiballocMajor.minors
  rwa [List.flatMap_cons] at moved

/-! ## Requests -/

/-- What a request that is served does. -/
structure Allocated (s : Liballoc) (reqSize ptr : Nat) (t : Liballoc) (min : LiballocMinor) :
    Prop where
  shape : Shape t
  pointer_eq : min.pointer = ptr
  reqSize_eq : min.reqSize = reqSize
  minors : (minorsOf t.majors).Perm (min :: minorsOf s.majors)
  bytes_eq : t.bytes = Function.update s.bytes (min.pointer - 16)
    (UInt8.ofNat (alignment (min.address + LiballocMinor.bytes)))

theorem handOut_bytes (s : Liballoc) (best : Best) (majors : List LiballocMajor)
    (min : LiballocMinor) : (s.handOut (best, majors, min)).2.bytes =
      Function.update s.bytes (min.pointer - 16)
        (UInt8.ofNat (alignment (min.address + LiballocMinor.bytes))) := by
  rw [handOut]

/-- A new minor between the others, with its alignment noted. -/
theorem Shape.allocated {best : Best} (shape : Shape s) (layout : Layout majors)
    (minors : (minorsOf majors).Perm (min :: minorsOf s.majors))
    (reqSize_eq : min.reqSize = reqSize)
    (bet : ∀ bet, best.bestBet = some bet → ∃ maj ∈ majors, maj.address = bet) :
    Allocated s reqSize (s.handOut (best, majors, min)).1 (s.handOut (best, majors, min)).2
      min := by
  refine ⟨⟨layout, bet, fun other member => ?_⟩, by rw [handOut], reqSize_eq, minors,
    handOut_bytes ..⟩
  rcases List.mem_cons.mp (minors.subset member) with rfl | old
  · rw [Noted, handOut_bytes, Function.update_self]
  · have isNew : min ∈ minorsOf majors := minors.symm.subset List.mem_cons_self
    have ne : other.pointer - 16 ≠ min.pointer - 16 := by
      intro same
      have spec := pointer_spec (layout.room member)
      have spec' := pointer_spec (layout.room isNew)
      obtain rfl := layout.eq_of_pointer_eq member isNew (by omega)
      exact (List.nodup_cons.mp (minors.nodup layout.nodup)).1 old
    rw [Noted, handOut_bytes, Function.update_of_ne ne]
    exact shape.noted other old

theorem Placed.minors_perm (before after : List LiballocMajor)
    (placed : Placed reqSize maj maj' min) :
    (minorsOf (before ++ maj' :: after)).Perm (min :: minorsOf (before ++ maj :: after)) := by
  rcases placed.inserted with ⟨left, right, split, split'⟩
  have more : maj'.minors.Perm (min :: maj.minors) := by
    rw [split, split']
    exact List.perm_middle
  have grown := (minorsOf_perm before after maj').trans (more.append_right _)
  exact grown.trans ((minorsOf_perm before after maj).symm.cons min)

theorem Placed.used (placed : Placed reqSize maj maj' min) : maj'.minors ≠ [] := by
  rcases placed.inserted with ⟨left, right, _, split'⟩
  simp [split']

/-- No major has room for the request. -/
def Full (s : Liballoc) (reqSize : Nat) : Prop := ∀ maj ∈ s.majors, ¬ maj.HasGap (reqSize + 32)

/-- A request is served in place. -/
def ServedInPlace (s : Liballoc) (reqSize : Nat) (outcome : Option (Nat × Liballoc)) : Prop :=
  ∃ ptr t min, outcome = some (ptr, t) ∧ Allocated s reqSize ptr t min ∧
    t.majors.map extent = s.majors.map extent

/-- A request is served in a major of its own, if the kernel gives it one. -/
def ServedBy (mmap : Mmap) (s : Liballoc) (reqSize : Nat) (outcome : Option (Nat × Liballoc)) :
    Prop :=
  match allocateNewPage mmap s.majors (reqSize + 32) with
  | none => outcome = none
  | some next => ∃ ptr t min, outcome = some (ptr, t) ∧ Allocated s reqSize ptr t min ∧
      t.majors.map extent = s.majors.map extent ++ [next.extent]

theorem Shape.servedInPlace {best : Best} (shape : Shape s)
    (bet : BetAmong s.majors s.bestBet best.bestBet)
    (placedIn : PlacedIn reqSize s.majors majors min) :
    ServedInPlace s reqSize (some (s.handOut (best, majors, min))) := by
  rcases placedIn with ⟨before, maj, maj', after, split, rfl, placed, _⟩
  have layout := shape.layout
  have same : (before ++ maj' :: after).map extent = s.majors.map extent := by
    rw [split, List.map_append, List.map_append, List.map_cons, List.map_cons, placed.extent_eq]
  rw [split] at layout
  refine ⟨_, _, min, rfl, ?_, same⟩
  refine shape.allocated (layout.edit placed.extent_eq placed.ok (Placed.used placed)) ?_
    placed.min_reqSize ?_
  · rw [split]
    exact Placed.minors_perm before after placed
  · intro bestBet isBet
    rw [exists_address_congr same]
    rcases bet with kept | ⟨maj, member, isMaj⟩
    · exact shape.bet bestBet (kept ▸ isBet)
    · exact ⟨maj, member, Option.some.inj (isMaj.symm.trans isBet)⟩

/-- A new major behind the others, with the first minor in it. -/
theorem Shape.servedBy {bet : LiballocMajor → Best} (shape : Shape s) (fresh : Fresh mmap)
    (fits : FitsMajor reqSize)
    (among : ∀ next, BetAmong (s.majors ++ [next]) s.bestBet (bet next).bestBet) :
    ServedBy mmap s reqSize ((allocateNewPage mmap s.majors (reqSize + 32)).map fun next =>
      s.handOut (bet next, s.majors ++ [(next.placeFirst (reqSize + 32) reqSize).1],
        (next.placeFirst (reqSize + 32) reqSize).2)) := by
  unfold ServedBy
  cases mapped : allocateNewPage mmap s.majors (reqSize + 32) with
  | none => rfl
  | some next =>
      rcases allocateNewPage_spec fresh fits mapped with ⟨ok, unused, enough, apart⟩
      have placed := placeFirst_spec ok unused enough fits
      rw [Option.map_some]
      generalize next.placeFirst (reqSize + 32) reqSize = result at placed ⊢
      rcases result with ⟨maj', min⟩
      have same : (s.majors ++ [maj']).map extent = s.majors.map extent ++ [next.extent] := by
        rw [List.map_append, List.map_singleton, placed.extent_eq]
      have apart' : ∀ maj ∈ s.majors, Apart maj maj' := by
        intro maj member
        have := apart shape.layout.inUse maj member
        unfold Apart at this ⊢
        rwa [placed.address_eq, placed.size_eq]
      refine ⟨_, _, min, rfl, ?_, same⟩
      refine shape.allocated (shape.layout.append placed.ok (Placed.used placed) apart') ?_
        placed.min_reqSize ?_
      · have perm := Placed.minors_perm s.majors [] placed
        refine perm.trans (List.Perm.cons min ?_)
        rw [minorsOf, List.flatMap_append, List.flatMap_cons, unused]
        simp [minorsOf]
      · intro bestBet isBet
        have located : (s.majors ++ [maj']).map extent = (s.majors ++ [next]).map extent := by
          rw [same, List.map_append, List.map_singleton]
        rw [exists_address_congr located]
        rcases among next with kept | ⟨maj, member, isMaj⟩
        · rcases shape.bet bestBet (kept ▸ isBet) with ⟨maj, member, address⟩
          exact ⟨maj, List.mem_append_left _ member, address⟩
        · exact ⟨maj, member, Option.some.inj (isMaj.symm.trans isBet)⟩

/-- The best bet to begin with is the one that was kept. -/
theorem Shape.firstBet_spec (shape : Shape s) (size : Nat) :
    ∃ first, s.firstBet s.majors size = some first ∧ first.1.bestBet = s.bestBet := by
  unfold firstBet
  cases isBet : s.bestBet with
  | none => exact ⟨_, rfl, rfl⟩
  | some bet =>
      have found : (s.majors.find? fun maj => maj.address == bet).isSome = true := by
        rw [List.find?_isSome]
        rcases shape.bet bet isBet with ⟨maj, member, same⟩
        exact ⟨maj, member, beq_iff_eq.mpr same⟩
      rcases Option.isSome_iff_exists.mp found with ⟨maj, isMaj⟩
      dsimp only
      rw [isMaj]
      exact ⟨_, rfl, rfl⟩

theorem search_of_placed {size : Nat} {best best' : Best}
    (walked : walk size reqSize best false majors = (best', .placed majors' min)) :
    search mmap size reqSize best none majors = some (best', majors', min) := by
  simp only [search, walked]

theorem Shape.bestBet_of_nil (shape : Shape s) (empty : s.majors = []) : s.bestBet = none := by
  by_contra isBet
  rcases Option.ne_none_iff_exists'.mp isBet with ⟨bet, isBet⟩
  rcases shape.bet bet isBet with ⟨maj, member, _⟩
  rw [empty] at member
  cases member

/-- The first request of all maps the root of the list. -/
theorem allocate_of_nil {size : Nat} (empty : s.majors = []) (noBet : s.bestBet = none)
    {place : LiballocMajor → LiballocMajor × LiballocMinor}
    (served : ∀ next, allocateNewPage mmap [] size = some next →
      walk size reqSize ⟨0, none⟩ false [next] =
        (Best.remember ⟨0, none⟩ next, .placed [(place next).1] (place next).2)) :
    s.allocate mmap size reqSize = (allocateNewPage mmap s.majors size).map fun next =>
      s.handOut (Best.remember ⟨0, none⟩ next, s.majors ++ [(place next).1], (place next).2) := by
  have root : s.memRoot mmap size = (allocateNewPage mmap [] size).map fun maj => [maj] := by
    rw [memRoot, empty]
  have first : ∀ majors, s.firstBet majors size = some (⟨0, none⟩, none) := by
    intro majors
    rw [firstBet, noBet]
  rw [allocate, root, empty]
  cases mapped : allocateNewPage mmap [] size with
  | none => rfl
  | some next =>
      rw [Option.map_some, Option.bind_some, first, Option.bind_some,
        search_of_placed (served next mapped), Option.map_some, Option.map_some, List.nil_append]

/-- A request is served in place when a major has a gap, and by a new major when none has. -/
theorem Shape.malloc_spec (shape : Shape s) (fresh : Fresh mmap) (fits : FitsMajor reqSize) :
    ¬ Full s reqSize ∧ ServedInPlace s reqSize (s.malloc mmap reqSize) ∨
      Full s reqSize ∧ ServedBy mmap s reqSize (s.malloc mmap reqSize) := by
  have size_eq : (reqSize + 32) % 2 ^ 64 = reqSize + 32 := by
    unfold FitsMajor at fits
    omega
  rw [malloc, size_eq, if_neg (by omega)]
  cases split : s.majors with
  | nil =>
      have noBet := shape.bestBet_of_nil split
      have allocate_eq := allocate_of_nil split noBet fun next mapped =>
        match allocateNewPage_spec fresh fits mapped with
        | ⟨ok, unused, enough, _⟩ => walk_next ok unused enough fits
      rw [allocate_eq]
      refine Or.inr ⟨fun maj member => ?_, shape.servedBy fresh fits fun next => ?_⟩
      · rw [split] at member
        cases member
      · rw [noBet]
        exact Best.remember_among ⟨0, none⟩ (by simp)
  | cons root rest =>
      rcases shape.firstBet_spec (reqSize + 32) with ⟨first, isFirst, sameBet⟩
      have allocate_eq : s.allocate mmap (reqSize + 32) reqSize =
          (search mmap (reqSize + 32) reqSize first.1 first.2 s.majors).map s.handOut := by
        have isRoot : s.memRoot mmap (reqSize + 32) = some s.majors := by rw [memRoot, split]
        rw [allocate, isRoot, Option.bind_some, isFirst, Option.bind_some]
      rw [allocate_eq]
      rcases (search_spec shape.layout.inUse fresh fits first.1 first.2).cases with
        ⟨best', majors', min, found, among, placedIn⟩ | ⟨full, bet, among, outcome⟩
      · rw [sameBet] at among
        rw [found]
        refine Or.inl ⟨fun full => ?_, shape.servedInPlace among placedIn⟩
        rcases placedIn with ⟨before, maj, _, after, isSplit, _, _, gap⟩
        exact full maj (by simp [isSplit]) gap
      · rw [sameBet] at among
        rw [outcome, Option.map_map]
        exact Or.inr ⟨full, shape.servedBy fresh fits among⟩

end Liballoc

end Alaska
