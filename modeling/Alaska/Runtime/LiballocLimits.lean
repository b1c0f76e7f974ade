import Alaska.Runtime.LiballocRuns

/-!
# The largest request of the internal allocator

`allocate_new_page` adds the sizes of the headers to a request in an `unsigned int`, so it
maps too few pages for one that is too large. A request only adds majors of the size that it
asks for, wherever the search finds its minor, so the pages alone decide whether the object
can lie in them.
-/

namespace Alaska

open Memory Intervals Lts

theorem LiballocMajor.place_pages {maj maj' : LiballocMajor} {min : LiballocMinor}
    {size reqSize : Nat} (placed : maj.place size reqSize = some (maj', min)) :
    maj'.pages = maj.pages := by
  unfold place at placed
  split at placed
  · cases placed
    rfl
  · dsimp only at placed
    split at placed
    · cases placed
      rfl
    · rcases Option.map_eq_some_iff.mp placed with ⟨found, _, same⟩
      cases same
      rfl

namespace Liballoc

open LiballocMajor

/-- How many pages each major has. -/
def pagesOf (majors : List LiballocMajor) : List Nat := majors.map LiballocMajor.pages

/-- Whatever is mapped beside the majors has the pages that a request of `size` asks for. -/
def Extends (size : Nat) (majors majors' : List LiballocMajor) : Prop :=
  ∃ more, pagesOf majors' = pagesOf majors ++ List.replicate more (pageCount size)

variable {s t : Liballoc} {mmap : Mmap} {majors majors' : List LiballocMajor}
  {maj next : LiballocMajor} {min : LiballocMinor} {best best' : Best} {insufficient : Bool}
  {size reqSize ptr : Nat}

/-! ## The pages that a request maps -/

theorem walk_pages
    (walked : walk size reqSize best insufficient majors = (best', .placed majors' min)) :
    pagesOf majors' = pagesOf majors := by
  induction majors generalizing best insufficient majors' with
  | nil => cases walked
  | cons maj rest ih =>
      -- the minor is in a later major
      have behind : ∀ insufficient' r,
          walk size reqSize (best.remember maj) insufficient' rest = r →
            (r.1, r.2.after maj) = (best', .placed majors' min) →
              pagesOf majors' = pagesOf (maj :: rest) := by
        rintro insufficient' ⟨last, found⟩ isWalk same
        cases found with
        | placed rest' min' =>
            simp only [Walk.after, Prod.mk.injEq, Walk.placed.injEq] at same
            rcases same with ⟨rfl, rfl, rfl⟩
            have := ih isWalk
            simp only [pagesOf, List.map_cons] at this ⊢
            rw [this]
        | exhausted _ => simp [Walk.after] at same
      rw [walk] at walked
      dsimp only at walked
      split at walked
      · exact behind true _ rfl walked
      · split at walked
        · next maj' min' placed =>
            cases walked
            simp only [pagesOf, List.map_cons, place_pages placed]
        · exact behind false _ rfl walked

theorem allocateNewPage_pages (mapped : allocateNewPage mmap majors size = some next) :
    next.pages = pageCount size := by
  rcases Option.map_eq_some_iff.mp mapped with ⟨address, _, rfl⟩
  rfl

theorem useNext_extends (mapped : allocateNewPage mmap majors size = some next)
    (used : useNext mmap size reqSize best insufficient majors next =
      some (best', majors', min)) : Extends size majors majors' := by
  have next_pages := allocateNewPage_pages mapped
  unfold useNext at used
  split at used
  · cases used
    exact ⟨1, by simp [pagesOf, placeFirst, grow, next_pages]⟩
  · split at used
    · next best'' placed min' walked =>
        cases used
        have same : pagesOf placed = [next.pages] := walk_pages walked
        rw [next_pages] at same
        refine ⟨1, ?_⟩
        rw [pagesOf, List.map_append]
        exact congrArg (pagesOf majors ++ ·) same
    · rcases Option.map_eq_some_iff.mp used with ⟨last, mapped', same⟩
      have last_pages := allocateNewPage_pages mapped'
      cases same
      exact ⟨2, by simp [pagesOf, placeFirst, grow, next_pages, last_pages, List.replicate]⟩

theorem extend_extends (found : extend mmap size reqSize best insufficient majors =
    some (best', majors', min)) : Extends size majors majors' := by
  rcases Option.bind_eq_some_iff.mp found with ⟨next, mapped, used⟩
  exact useNext_extends mapped used

/-- The walk from the root, with the extension behind it. -/
theorem walk_extends (found : (match walk size reqSize best insufficient majors with
      | (best, .placed majors min) => some (best, majors, min)
      | (best, .exhausted insufficient) => extend mmap size reqSize best insufficient majors) =
        some (best', majors', min)) : Extends size majors majors' := by
  split at found
  · next walked =>
      cases found
      exact ⟨0, by rw [walk_pages walked, List.replicate_zero, List.append_nil]⟩
  · exact extend_extends found

theorem search_extends {startedBet : Option Nat}
    (found : search mmap size reqSize best startedBet majors = some (best', majors', min)) :
    Extends size majors majors' := by
  cases startedBet with
  | none => exact walk_extends found
  | some bet =>
      rw [search] at found
      split at found
      · next walked =>
          cases found
          refine ⟨0, ?_⟩
          rw [List.replicate_zero, List.append_nil, pagesOf, List.map_append]
          have same := walk_pages walked
          unfold pagesOf at same ⊢
          rw [same, ← List.map_append, List.takeWhile_append_dropWhile]
      · exact walk_extends found

theorem allocate_extends (served : s.allocate mmap size reqSize = some (ptr, t)) :
    Extends size s.majors t.majors := by
  rcases Option.bind_eq_some_iff.mp served with ⟨majors, isRoot, served⟩
  rcases Option.bind_eq_some_iff.mp served with ⟨first, _, served⟩
  rcases Option.map_eq_some_iff.mp served with ⟨⟨best, majors', min⟩, found, same⟩
  cases same
  rcases search_extends found with ⟨more, pages⟩
  unfold memRoot at isRoot
  split at isRoot
  · next empty =>
      rcases Option.map_eq_some_iff.mp isRoot with ⟨root, mapped, rfl⟩
      have root_pages : pagesOf [root] = [pageCount size] := by
        rw [pagesOf, List.map_singleton, allocateNewPage_pages mapped]
      refine ⟨more + 1, ?_⟩
      rw [empty]
      refine pages.trans ?_
      rw [root_pages, List.replicate_succ]
      rfl
  · next root rest split =>
      cases isRoot
      rw [split]
      exact ⟨more, pages⟩

theorem malloc_extends (served : s.malloc mmap reqSize = some (ptr, t)) :
    ∃ size, Extends size s.majors t.majors ∧ (reqSize + 32 < 2 ^ 64 → size = reqSize + 32) := by
  rw [malloc] at served
  split at served
  · next wrapped => exact ⟨33, allocate_extends served, fun small => by omega⟩
  · exact ⟨_, allocate_extends served, fun small => Nat.mod_eq_of_lt small⟩

/-! ## The pages that a request needs -/

theorem pageCount_le (size : Nat) : pageCount size ≤ 2 ^ 20 := by
  unfold pageCount
  dsimp only
  split <;> split <;> omega

/-- Near `2 ^ 32` bytes the sum of the sizes overflows. -/
theorem pageCount_of_overflow (large : 2 ^ 32 ≤ reqSize + 112) (le : reqSize ≤ 2 ^ 32) :
    pageCount (reqSize + 32) = 16 := by
  have st_eq : ((reqSize + 32 + LiballocMajor.bytes) % 2 ^ 32 + LiballocMinor.bytes) % 2 ^ 32 =
      reqSize + 112 - 2 ^ 32 := by
    simp only [LiballocMajor.bytes, LiballocMinor.bytes]
    omega
  rw [pageCount, st_eq]
  split <;> split <;> omega

theorem le_pageCount (limit : reqSize + 112 < 2 ^ 32) :
    reqSize + 112 ≤ 4096 * pageCount (reqSize + 32) := by
  have st_eq : ((reqSize + 32 + LiballocMajor.bytes) % 2 ^ 32 + LiballocMinor.bytes) % 2 ^ 32 =
      reqSize + 112 := by
    simp only [LiballocMajor.bytes, LiballocMinor.bytes]
    omega
  rw [pageCount, st_eq]
  split <;> split <;> omega

/-- No major is as large as an object for which the sum of the sizes overflows. -/
theorem Shape.pages_lt (shape : Shape s) (served : s.malloc mmap reqSize = some (ptr, t))
    (large : 2 ^ 32 ≤ reqSize + 112) (member : maj ∈ t.majors) : 4096 * maj.pages < reqSize := by
  rcases malloc_extends served with ⟨size, ⟨more, pages⟩, size_eq⟩
  have isCount : maj.pages ∈ pagesOf t.majors := List.mem_map_of_mem member
  rw [pages, List.mem_append] at isCount
  rcases isCount with old | new
  · rcases List.mem_map.mp old with ⟨maj', member', same⟩
    have ok := (shape.layout.inUse maj' member').1
    have size_eq := ok.size_eq
    have small := ok.small
    omega
  · have isNew := List.eq_of_mem_replicate new
    by_cases le : reqSize ≤ 2 ^ 32
    · rw [size_eq (by omega), pageCount_of_overflow large le] at isNew
      omega
    · have := pageCount_le size
      omega

/-! ## Requests below the limit that a major of `2 ^ 32` bytes serves -/

theorem need_of_limit (limit : reqSize + 112 < 2 ^ 32) : need (reqSize + 32) = reqSize + 72 := by
  rw [need, LiballocMinor.bytes]
  omega

/-- When no major has enough free bytes, the walk ends after a case 1. -/
theorem walk_of_insufficient (few : ∀ maj ∈ majors, maj.available < need size) (reqSize : Nat)
    (best : Best) (insufficient : Bool) :
    ∃ best', walk size reqSize best insufficient majors =
      (best', .exhausted (insufficient || !majors.isEmpty)) := by
  induction majors generalizing best insufficient with
  | nil => exact ⟨best, by simp [walk]⟩
  | cons maj rest ih =>
      rcases ih (fun other member => few other (List.mem_cons_of_mem _ member))
        (best.remember maj) true with ⟨best', isWalk⟩
      refine ⟨best', ?_⟩
      rw [walk]
      simp only [if_pos (few maj List.mem_cons_self), isWalk]
      simp [Walk.after]

/-- The search then uses a new major at once. -/
theorem search_of_insufficient (few : ∀ maj ∈ majors, maj.available < need size)
    (nonempty : majors ≠ []) (best : Best) (startedBet : Option Nat) :
    ∃ best', search mmap size reqSize best startedBet majors =
      (allocateNewPage mmap majors size).map fun next =>
        (best', majors ++ [(next.placeFirst size reqSize).1],
          (next.placeFirst size reqSize).2) := by
  have fromRoot : ∀ best, ∃ best', search mmap size reqSize best none majors =
      (allocateNewPage mmap majors size).map fun next =>
        (best', majors ++ [(next.placeFirst size reqSize).1],
          (next.placeFirst size reqSize).2) := by
    intro best
    rcases walk_of_insufficient few reqSize best false with ⟨best', isWalk⟩
    have isTrue : (false || !majors.isEmpty) = true := by simp [nonempty]
    rw [isTrue] at isWalk
    refine ⟨best', ?_⟩
    simp only [search, isWalk, extend, useNext, if_true, Option.map_eq_bind]
    rfl
  cases startedBet with
  | none => exact fromRoot best
  | some bet =>
      have subset : majors.dropWhile (fun maj => maj.address != bet) ⊆ majors :=
        (List.dropWhile_sublist _).subset
      have few' := fun maj member => few maj (subset member)
      rcases walk_of_insufficient few' reqSize best false with ⟨best', isWalk⟩
      rcases fromRoot best' with ⟨best'', isSearch⟩
      refine ⟨best'', ?_⟩
      rw [← isSearch]
      simp only [search, isWalk]

/-- A new major of `2 ^ 32` bytes, whose `size` is zero, has enough free bytes for the request. -/
theorem walk_whole (large : 2 ^ 32 < reqSize + 4208) (limit : reqSize + 112 < 2 ^ 32)
    (mapped : allocateNewPage mmap majors (reqSize + 32) = some next) :
    walk (reqSize + 32) reqSize best insufficient [next] =
      (best.remember next, .placed [(next.placeFirst (reqSize + 32) reqSize).1]
        (next.placeFirst (reqSize + 32) reqSize).2) := by
  have whole : pageCount (reqSize + 32) = 2 ^ 20 := by
    have := le_pageCount limit
    have := pageCount_le (reqSize + 32)
    omega
  rcases Option.map_eq_some_iff.mp mapped with ⟨address, _, rfl⟩
  refine walk_cons_of_place ?_ rfl
  rw [need_of_limit limit, available, whole, sub32]
  simp only [LiballocMajor.bytes]
  omega

/-- A request too large for the majors that are there is served by a new one. -/
theorem Shape.malloc_whole (shape : Shape s) (mmap : Mmap) (large : 2 ^ 32 < reqSize + 4208)
    (limit : reqSize + 112 < 2 ^ 32) :
    ∃ bet : LiballocMajor → Best, s.malloc mmap reqSize =
      (allocateNewPage mmap s.majors (reqSize + 32)).map fun next =>
        s.handOut (bet next, s.majors ++ [(next.placeFirst (reqSize + 32) reqSize).1],
          (next.placeFirst (reqSize + 32) reqSize).2) := by
  have malloc_eq : s.malloc mmap reqSize = s.allocate mmap (reqSize + 32) reqSize := by
    have size_eq : (reqSize + 32) % 2 ^ 64 = reqSize + 32 := by omega
    rw [malloc, size_eq, if_neg (by omega)]
  rw [malloc_eq]
  by_cases empty : s.majors = []
  · exact ⟨Best.remember ⟨0, none⟩, allocate_of_nil empty (shape.bestBet_of_nil empty)
      fun next mapped => walk_whole large limit mapped⟩
  · have few : ∀ maj ∈ s.majors, maj.available < need (reqSize + 32) := by
      intro maj member
      have ok := (shape.layout.inUse maj member).1
      have usage := ok.bounds.1
      have size_eq := ok.size_eq
      have small := ok.small
      have header : LiballocMajor.bytes = 40 := rfl
      rw [ok.available_eq, need_of_limit limit]
      omega
    rcases shape.firstBet_spec (reqSize + 32) with ⟨first, isFirst, _⟩
    rcases search_of_insufficient few empty first.1 first.2 with ⟨best, isSearch⟩
    refine ⟨fun _ => best, ?_⟩
    have isRoot : s.memRoot mmap (reqSize + 32) = some s.majors := by
      rcases List.exists_cons_of_ne_nil empty with ⟨root, rest, split⟩
      rw [memRoot, split]
    rw [allocate, isRoot, Option.bind_some, isFirst, Option.bind_some, isSearch, Option.map_map]
    rfl

/-! ## The limit -/

/-- The object lies in the pages of one of the majors. -/
def InMajor (majors : List LiballocMajor) (ptr reqSize : Nat) : Prop :=
  ∃ maj ∈ majors, maj.address ≤ ptr ∧ ptr + reqSize ≤ maj.address + 4096 * maj.pages

theorem Allocated.inMajor (allocated : Allocated s reqSize ptr t min) :
    InMajor t.majors ptr reqSize := by
  have isMinor : min ∈ minorsOf t.majors := allocated.minors.symm.subset List.mem_cons_self
  have spec := pointer_spec (allocated.shape.layout.room isMinor)
  rcases mem_minorsOf.mp isMinor with ⟨maj, member, isIn⟩
  have ok := (allocated.shape.layout.inUse maj member).1
  have inside := ok.inside isIn
  have size_eq := ok.size_eq
  rw [allocated.pointer_eq, allocated.reqSize_eq] at spec
  exact ⟨maj, member, by omega, by omega⟩

/-- The first object of a new major is in its pages. -/
theorem inMajor_of_new {bet : Best} (limit : reqSize + 112 < 2 ^ 32)
    (mapped : allocateNewPage mmap majors (reqSize + 32) = some next)
    (handed : s.handOut (bet, majors ++ [(next.placeFirst (reqSize + 32) reqSize).1],
      (next.placeFirst (reqSize + 32) reqSize).2) = (ptr, t)) : InMajor t.majors ptr reqSize := by
  have header : LiballocMajor.bytes = 40 := rfl
  have header' : LiballocMinor.bytes = 40 := rfl
  have enough := le_pageCount limit
  have pages := allocateNewPage_pages mapped
  have moved := alignment_spec (next.address + LiballocMajor.bytes + LiballocMinor.bytes)
  cases handed
  refine ⟨(next.placeFirst (reqSize + 32) reqSize).1,
    List.mem_append_right _ (List.mem_singleton_self _), ?_⟩
  change next.address ≤ next.address + LiballocMajor.bytes + LiballocMinor.bytes +
        alignment (next.address + LiballocMajor.bytes + LiballocMinor.bytes) ∧
    next.address + LiballocMajor.bytes + LiballocMinor.bytes +
        alignment (next.address + LiballocMajor.bytes + LiballocMinor.bytes) + reqSize ≤
      next.address + 4096 * next.pages
  rw [pages]
  omega

/-- The object of a request below the limit lies in a major. -/
theorem Shape.inMajor (shape : Shape s) (fresh : Fresh mmap)
    (served : s.malloc mmap reqSize = some (ptr, t)) (limit : reqSize + 112 < 2 ^ 32) :
    InMajor t.majors ptr reqSize := by
  by_cases fits : FitsMajor reqSize
  · rcases shape.malloc_spec fresh fits with
      ⟨_, ptr', t', min, outcome, allocated, _⟩ | ⟨_, servedBy⟩
    · cases served.symm.trans outcome
      exact allocated.inMajor
    · unfold ServedBy at servedBy
      split at servedBy
      · cases served.symm.trans servedBy
      · rcases servedBy with ⟨ptr', t', min, outcome, allocated, _⟩
        cases served.symm.trans outcome
        exact allocated.inMajor
  · rcases shape.malloc_whole mmap (Nat.lt_of_not_le fits) limit with ⟨bet, isServed⟩
    rw [served] at isServed
    rcases Option.map_eq_some_iff.mp isServed.symm with ⟨next, mapped, handed⟩
    exact inMajor_of_new limit mapped handed

theorem Shape.inMajor_iff (shape : Shape s) (fresh : Fresh mmap)
    (served : s.malloc mmap reqSize = some (ptr, t)) :
    InMajor t.majors ptr reqSize ↔ reqSize + 112 < 2 ^ 32 := by
  refine ⟨?_, shape.inMajor fresh served⟩
  rintro ⟨maj, member, from_, until_⟩
  by_contra notBelow
  have few := shape.pages_lt served (Nat.le_of_not_lt notBelow) member
  omega

end Liballoc

namespace LiballocState

open Liballoc

/--
After every run of requests that fit, the object of any further request lies in the pages of a
major exactly when its size with the headers and the room for the alignment is below `2 ^ 32`.
-/
theorem servedInMajor_iff {s : LiballocState} {t : Liballoc} {bytes : Bytes}
    {ops : List LiballocOp} {mmap : Mmap} {reqSize ptr : Nat}
    (run : Run (ofFunction next) (initial bytes) ops s) (fits : ∀ op ∈ ops, op.Fits)
    (fresh : Fresh mmap) (served : s.allocator.malloc mmap reqSize = some (ptr, t)) :
    InMajor t.majors ptr reqSize ↔ reqSize + 112 < 2 ^ 32 :=
  (holds_of_run run fits).shape.inMajor_iff fresh served

theorem wholeRequest_served :
    (((replay next (initial fun _ => 0) sessionOps).get sessionOps_allowed).allocator.malloc
      mapBehind (2 ^ 32)).isSome = true := by
  decide +kernel

/-- A request for four gibibytes gets sixteen pages. -/
theorem servedInMajor_iff_whole :
    let s := (replay next (initial fun _ => 0) sessionOps).get sessionOps_allowed
    let outcome := (s.allocator.malloc mapBehind (2 ^ 32)).get wholeRequest_served
    ¬ InMajor outcome.2.majors outcome.1 (2 ^ 32) := by
  intro s outcome isIn
  have served : s.allocator.malloc mapBehind (2 ^ 32) = some (outcome.1, outcome.2) :=
    (Option.some_get wholeRequest_served).symm
  have run := run_of_replay (Option.some_get sessionOps_allowed).symm
  have below := (servedInMajor_iff run sessionOps_fits fresh_mapBehind served).mp isIn
  omega

end LiballocState

end Alaska
