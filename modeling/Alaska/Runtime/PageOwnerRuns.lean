import Alaska.Runtime.HandleTableRuns
import Alaska.Runtime.PageOwners

/-!
# Runs of thread caches that come and go

`CachesOwn` and `Released` say that the owners are right, `Stranded` that a slab is lost for
every thread cache. Each move of the owners keeps all three. Deleting a thread cache gives
nothing back, so it strands the slab that the cache had.
-/

namespace Alaska

open Memory Lts HandleTable

namespace Runtime

variable {rt rt' rt'' : Runtime} {tid n idx : Nat}

/-! ## The invariants of the owners -/

/-- The thread caches in `live` own what they allocate from, each page in one place. -/
structure CachesOwn (rt : Runtime) (live : List Nat) : Prop where
  slab : ∀ tid ∈ live, (rt.caches tid).handleSlab < rt.table.slabCount ∧
    (rt.table.slabs (rt.caches tid).handleSlab).owner = some tid
  page : ∀ tid ∈ live, ∀ slot n, (rt.caches tid).current slot = some n →
    n < rt.heap.allocCount ∧ rt.heap.owners n = some tid
  once : ∀ tid ∈ live, ∀ slot slot' n, (rt.caches tid).current slot = some n →
    (rt.caches tid).current slot' = some n → slot = slot'
  filed : rt.heap.Filed

/-- What no thread cache in `live` allocates from has no owner. -/
structure Released (rt : Runtime) (live : List Nat) : Prop where
  slab : ∀ idx < rt.table.slabCount, (∀ tid ∈ live, (rt.caches tid).handleSlab ≠ idx) →
    (rt.table.slabs idx).owner = none
  page : ∀ n < rt.heap.allocCount, (∀ tid ∈ live, ¬ (rt.caches tid).Refers n) →
    rt.heap.owners n = none

/-- Slab `idx` has an owner, but no thread cache in `live` allocates from it. -/
structure Stranded (rt : Runtime) (live : List Nat) (idx : Nat) : Prop where
  lt : idx < rt.table.slabCount
  owned : (rt.table.slabs idx).owner ≠ none
  unused : ∀ tid ∈ live, (rt.caches tid).handleSlab ≠ idx

theorem Stranded.not_released {live : List Nat} (stranded : rt.Stranded live idx) :
    ¬ rt.Released live := fun released =>
  stranded.owned (released.slab idx stranded.lt stranded.unused)

/-! ### A new page for a slot of a thread cache -/

/-- Thread cache `tid` takes page `n` for a slot and gives back the page it had there. -/
structure SwapsPage (rt rt' : Runtime) (tid : Nat) (slot : Option Nat) (n : Nat) : Prop where
  table : rt'.table = rt.table
  others : ∀ other, other ≠ tid → rt'.caches other = rt.caches other
  handleSlab : (rt'.caches tid).handleSlab = (rt.caches tid).handleSlab
  current : (rt'.caches tid).current = Function.update (rt.caches tid).current slot (some n)
  unused : rt.heap.owners n = none ∨ rt.heap.allocCount ≤ n
  lt : n < rt'.heap.allocCount
  count_le : rt.heap.allocCount ≤ rt'.heap.allocCount
  older : ∀ other < rt'.heap.allocCount, other ≠ n → other < rt.heap.allocCount
  owners : ∀ other, rt'.heap.owners other =
    if (rt.caches tid).current slot = some other then none
    else if other = n then some tid else rt.heap.owners other
  filed : rt'.heap.Filed

theorem owners_putOldPage (h : Heap) (old : Option Nat) (n : Nat) :
    (h.putOldPage old).owners n = if old = some n then none else h.owners n := by
  cases old with
  | none => simp [Heap.putOldPage]
  | some other =>
      by_cases same : n = other
      · subst n
        simp [Heap.putOldPage, Heap.putPage, Heap.setOwner]
      · simp [Heap.putOldPage, Heap.putPage, Heap.setOwner, same, Ne.symm same]

theorem filed_putOldPage {h : Heap} (filed : h.Filed) (old : Option Nat) :
    (h.putOldPage old).Filed := by
  cases old with
  | none => exact filed
  | some other => exact ⟨filed.filed, filed.listed⟩

theorem allocCount_putOldPage (h : Heap) (old : Option Nat) :
    (h.putOldPage old).allocCount = h.allocCount := by
  cases old <;> rfl

theorem current_setClass (cache : ThreadCache) (cls n : Nat) :
    ThreadCache.current { cache with
      sizeClasses := Function.update cache.sizeClasses cls (some n) } =
      Function.update cache.current (some cls) (some n) := by
  funext slot
  cases slot with
  | none => simp [ThreadCache.current]
  | some other =>
      by_cases same : other = cls
      · simp [ThreadCache.current, same]
      · simp [ThreadCache.current, same]

theorem current_setLocality (cache : ThreadCache) (n : Nat) :
    ThreadCache.current { cache with localityPage := some n } =
      Function.update cache.current none (some n) := by
  funext slot
  cases slot <;> simp [ThreadCache.current]

/-- The common end of `new_sized_page` and `new_locality_page`. -/
theorem SwapsPage.of_takes {heap heap' : Heap} {slot : Option Nat} {cache : ThreadCache}
    (takes : rt.heap.Takes tid n heap) (filed : heap'.Filed)
    (allocCount : heap'.allocCount = heap.allocCount)
    (owners : ∀ other, heap'.owners other =
      if (rt.caches tid).current slot = some other then none else heap.owners other)
    (handleSlab : cache.handleSlab = (rt.caches tid).handleSlab)
    (current : cache.current = Function.update (rt.caches tid).current slot (some n)) :
    SwapsPage rt { rt with heap := heap', caches := Function.update rt.caches tid cache } tid slot
      n where
  table := rfl
  others := fun other ne => Function.update_of_ne ne _ _
  handleSlab := by simpa using handleSlab
  current := by simpa using current
  unused := takes.unused
  lt := by
    rw [allocCount]
    exact takes.lt
  count_le := by
    rw [allocCount]
    exact takes.count_le
  older := by
    rw [allocCount]
    exact takes.older
  owners := by
    intro other
    rw [owners, takes.owners, Function.update_apply]
  filed := filed

theorem SwapsPage.newSizedPage {cls : Nat} {r : Nat × Runtime} (filed : rt.heap.Filed)
    (result : rt.newSizedPage tid cls = some r) : SwapsPage rt r.2 tid (some cls) r.1 := by
  simp only [Runtime.newSizedPage, Option.bind_eq_bind, Option.bind_eq_some_iff, Prod.exists]
    at result
  rcases result with ⟨n, heap, found, rest⟩
  have takes := filed.getSizedpage found
  simp only [Option.ite_none_right_eq_some, Option.some.injEq] at rest
  rcases rest with ⟨_, rfl⟩
  have owned : (heap.setOwner n (some tid)).owners = heap.owners := by
    rw [Heap.setOwner, takes.owners]
    exact Function.update_idem ..
  have filed' : (heap.setOwner n (some tid)).Filed := ⟨takes.filed.filed, takes.filed.listed⟩
  refine .of_takes takes (filed_putOldPage filed' _)
    (allocCount_putOldPage _ _) (fun other => ?_) rfl (current_setClass _ _ _)
  rw [owners_putOldPage, owned]
  rfl

theorem SwapsPage.newLocalityPage {size : Nat} {r : Nat × Runtime} (filed : rt.heap.Filed)
    (result : rt.newLocalityPage tid size = some r) : SwapsPage rt r.2 tid none r.1 := by
  simp only [Runtime.newLocalityPage, Option.bind_eq_bind, Option.bind_eq_some_iff, Prod.exists]
    at result
  rcases result with ⟨n, heap, found, rest⟩
  have takes := filed.getLocalitypage found
  simp only [Option.ite_none_right_eq_some, Option.some.injEq] at rest
  rcases rest with ⟨_, rfl⟩
  exact .of_takes takes (filed_putOldPage takes.filed _) (allocCount_putOldPage _ _)
    (fun other => owners_putOldPage _ _ _) rfl (current_setLocality _ _)

namespace CachesOwn

variable {live : List Nat}

/-- A page that is in no use is not current anywhere. -/
theorem not_current (owns : rt.CachesOwn live)
    (unused : rt.heap.owners n = none ∨ rt.heap.allocCount ≤ n) {slot : Option Nat}
    (member : tid ∈ live) : (rt.caches tid).current slot ≠ some n := by
  intro current
  rcases owns.page tid member slot n current with ⟨lt, owner⟩
  rcases unused with unowned | ge
  · rw [owner] at unowned
    exact nomatch unowned
  · omega

/-- The handle slabs after a thread cache has swapped a page. -/
theorem handleSlab_swapsPage {slot : Option Nat} (swaps : SwapsPage rt rt' tid slot n)
    (other : Nat) : (rt'.caches other).handleSlab = (rt.caches other).handleSlab := by
  by_cases same : other = tid
  · rw [same]
    exact swaps.handleSlab
  · rw [swaps.others other same]

theorem swapsPage {slot : Option Nat} (owns : rt.CachesOwn live) (member : tid ∈ live)
    (swaps : SwapsPage rt rt' tid slot n) : rt'.CachesOwn live where
  slab := by
    intro other isLive
    rw [handleSlab_swapsPage swaps, swaps.table]
    exact owns.slab other isLive
  page := by
    intro other isLive slot' k current
    by_cases same : other = tid
    · subst other
      rw [swaps.current] at current
      by_cases slot_eq : slot' = slot
      · subst slot'
        rw [Function.update_self, Option.some.injEq] at current
        subst k
        refine ⟨swaps.lt, ?_⟩
        rw [swaps.owners, if_neg (owns.not_current swaps.unused member), if_pos rfl]
      · rw [Function.update_of_ne slot_eq] at current
        rcases owns.page tid member slot' k current with ⟨lt, owner⟩
        refine ⟨lt.trans_le swaps.count_le, ?_⟩
        have elsewhere : (rt.caches tid).current slot ≠ some k := fun here =>
          slot_eq (owns.once tid member slot' slot k current here)
        have different : k ≠ n := by
          rintro rfl
          exact owns.not_current swaps.unused member current
        rw [swaps.owners, if_neg elsewhere, if_neg different]
        exact owner
    · rw [swaps.others other same] at current
      rcases owns.page other isLive slot' k current with ⟨lt, owner⟩
      refine ⟨lt.trans_le swaps.count_le, ?_⟩
      have elsewhere : (rt.caches tid).current slot ≠ some k := by
        intro here
        rw [(owns.page tid member slot k here).2] at owner
        exact same (Option.some.inj owner).symm
      have different : k ≠ n := by
        rintro rfl
        exact owns.not_current swaps.unused isLive current
      rw [swaps.owners, if_neg elsewhere, if_neg different]
      exact owner
  once := by
    intro other isLive slot₁ slot₂ k first second
    by_cases same : other = tid
    · subst other
      have unused : ∀ slot', (rt.caches tid).current slot' ≠ some n := fun slot' =>
        owns.not_current swaps.unused member
      rw [swaps.current, Function.update_apply] at first second
      split at first <;> split at second
      · next left right => exact left.trans right.symm
      · rw [← first] at second
        exact absurd second (unused _)
      · rw [← second] at first
        exact absurd first (unused _)
      · exact owns.once tid member slot₁ slot₂ k first second
    · rw [swaps.others other same] at first second
      exact owns.once other isLive slot₁ slot₂ k first second
  filed := swaps.filed

theorem released_swapsPage {slot : Option Nat} (released : rt.Released live) (member : tid ∈ live)
    (swaps : SwapsPage rt rt' tid slot n) : rt'.Released live where
  slab := by
    intro idx lt unused
    rw [swaps.table] at lt ⊢
    refine released.slab idx lt fun other isLive => ?_
    rw [← handleSlab_swapsPage swaps]
    exact unused other isLive
  page := by
    intro k lt unused
    rw [swaps.owners]
    by_cases old : (rt.caches tid).current slot = some k
    · rw [if_pos old]
    rw [if_neg old]
    by_cases new : k = n
    · refine absurd ⟨slot, ?_⟩ (unused tid member)
      rw [swaps.current, Function.update_self, new]
    rw [if_neg new]
    refine released.page k (swaps.older k lt new) ?_
    rintro other isLive ⟨slot', current⟩
    refine unused other isLive ⟨slot', ?_⟩
    by_cases same : other = tid
    · subst other
      have different : slot' ≠ slot := by
        rintro rfl
        exact old current
      rw [swaps.current, Function.update_of_ne different]
      exact current
    · rw [swaps.others other same]
      exact current

theorem stranded_swapsPage {slot : Option Nat} (stranded : rt.Stranded live idx)
    (swaps : SwapsPage rt rt' tid slot n) : rt'.Stranded live idx where
  lt := by
    rw [swaps.table]
    exact stranded.lt
  owned := by
    rw [swaps.table]
    exact stranded.owned
  unused := by
    intro other isLive
    rw [handleSlab_swapsPage swaps]
    exact stranded.unused other isLive

/-! ### A new slab -/

/-- The slab that `tid` has after `new_mapping` exchanged its full one. -/
theorem handleSlab_newHandleSlab (rt : Runtime) (tid other : Nat) :
    ((rt.newHandleSlab tid).caches other).handleSlab =
      if other = tid then (rt.table.newSlab tid).1 else (rt.caches other).handleSlab := by
  by_cases same : other = tid
  · simp [Runtime.newHandleSlab, same]
  · simp [Runtime.newHandleSlab, same]

theorem current_newHandleSlab (rt : Runtime) (tid other : Nat) :
    ((rt.newHandleSlab tid).caches other).current = (rt.caches other).current := by
  by_cases same : other = tid
  · subst other
    funext slot
    cases slot <;> simp [Runtime.newHandleSlab, ThreadCache.current]
  · simp [Runtime.newHandleSlab, same]

theorem owner_newHandleSlab (rt : Runtime) (tid idx : Nat) :
    ((rt.newHandleSlab tid).table.slabs idx).owner =
      if idx = (rt.caches tid).handleSlab then none
      else ((rt.table.newSlab tid).2.slabs idx).owner := by
  by_cases same : idx = (rt.caches tid).handleSlab
  · simp [Runtime.newHandleSlab, HandleTable.setOwner, HandleTable.setSlab, same]
  · simp [Runtime.newHandleSlab, HandleTable.setOwner, HandleTable.setSlab, same]

theorem newHandleSlab (owns : rt.CachesOwn live) (member : tid ∈ live) :
    (rt.newHandleSlab tid).CachesOwn live where
  slab := by
    intro other isLive
    have own := newSlab_keeps (owns.slab tid member).1 (owns.slab tid member).2 tid
    rw [handleSlab_newHandleSlab, owner_newHandleSlab]
    by_cases same : other = tid
    · subst other
      rw [if_pos rfl, if_neg own.2.1.symm]
      exact ⟨newSlab_lt rt.table tid, (newSlab_owner rt.table tid).1⟩
    · have kept := newSlab_keeps (owns.slab other isLive).1 (owns.slab other isLive).2 tid
      have different : (rt.caches other).handleSlab ≠ (rt.caches tid).handleSlab := by
        intro equal
        have conflict := own.2.2
        rw [← equal, kept.2.2] at conflict
        exact same (Option.some.inj conflict)
      rw [if_neg same, if_neg different]
      exact ⟨kept.1, kept.2.2⟩
  page := by
    intro other isLive slot k current
    rw [current_newHandleSlab] at current
    exact owns.page other isLive slot k current
  once := by
    intro other isLive slot slot' k first second
    rw [current_newHandleSlab] at first second
    exact owns.once other isLive slot slot' k first second
  filed := owns.filed

theorem released_newHandleSlab (released : rt.Released live) (member : tid ∈ live) :
    (rt.newHandleSlab tid).Released live where
  slab := by
    intro idx lt unused
    rw [owner_newHandleSlab]
    split
    · rfl
    · next different =>
        have notNew : idx ≠ (rt.table.newSlab tid).1 := by
          have := unused tid member
          rw [handleSlab_newHandleSlab, if_pos rfl] at this
          exact this.symm
        rw [(newSlab_owner rt.table tid).2.1 idx notNew]
        refine released.slab idx (newSlab_older lt notNew) fun other isLive => ?_
        by_cases same : other = tid
        · rw [same]
          exact Ne.symm different
        · have := unused other isLive
          rwa [handleSlab_newHandleSlab, if_neg same] at this
  page := by
    intro k lt unused
    refine released.page k lt ?_
    rintro other isLive ⟨slot, current⟩
    refine unused other isLive ⟨slot, ?_⟩
    rw [current_newHandleSlab]
    exact current

theorem stranded_newHandleSlab (stranded : rt.Stranded live idx) (member : tid ∈ live) :
    (rt.newHandleSlab tid).Stranded live idx := by
  rcases Option.ne_none_iff_exists'.mp stranded.owned with ⟨dead, owner⟩
  have kept := newSlab_keeps stranded.lt owner tid
  refine ⟨kept.1, ?_, fun other isLive => ?_⟩
  · rw [owner_newHandleSlab, if_neg (stranded.unused tid member).symm, kept.2.2]
    exact Option.some_ne_none dead
  · rw [handleSlab_newHandleSlab]
    split
    · exact kept.2.1.symm
    · exact stranded.unused other isLive

/-! ### All operations of a thread cache -/

theorem same (owns : rt.CachesOwn live) (same : SameOwners rt rt') : rt'.CachesOwn live where
  slab := by
    intro tid member
    rw [same.caches, same.slabCount, same.slabOwner]
    exact owns.slab tid member
  page := by
    intro tid member slot n current
    rw [same.caches] at current
    rw [same.allocCount, same.owners]
    exact owns.page tid member slot n current
  once := by
    rw [same.caches]
    exact owns.once
  filed := by
    have magazine : rt'.heap.magazine = rt.heap.magazine := by
      funext kind
      cases kind <;> simp [Heap.magazine, same.sizeClasses, same.localityPages]
    constructor
    · intro n lt
      rw [magazine, same.kinds]
      exact owns.filed.filed n (same.allocCount ▸ lt)
    · intro kind n member
      rw [magazine] at member
      rw [same.allocCount]
      exact owns.filed.listed kind n member

theorem ownerMove (owns : rt.CachesOwn live) (member : tid ∈ live) (move : OwnerMove tid rt rt') :
    rt'.CachesOwn live := by
  induction move with
  | same same => exact owns.same same
  | slab => exact owns.newHandleSlab member
  | sizedPage result => exact owns.swapsPage member (.newSizedPage owns.filed result)
  | localityPage result => exact owns.swapsPage member (.newLocalityPage owns.filed result)
  | trans first second ih ih' => exact ih' (ih owns)

theorem released_ownerMove (owns : rt.CachesOwn live) (released : rt.Released live)
    (member : tid ∈ live) (move : OwnerMove tid rt rt') : rt'.Released live := by
  induction move with
  | same same =>
      constructor
      · intro idx lt
        rw [same.caches, same.slabOwner]
        exact released.slab idx (same.slabCount ▸ lt)
      · intro n lt
        rw [same.caches, same.owners]
        exact released.page n (same.allocCount ▸ lt)
  | slab => exact released_newHandleSlab released member
  | sizedPage result => exact released_swapsPage released member (.newSizedPage owns.filed result)
  | localityPage result =>
      exact released_swapsPage released member (.newLocalityPage owns.filed result)
  | trans first second ih ih' => exact ih' (owns.ownerMove member first) (ih owns released)

theorem stranded_ownerMove (owns : rt.CachesOwn live) (stranded : rt.Stranded live idx)
    (member : tid ∈ live) (move : OwnerMove tid rt rt') : rt'.Stranded live idx := by
  induction move with
  | same same =>
      refine ⟨?_, ?_, ?_⟩
      · rw [same.slabCount]
        exact stranded.lt
      · rw [same.slabOwner]
        exact stranded.owned
      · rw [same.caches]
        exact stranded.unused
  | slab => exact stranded_newHandleSlab stranded member
  | sizedPage result => exact stranded_swapsPage stranded (.newSizedPage owns.filed result)
  | localityPage result => exact stranded_swapsPage stranded (.newLocalityPage owns.filed result)
  | trans first second ih ih' => exact ih' (owns.ownerMove member first) (ih owns stranded)

end CachesOwn

/-! ### Creation of a thread cache -/

/-- `new_threadcache`, for a thread cache that `new` places at `tid`. -/
def newThreadcacheAt (rt : Runtime) (tid : Nat) : Runtime :=
  let slab := rt.table.newSlab tid
  { rt with
    table := slab.2
    cacheCount := rt.cacheCount + 1
    caches := Function.update rt.caches tid ⟨slab.1, fun _ => none, none⟩ }

namespace CachesOwn

variable {live : List Nat}

theorem caches_newThreadcacheAt (fresh : tid ∉ live) {other : Nat} (member : other ∈ live) :
    (rt.newThreadcacheAt tid).caches other = rt.caches other := by
  have ne : other ≠ tid := by
    rintro rfl
    exact fresh member
  exact Function.update_of_ne ne _ _

theorem cache_newThreadcacheAt (rt : Runtime) (tid : Nat) :
    (rt.newThreadcacheAt tid).caches tid = ⟨(rt.table.newSlab tid).1, fun _ => none, none⟩ :=
  Function.update_self ..

theorem current_newThreadcacheAt (rt : Runtime) (tid : Nat) (slot : Option Nat) :
    ((rt.newThreadcacheAt tid).caches tid).current slot = none := by
  rw [cache_newThreadcacheAt]
  cases slot <;> rfl

theorem newThreadcacheAt (owns : rt.CachesOwn live) (fresh : tid ∉ live) :
    (rt.newThreadcacheAt tid).CachesOwn (tid :: live) where
  slab := by
    intro other isLive
    rcases List.mem_cons.mp isLive with rfl | isLive
    · rw [cache_newThreadcacheAt]
      exact ⟨newSlab_lt rt.table other, (newSlab_owner rt.table other).1⟩
    · rw [caches_newThreadcacheAt fresh isLive]
      have kept := newSlab_keeps (owns.slab other isLive).1 (owns.slab other isLive).2 tid
      exact ⟨kept.1, kept.2.2⟩
  page := by
    intro other isLive slot n current
    rcases List.mem_cons.mp isLive with rfl | isLive
    · rw [current_newThreadcacheAt] at current
      exact nomatch current
    · rw [caches_newThreadcacheAt fresh isLive] at current
      exact owns.page other isLive slot n current
  once := by
    intro other isLive slot slot' n first second
    rcases List.mem_cons.mp isLive with rfl | isLive
    · rw [current_newThreadcacheAt] at first
      exact nomatch first
    · rw [caches_newThreadcacheAt fresh isLive] at first second
      exact owns.once other isLive slot slot' n first second
  filed := owns.filed

theorem released_newThreadcacheAt (released : rt.Released live) (fresh : tid ∉ live) :
    (rt.newThreadcacheAt tid).Released (tid :: live) where
  slab := by
    intro idx lt unused
    have notNew : idx ≠ (rt.table.newSlab tid).1 := by
      have := unused tid List.mem_cons_self
      rw [cache_newThreadcacheAt] at this
      exact this.symm
    refine (congrArg HandleSlab.owner ((newSlab_owner rt.table tid).2.1 idx notNew)).trans ?_
    refine released.slab idx (newSlab_older lt notNew) fun other isLive => ?_
    rw [← caches_newThreadcacheAt fresh isLive]
    exact unused other (List.mem_cons_of_mem _ isLive)
  page := by
    intro n lt unused
    refine released.page n lt fun other isLive => ?_
    rw [← caches_newThreadcacheAt fresh isLive]
    exact unused other (List.mem_cons_of_mem _ isLive)

theorem stranded_newThreadcacheAt (stranded : rt.Stranded live idx) (fresh : tid ∉ live) :
    (rt.newThreadcacheAt tid).Stranded (tid :: live) idx := by
  rcases Option.ne_none_iff_exists'.mp stranded.owned with ⟨dead, owner⟩
  have kept := newSlab_keeps stranded.lt owner tid
  refine ⟨kept.1, ?_, fun other isLive => ?_⟩
  · exact fun none => Option.some_ne_none dead (kept.2.2.symm.trans none)
  · rcases List.mem_cons.mp isLive with rfl | isLive
    · rw [cache_newThreadcacheAt]
      exact kept.2.1.symm
    · rw [caches_newThreadcacheAt fresh isLive]
      exact stranded.unused other isLive

/-! ### Deletion of a thread cache -/

theorem delete (owns : rt.CachesOwn live) (tid : Nat) :
    rt.CachesOwn (live.filter (· ≠ tid)) where
  slab other isLive := owns.slab other (List.mem_filter.mp isLive).1
  page other isLive := owns.page other (List.mem_filter.mp isLive).1
  once other isLive := owns.once other (List.mem_filter.mp isLive).1
  filed := owns.filed

/-- The slab of a deleted thread cache keeps its owner. -/
theorem stranded_delete (owns : rt.CachesOwn live) (member : tid ∈ live) :
    rt.Stranded (live.filter (· ≠ tid)) (rt.caches tid).handleSlab := by
  rcases owns.slab tid member with ⟨lt, owner⟩
  refine ⟨lt, ?_, ?_⟩
  · rw [owner]
    exact Option.some_ne_none tid
  · intro other isLive same
    rcases List.mem_filter.mp isLive with ⟨before, different⟩
    have otherOwner := (owns.slab other before).2
    rw [same, owner] at otherOwner
    simp [Option.some.inj otherOwner] at different

end CachesOwn

end Runtime

/-! ## Runs -/

/-- A runtime and the thread caches that exist. -/
structure OwnerState where
  rt : Runtime
  live : List Nat

inductive OwnerOp where
  | newThreadcache (tid : Nat)
  | delThreadcache (tid : Nat)
  | halloc (tid size : Nat) (zero : Bool) (address : Nat)
  | hfree (tid handle : Nat)
  | hrealloc (tid handle newSize address : Nat)
  | localize (tid m epoch : Nat)
  deriving DecidableEq

namespace OwnerState

/-- A fresh runtime without thread caches. -/
def start (heapStart : Nat) : OwnerState := ⟨Runtime.create heapStart, []⟩

/-- Runs an operation of a thread cache that exists. -/
def onCache (s : OwnerState) (tid : Nat) (operation : Option Runtime) : Option OwnerState :=
  if tid ∈ s.live then operation.map fun rt => { s with rt := rt } else none

/-- One operation; `del_threadcache` only removes the thread cache from the set `tcs`. -/
def next (s : OwnerState) : OwnerOp → Option OwnerState
  | .newThreadcache tid =>
      if tid ∈ s.live then none else some ⟨s.rt.newThreadcacheAt tid, tid :: s.live⟩
  | .delThreadcache tid =>
      if tid ∈ s.live then some ⟨s.rt, s.live.filter (· ≠ tid)⟩ else none
  | .halloc tid size zero address =>
      s.onCache tid ((s.rt.halloc tid size zero address).map Prod.snd)
  | .hfree tid handle => s.onCache tid (s.rt.hfree tid handle)
  | .hrealloc tid handle newSize address =>
      s.onCache tid ((s.rt.hrealloc tid handle newSize address).map Prod.snd)
  | .localize tid m epoch => s.onCache tid ((s.rt.localize tid m epoch).map Prod.snd)

/--
Every page and slab is current for at most one thread cache, its owner; what is current for
none has no owner, so that a search that it satisfies finds it, or another one.
-/
structure Owned (s : OwnerState) : Prop where
  slab : ∀ tid ∈ s.live, (s.rt.table.slabs (s.rt.caches tid).handleSlab).owner = some tid
  slab_alone : ∀ tid ∈ s.live, ∀ other ∈ s.live,
    (s.rt.caches tid).handleSlab = (s.rt.caches other).handleSlab → tid = other
  page : ∀ tid ∈ s.live, ∀ n, (s.rt.caches tid).Refers n → s.rt.heap.owners n = some tid
  page_alone : ∀ tid ∈ s.live, ∀ other ∈ s.live, ∀ n, (s.rt.caches tid).Refers n →
    (s.rt.caches other).Refers n → tid = other
  slab_released : ∀ idx < s.rt.table.slabCount,
    (∀ tid ∈ s.live, (s.rt.caches tid).handleSlab ≠ idx) → (s.rt.table.slabs idx).owner = none
  page_released : ∀ n < s.rt.heap.allocCount, (∀ tid ∈ s.live, ¬ (s.rt.caches tid).Refers n) →
    s.rt.heap.owners n = none
  slab_found : ∀ idx < s.rt.table.slabCount,
    (∀ tid ∈ s.live, (s.rt.caches tid).handleSlab ≠ idx) →
    (s.rt.table.slabs idx).allocator.numFree > 0 →
    ∀ owner, (s.rt.table.newSlab owner).1 < s.rt.table.slabCount
  page_found : ∀ n < s.rt.heap.allocCount, (∀ tid ∈ s.live, ¬ (s.rt.caches tid).Refers n) →
    ∀ requirement, (s.rt.heap.available n % 2 ^ 64).toNat ≥ requirement →
    (s.rt.heap.findPage (s.rt.heap.magazine (s.rt.heap.pages n).kind) requirement).isSome

variable {s t : OwnerState} {op : OwnerOp}

theorem owned_of_released (owns : s.rt.CachesOwn s.live) (released : s.rt.Released s.live) :
    s.Owned where
  slab tid member := (owns.slab tid member).2
  slab_alone := by
    intro tid member other member' same
    have owner := (owns.slab tid member).2
    rw [same, (owns.slab other member').2] at owner
    exact (Option.some.inj owner).symm
  page := by
    rintro tid member n ⟨slot, current⟩
    exact (owns.page tid member slot n current).2
  page_alone := by
    rintro tid member other member' n ⟨slot, current⟩ ⟨slot', current'⟩
    have owner := (owns.page tid member slot n current).2
    rw [(owns.page other member' slot' n current').2] at owner
    exact (Option.some.inj owner).symm
  slab_released := released.slab
  page_released := released.page
  slab_found := by
    intro idx lt unused room owner
    unfold newSlab
    split
    · next found search => exact List.mem_range.mp (List.mem_of_find?_eq_some search)
    · next search =>
        rw [List.find?_eq_none] at search
        have notFound := search idx (List.mem_range.mpr lt)
        simp [released.slab idx lt unused, room] at notFound
  page_found := by
    intro n lt unused requirement room
    unfold Heap.findPage
    rw [List.find?_isSome]
    refine ⟨n, owns.filed.filed n lt, ?_⟩
    rw [Bool.and_eq_true, decide_eq_true_eq, released.page n lt unused]
    exact ⟨room, rfl⟩

theorem Owned.released (owned : s.Owned) : s.rt.Released s.live :=
  ⟨owned.slab_released, owned.page_released⟩

/-- What a step can do. -/
inductive Step (s : OwnerState) : OwnerOp → OwnerState → Prop where
  | creates {tid : Nat} (fresh : tid ∉ s.live) :
      Step s (.newThreadcache tid) ⟨s.rt.newThreadcacheAt tid, tid :: s.live⟩
  | deletes {tid : Nat} (member : tid ∈ s.live) :
      Step s (.delThreadcache tid) ⟨s.rt, s.live.filter (· ≠ tid)⟩
  | moves {op : OwnerOp} {tid : Nat} {rt : Runtime} (keeps : ∀ tid, op ≠ .delThreadcache tid)
      (member : tid ∈ s.live) (move : Runtime.OwnerMove tid s.rt rt) : Step s op ⟨rt, s.live⟩

theorem Step.of_onCache {tid : Nat} {operation : Option Runtime}
    (keeps : ∀ tid, op ≠ .delThreadcache tid)
    (move : ∀ rt, operation = some rt → Runtime.OwnerMove tid s.rt rt)
    (result : s.onCache tid operation = some t) : s.Step op t := by
  simp only [onCache, Option.ite_none_right_eq_some, Option.map_eq_some_iff] at result
  rcases result with ⟨member, rt, returned, rfl⟩
  exact .moves keeps member (move rt returned)

theorem Step.of_next (step : s.next op = some t) : s.Step op t := by
  cases op with
  | newThreadcache tid =>
      simp only [next, Option.ite_none_left_eq_some, Option.some.injEq] at step
      rcases step with ⟨fresh, rfl⟩
      exact .creates fresh
  | delThreadcache tid =>
      simp only [next, Option.ite_none_right_eq_some, Option.some.injEq] at step
      rcases step with ⟨member, rfl⟩
      exact .deletes member
  | halloc tid size zero address =>
      refine .of_onCache (by simp) (fun rt returned => ?_) step
      rcases Option.map_eq_some_iff.mp returned with ⟨r, result, rfl⟩
      exact .halloc result
  | hfree tid handle => exact .of_onCache (by simp) (fun rt returned => .hfree returned) step
  | hrealloc tid handle newSize address =>
      refine .of_onCache (by simp) (fun rt returned => ?_) step
      rcases Option.map_eq_some_iff.mp returned with ⟨r, result, rfl⟩
      exact .hrealloc result
  | localize tid m epoch =>
      refine .of_onCache (by simp) (fun rt returned => ?_) step
      rcases Option.map_eq_some_iff.mp returned with ⟨r, result, rfl⟩
      exact .localize result

theorem Step.owns (step : s.Step op t) (owns : s.rt.CachesOwn s.live) :
    t.rt.CachesOwn t.live := by
  cases step with
  | creates fresh => exact owns.newThreadcacheAt fresh
  | deletes member => exact owns.delete _
  | moves _ member move => exact owns.ownerMove member move

theorem Step.released (step : s.Step op t) (owns : s.rt.CachesOwn s.live)
    (released : s.rt.Released s.live) (keeps : ∀ tid, op ≠ .delThreadcache tid) :
    t.rt.Released t.live := by
  cases step with
  | creates fresh => exact Runtime.CachesOwn.released_newThreadcacheAt released fresh
  | deletes member => exact absurd rfl (keeps _)
  | moves _ member move => exact owns.released_ownerMove released member move

/-- A slab that nobody can use again stays so. -/
theorem Step.stranded (step : s.Step op t) (owns : s.rt.CachesOwn s.live)
    (stranded : ∃ idx, s.rt.Stranded s.live idx) : ∃ idx, t.rt.Stranded t.live idx := by
  rcases stranded with ⟨idx, stranded⟩
  cases step with
  | creates fresh => exact ⟨idx, Runtime.CachesOwn.stranded_newThreadcacheAt stranded fresh⟩
  | deletes member =>
      exact ⟨idx, stranded.lt, stranded.owned, fun other isLive =>
        stranded.unused other (List.mem_filter.mp isLive).1⟩
  | moves _ member move => exact ⟨idx, owns.stranded_ownerMove stranded member move⟩

theorem start_owns (heapStart : Nat) : (start heapStart).rt.CachesOwn (start heapStart).live where
  slab _ member := absurd member List.not_mem_nil
  page _ member := absurd member List.not_mem_nil
  once _ member := absurd member List.not_mem_nil
  filed := by
    refine ⟨fun n lt => absurd lt (Nat.not_lt_zero n), fun kind n member => ?_⟩
    cases kind <;> exact absurd member List.not_mem_nil

theorem start_released (heapStart : Nat) :
    (start heapStart).rt.Released (start heapStart).live where
  slab idx lt := absurd lt (Nat.not_lt_zero idx)
  page n lt := absurd lt (Nat.not_lt_zero n)

theorem owns_of_run {ops : List OwnerOp} (run : Run (ofFunction next) s ops t)
    (owns : s.rt.CachesOwn s.live) : t.rt.CachesOwn t.live :=
  run.invariant (fun s => s.rt.CachesOwn s.live)
    (fun _ _ _ before step => (Step.of_next step).owns before) owns

theorem released_of_run {ops : List OwnerOp} (run : Run (ofFunction next) s ops t)
    (owns : s.rt.CachesOwn s.live) (released : s.rt.Released s.live)
    (keeps : ∀ tid, .delThreadcache tid ∉ ops) : t.rt.Released t.live := by
  induction run with
  | nil => exact released
  | @cons s middle t op ops head tail ih =>
      have step := Step.of_next head
      refine ih (step.owns owns) (step.released owns released ?_) ?_
      · rintro tid rfl
        exact keeps tid List.mem_cons_self
      · exact fun tid member => keeps tid (List.mem_cons_of_mem _ member)

/-- After the deletion of a thread cache some slab is stranded for good. -/
theorem stranded_of_run {ops : List OwnerOp} {tid : Nat} (run : Run (ofFunction next) s ops t)
    (owns : s.rt.CachesOwn s.live) (deletes : .delThreadcache tid ∈ ops) :
    ∃ idx, t.rt.Stranded t.live idx := by
  rcases List.append_of_mem deletes with ⟨before, after, rfl⟩
  rcases run.of_append with ⟨middle, first, rest⟩
  have owns := owns_of_run first owns
  cases rest with
  | @cons _ deleted _ _ _ head tail =>
      have step := Step.of_next head
      have stranded : ∃ idx, deleted.rt.Stranded deleted.live idx := by
        cases step with
        | deletes member => exact ⟨_, owns.stranded_delete member⟩
        | moves keeps => exact absurd rfl (keeps tid)
      have all := tail.invariant
        (fun s => s.rt.CachesOwn s.live ∧ ∃ idx, s.rt.Stranded s.live idx)
        (fun _ _ _ holds next => ⟨(Step.of_next next).owns holds.1,
          (Step.of_next next).stranded holds.1 holds.2⟩) ⟨step.owns owns, stranded⟩
      exact all.2

/-- The owners are right after a run exactly when it deleted no thread cache. -/
theorem owned_iff_keeps_threadcaches {heapStart : Nat} {ops : List OwnerOp}
    (run : Run (ofFunction next) (start heapStart) ops s) :
    s.Owned ↔ ∀ tid, .delThreadcache tid ∉ ops := by
  have owns := owns_of_run run (start_owns heapStart)
  constructor
  · intro owned tid deletes
    rcases stranded_of_run run (start_owns heapStart) deletes with ⟨idx, stranded⟩
    exact stranded.not_released owned.released
  · intro keeps
    exact owned_of_released owns
      (released_of_run run (start_owns heapStart) (start_released heapStart) keeps)

/-- Two thread caches share the runtime. -/
def sharedOps : List OwnerOp :=
  [.newThreadcache 7, .newThreadcache 3, .halloc 7 16 true 0, .halloc 3 40 false 0]

theorem sharedOps_allowed : (replay next (start (2 ^ 44)) sharedOps).isSome = true := by
  decide +kernel

theorem owned_iff_sharedOps :
    ((replay next (start (2 ^ 44)) sharedOps).get sharedOps_allowed).Owned ↔
      ∀ tid, .delThreadcache tid ∉ sharedOps :=
  owned_iff_keeps_threadcaches (run_of_replay (Option.some_get sharedOps_allowed).symm)

/-- A thread cache that is created and deleted leaves its slab with an owner. -/
theorem not_owned_delThreadcache :
    ¬ ∀ heapStart ops s, Run (ofFunction next) (start heapStart) ops s → s.Owned := by
  intro claim
  have owned := claim (2 ^ 44) [.newThreadcache 0, .delThreadcache 0] _ (run_of_replay rfl)
  have released := owned.slab_released 0 (by decide) fun _ member =>
    absurd member List.not_mem_nil
  exact absurd released (by decide)

end OwnerState

end Alaska
