import Alaska.Lib.Run
import Alaska.Runtime.SizedPageCompaction

/-!
# Runs of a sized page

A page is used by the thread caches: `alloc` followed by the caller's `set_pointer`,
the sequence of `hrealloc` within one page, the two releases, `compact` and `jumble`,
while pin bits change and clients write to their objects. `PageState.next` is one such
step, and `live` keeps the mappings whose object is in the page.

`Invariant` carries the representation invariant through every run, together with the
slot that the last compaction lost, if any.
-/

namespace Alaska

open Memory Lts

instance (m : Nat) : Decidable (Mapping.InTable m) :=
  inferInstanceAs (Decidable (_ ∧ _ ∧ _))

/-- A page, the memory it lives in, and the mappings of its live objects. -/
structure PageState where
  page : SizedPage
  store : Store
  live : List Nat

inductive PageOp where
  | alloc (m size : Nat)
  | reallocate (m size : Nat)
  | releaseLocal (m : Nat)
  | releaseRemote (m : Nat)
  | compact
  | jumble
  | setPinned (m : Nat) (pinned : Bool)
  | write (address : Nat) (value : UInt8)
  deriving DecidableEq

namespace PageState

/-- A fresh page of class `cls` over `memory`. -/
def start (memory cls : Nat) (store : Store) : PageState :=
  ⟨SizedPage.setSizeClass memory cls, store, []⟩

/-- `alloc`, and `set_pointer` when it succeeds. -/
def alloc (t : PageState) (m size : Nat) : PageState :=
  let r := t.page.alloc t.store m size
  if r.object = 0 then
    ⟨r.page, r.store, t.live⟩
  else
    ⟨r.page, r.store.setPointer m r.object, m :: t.live⟩

/-- `hrealloc` of a live object when the page also backs the new size. -/
def reallocate (t : PageState) (m size : Nat) : PageState :=
  let originalData := (t.store.mappings m).getPointer
  let originalSize := t.page.sizeOf originalData
  let r := t.page.alloc t.store m size
  if r.object = 0 then
    ⟨r.page, r.store, t.live⟩
  else
    let copySize := if originalSize > size then size else originalSize
    let copied :=
      { r.store with bytes := Bytes.memmove r.store.bytes r.object originalData copySize }
    let released := r.page.releaseLocal copied originalData
    ⟨released.1, released.2.setPointer m r.object, t.live⟩

/-- One step; `none` when the caller may not take it. -/
def next (t : PageState) : PageOp → Option PageState
  | .alloc m size =>
      if m ∈ t.live ∨ ¬ Mapping.InTable m then none else some (t.alloc m size)
  | .reallocate m size =>
      if m ∉ t.live ∨ t.page.objectSize < size then none else some (t.reallocate m size)
  | .releaseLocal m =>
      if m ∉ t.live then
        none
      else
        let released := t.page.releaseLocal t.store (t.store.mappings m).getPointer
        some ⟨released.1, released.2, t.live.erase m⟩
  | .releaseRemote m =>
      if m ∉ t.live then
        none
      else
        let released := t.page.releaseRemote t.store (t.store.mappings m).getPointer
        some ⟨released.1, released.2, t.live.erase m⟩
  | .compact =>
      let compacted := t.page.compact t.store
      some ⟨compacted.2.1, compacted.2.2, t.live⟩
  | .jumble =>
      let jumbled := t.page.jumble t.store
      some ⟨jumbled.2.1, jumbled.2.2, t.live⟩
  | .setPinned m pinned => some { t with store := t.store.setPinned m pinned }
  | .write address value =>
      if ∃ m ∈ t.live, (t.store.mappings m).getPointer ≤ address ∧
          address < (t.store.mappings m).getPointer + t.page.objectSize then
        some { t with store.bytes := Function.update t.store.bytes address value }
      else
        none

end PageState

namespace SizedPage

variable {p p' : SizedPage} {s s' : Store}

/-! ## The mappings a page names -/

/-- The mappings named by the headers, in slot order. -/
def names (p : SizedPage) : List Nat :=
  (List.range p.capacity).filterMap fun index => (p.headers index).named

theorem mem_names {m : Nat} :
    m ∈ p.names ↔ ∃ index < p.capacity, (p.headers index).named = some m := by
  simp [names, List.mem_filterMap]

/-- Naming one more mapping adds it to the names. -/
theorem names_perm_cons {index m : Nat} (same : p'.capacity = p.capacity) (lt : index < p.capacity)
    (before : (p.headers index).named = none) (after : (p'.headers index).named = some m)
    (others : ∀ other, other ≠ index → p'.headers other = p.headers other) :
    p'.names.Perm (m :: p.names) := by
  have split : (List.range p.capacity).Perm (index :: (List.range p.capacity).erase index) :=
    List.perm_cons_erase (List.mem_range.mpr lt)
  have rest : ((List.range p.capacity).erase index).filterMap
        (fun other => (p'.headers other).named) =
      ((List.range p.capacity).erase index).filterMap (fun other => (p.headers other).named) := by
    refine List.filterMap_congr fun other member => ?_
    rw [others other]
    rintro rfl
    exact List.nodup_range.not_mem_erase member
  have left := split.filterMap fun other => (p'.headers other).named
  have right := split.filterMap fun other => (p.headers other).named
  simp only [List.filterMap_cons, after, rest] at left
  simp only [List.filterMap_cons, before] at right
  simp only [names, same]
  exact left.trans (right.symm.cons m)

/-- A relocation permutes the names. -/
theorem Relocated.names_perm {slots : Equiv.Perm Nat} (relocated : Relocated p s p' s' slots) :
    p'.names.Perm p.names := by
  have permuted : ((List.range p.capacity).map slots).Perm (List.range p.capacity) := by
    refine (List.perm_ext_iff_of_nodup (List.nodup_range.map slots.injective)
      List.nodup_range).mpr fun index => ?_
    simp only [List.mem_map, List.mem_range]
    constructor
    · rintro ⟨other, lt, rfl⟩
      exact relocated.slots_lt lt
    · intro lt
      exact ⟨slots.symm index, relocated.symm_lt lt, Equiv.apply_symm_apply _ _⟩
  have moved : p'.names =
      ((List.range p.capacity).map slots).filterMap fun index => (p.headers index).named := by
    rw [names, relocated.same.capacity, List.filterMap_map]
    exact List.filterMap_congr fun index member => relocated.named_eq (List.mem_range.mp member)
  rw [moved]
  exact permuted.filterMap _

/-- The slots without an object and the named ones are all slots. -/
theorem Accounts.length_add {free : List Nat} {lost : Option Nat} (accounts : p.Accounts free lost)
    (nodup : free.Nodup) (lt : ∀ index ∈ free, index < p.capacity)
    (isFree : ∀ index ∈ free, (p.headers index).isFree = true) :
    free.length + lost.toList.length + p.names.length = p.capacity := by
  have unnamed : (free ++ lost.toList).Perm
      ((List.range p.capacity).filter fun index => (p.headers index).isFree) := by
    have nodupAll : (free ++ lost.toList).Nodup := by
      refine nodup.append (by cases lost <;> simp) ?_
      intro index member isLost
      exact (accounts.lost_free index (by simpa using isLost)).2.2 member
    refine (List.perm_ext_iff_of_nodup nodupAll (List.nodup_range.filter _)).mpr fun index => ?_
    simp only [List.mem_append, Option.mem_toList, List.mem_filter, List.mem_range]
    constructor
    · rintro (member | isLost)
      · exact ⟨lt index member, isFree index member⟩
      · have := accounts.lost_free index isLost
        exact ⟨this.1, this.2.1⟩
    · rintro ⟨index_lt, free⟩
      exact accounts.covered index index_lt free
  have named : p.names.length =
      ((List.range p.capacity).filter fun index => !(p.headers index).isFree).length := by
    rw [names, List.length_filterMap_eq_countP, List.countP_eq_length_filter]
    congr 1
    refine List.filter_congr fun index _ => ?_
    cases free : (p.headers index).isFree <;> simp [Header.named, free]
  have split := List.length_eq_length_filter_add (l := List.range p.capacity)
    fun index => (p.headers index).isFree
  have := unnamed.length_eq
  rw [List.length_append] at this
  rw [List.length_range] at split
  omega

variable {locals remotes free : List Nat} {bumped index m size : Nat} {lost : Option Nat}

/-- `alloc` does not change which slot is lost. -/
theorem Holds.AllocSpec.accounts {result : Allocated}
    (spec : Holds.AllocSpec p s m size free result index locals remotes bumped)
    (nodup : free.Nodup) (headerNamed : (p.allocHeader m size).named = some m)
    (accounts : p.Accounts free lost) :
    result.page.Accounts
      (SizedAllocator.freeSlots locals remotes bumped result.page.capacity) lost := by
  have taken := (List.nodup_cons.mp (spec.perm.nodup_iff.mp nodup)).1
  have named : (result.page.headers index).isFree = false := by
    rw [spec.header]
    exact (Header.named_eq_some.mp headerNamed).1
  have mem_free : ∀ {other}, other ∈ free ↔ other = index ∨
      other ∈ SizedAllocator.freeSlots locals remotes bumped p.capacity := by
    intro other
    rw [spec.perm.mem_iff, List.mem_cons]
  rw [spec.same.capacity]
  constructor
  · intro other lt isFree
    rw [spec.same.capacity] at lt
    have ne : other ≠ index := by
      rintro rfl
      exact Bool.noConfusion (isFree.symm.trans named)
    rw [spec.others other ne] at isFree
    rcases accounts.covered other lt isFree with member | isLost
    · exact Or.inl ((mem_free.mp member).resolve_left ne)
    · exact Or.inr isLost
  · intro other isLost
    rcases accounts.lost_free other isLost with ⟨lt, isFree, unlisted⟩
    have ne : other ≠ index := fun equal => unlisted (mem_free.mpr (Or.inl equal))
    refine ⟨by rwa [spec.same.capacity], ?_, fun member => unlisted (mem_free.mpr (Or.inr member))⟩
    rw [spec.others other ne]
    exact isFree

/-- A release does not change which slot is lost. -/
theorem Holds.ReleaseSpec.accounts {result : SizedPage × Store}
    (spec : Holds.ReleaseSpec p s index result) (live : (p.headers index).isFree = false)
    {free' : List Nat} (pushed : ∀ other, other ∈ free' ↔ other = index ∨ other ∈ free)
    (accounts : p.Accounts free lost) : result.1.Accounts free' lost := by
  constructor
  · intro other lt isFree
    rw [spec.same.capacity] at lt
    by_cases equal : other = index
    · exact Or.inl ((pushed other).mpr (Or.inl equal))
    · rw [spec.others other equal] at isFree
      rcases accounts.covered other lt isFree with member | isLost
      · exact Or.inl ((pushed other).mpr (Or.inr member))
      · exact Or.inr isLost
  · intro other isLost
    rcases accounts.lost_free other isLost with ⟨lt, isFree, unlisted⟩
    have ne : other ≠ index := by
      rintro rfl
      exact Bool.noConfusion (isFree.symm.trans live)
    refine ⟨by rwa [spec.same.capacity], ?_, ?_⟩
    · rw [spec.others other ne]
      exact isFree
    · rw [pushed]
      exact fun member => member.elim ne unlisted

theorem Holds.ReleaseSpec.names_perm {result : SizedPage × Store}
    (spec : Holds.ReleaseSpec p s index result) (lt : index < p.capacity)
    (named : (p.headers index).named = some m) : p.names.Perm (m :: result.1.names) := by
  refine names_perm_cons spec.same.capacity.symm (by rwa [spec.same.capacity]) ?_ named ?_
  · rw [spec.header]
    rfl
  · intro other ne
    exact (spec.others other ne).symm

theorem Holds.ReleaseSpec.backed {result : SizedPage × Store}
    (spec : Holds.ReleaseSpec p s index result) (backed : p.Backed s.mappings) :
    result.1.Backed result.2.mappings := by
  intro other lt m named
  have ne : other ≠ index := by
    rintro rfl
    rw [spec.header] at named
    exact absurd named (by simp [Header.named])
  rw [spec.others other ne] at named
  rw [spec.mappings, spec.same.indToObject]
  exact backed other (by rwa [← spec.same.capacity]) m named

/-- A page whose only header for `m` is at `index` is backed once `m` points there. -/
theorem backed_setPointer (layout : p.Layout) (lt : index < p.capacity)
    (only : ∀ other < p.capacity, (p.headers other).named = some m → other = index)
    (others : ∀ other < p.capacity, ∀ m', m' ≠ m → (p.headers other).named = some m' →
      (s.mappings m').getPointer = p.indToObject other) :
    p.Backed (s.setPointer m (p.indToObject index)).mappings := by
  intro other other_lt m' named
  by_cases equal : m' = m
  · subst equal
    have := layout.slot_lt lt
    rw [Store.mappings_setPointer_self, Mapping.getPointer_setPointer (by omega),
      only other other_lt named]
  · rw [Store.mappings_setPointer_of_ne equal]
    exact others other other_lt m' equal named

end SizedPage

namespace PageState

open SizedPage

/-- The representation invariant, with the slot that compaction lost. -/
structure Invariant (t : PageState) (lost : Option Nat) : Prop where
  holds : ∃ locals remotes bumped, t.page.Holds t.store.bytes locals remotes bumped ∧
    t.page.Accounts (SizedAllocator.freeSlots locals remotes bumped t.page.capacity) lost
  backed : t.page.Backed t.store.mappings
  names : t.page.names.Perm t.live

namespace Invariant

variable {t : PageState} {lost : Option Nat} {m size : Nat}

theorem layout (invariant : t.Invariant lost) : t.page.Layout := by
  rcases invariant.holds with ⟨_, _, _, holds, _⟩
  exact holds.layout

theorem distinct (invariant : t.Invariant lost) : t.page.Distinct :=
  invariant.backed.distinct invariant.layout

theorem mem_live (invariant : t.Invariant lost) :
    m ∈ t.live ↔ ∃ index < t.page.capacity, (t.page.headers index).named = some m := by
  rw [← invariant.names.mem_iff, mem_names]

/-- The slot of a live object. -/
theorem slot_of_live (invariant : t.Invariant lost) (live : m ∈ t.live) :
    ∃ index < t.page.capacity, (t.page.headers index).named = some m ∧
      (t.store.mappings m).getPointer = t.page.indToObject index := by
  rcases invariant.mem_live.mp live with ⟨index, lt, named⟩
  exact ⟨index, lt, named, invariant.backed index lt m named⟩

theorem start {memory cls : Nat} (store : Store) (pageMemory : PageMemory memory)
    (class_lt : cls < numSizeClasses) : (PageState.start memory cls store).Invariant none where
  holds := by
    refine ⟨[], [], 0, Holds.setSizeClass _ pageMemory class_lt, ?_, by simp⟩
    intro index lt _
    refine Or.inl (SizedAllocator.mem_freeSlots.mpr (Or.inr ⟨Nat.zero_le _, lt⟩))
  backed := by
    intro index _ m named
    exact absurd named (by simp [PageState.start, setSizeClass, Header.named])
  names := by
    have unnamed : (PageState.start memory cls store).page.names = [] := by
      simp [SizedPage.names, PageState.start, setSizeClass, Header.named]
    rw [unnamed]
    exact List.Perm.nil

/-- An exhausted page is left as it is by `alloc`. -/
theorem exhausted (invariant : t.Invariant lost)
    (headers : (t.page.alloc t.store m size).page.headers = t.page.headers)
    (store : (t.page.alloc t.store m size).store = t.store)
    (same : SameLayout t.page (t.page.alloc t.store m size).page)
    (full : (t.page.alloc t.store m size).page.Holds t.store.bytes [] [] t.page.capacity)
    {locals remotes : List Nat} {bumped : Nat}
    (none : SizedAllocator.freeSlots locals remotes bumped t.page.capacity = [])
    (accounts : t.page.Accounts
      (SizedAllocator.freeSlots locals remotes bumped t.page.capacity) lost) :
    (⟨(t.page.alloc t.store m size).page, (t.page.alloc t.store m size).store, t.live⟩ :
      PageState).Invariant lost := by
  have empty : SizedAllocator.freeSlots [] [] t.page.capacity t.page.capacity = [] := by
    simp [SizedAllocator.freeSlots]
  rw [store]
  refine ⟨⟨[], [], t.page.capacity, full, ?_⟩, ?_, ?_⟩
  · rw [none] at accounts
    simp only [same.capacity, empty]
    exact ⟨by simpa only [headers, same.capacity] using accounts.covered,
      by simpa only [headers, same.capacity] using accounts.lost_free⟩
  · intro index lt m' named
    simp only [headers, same.capacity, same.indToObject] at lt named ⊢
    exact invariant.backed index lt m' named
  · simpa only [SizedPage.names, headers, same.capacity] using invariant.names

theorem alloc (invariant : t.Invariant lost) (fresh : m ∉ t.live) (inTable : Mapping.InTable m) :
    (t.alloc m size).Invariant lost := by
  rcases invariant.holds with ⟨locals, remotes, bumped, holds, accounts⟩
  have layout := holds.layout
  rcases holds.alloc m size with ⟨null, none, full, same, headers, store⟩ |
      ⟨index, locals', remotes', bumped', spec⟩
  · have result : t.alloc m size =
        ⟨(t.page.alloc t.store m size).page, (t.page.alloc t.store m size).store, t.live⟩ := by
      simp only [PageState.alloc, if_pos null]
    rw [result]
    exact invariant.exhausted headers store same full none accounts
  · have found : (t.page.alloc t.store m size).object ≠ 0 := by
      rw [spec.object]
      have := (layout.slot_inside spec.index_lt).1
      have := layout.memory.pos
      omega
    have result : t.alloc m size = ⟨(t.page.alloc t.store m size).page,
        (t.page.alloc t.store m size).store.setPointer m (t.page.indToObject index),
        m :: t.live⟩ := by
      simp only [PageState.alloc, if_neg found]
      rw [spec.object]
    have index_lt' : index < (t.page.alloc t.store m size).page.capacity := by
      rw [spec.same.capacity]
      exact spec.index_lt
    have member : index ∈ SizedAllocator.freeSlots locals remotes bumped t.page.capacity :=
      spec.perm.mem_iff.mpr List.mem_cons_self
    have unnamed : (t.page.headers index).named = none :=
      Header.named_eq_none.mpr (holds.free index member)
    have named : ((t.page.alloc t.store m size).page.headers index).named = some m := by
      rw [spec.header]
      exact named_allocHeader inTable
    rw [result]
    refine ⟨⟨locals', remotes', bumped', ?_, ?_⟩, ?_, ?_⟩
    · simpa using spec.holds
    · exact spec.accounts holds.lists.freeSlots_nodup (named_allocHeader inTable) accounts
    · rw [← spec.same.indToObject]
      refine backed_setPointer spec.holds.layout index_lt' ?_ ?_
      · intro other lt namedOther
        by_contra ne
        rw [spec.others other ne] at namedOther
        exact fresh (invariant.mem_live.mpr ⟨other, by rwa [← spec.same.capacity], namedOther⟩)
      · intro other lt m' ne namedOther
        have other_ne : other ≠ index := by
          rintro rfl
          rw [named, Option.some.injEq] at namedOther
          exact ne namedOther.symm
        rw [spec.others other other_ne] at namedOther
        rw [spec.mappings, spec.same.indToObject]
        exact invariant.backed other (by rwa [← spec.same.capacity]) m' namedOther
    · exact (names_perm_cons spec.same.capacity spec.index_lt unnamed named spec.others).trans
        (invariant.names.cons m)

/-- After a release of the object of `m`, which the spec of the release describes. -/
theorem released (invariant : t.Invariant lost) {index : Nat} (lt : index < t.page.capacity)
    (named : (t.page.headers index).named = some m) {result : SizedPage × Store}
    {locals remotes : List Nat} {bumped : Nat}
    (holds : result.1.Holds result.2.bytes locals remotes bumped)
    (spec : Holds.ReleaseSpec t.page t.store index result)
    (accounts : result.1.Accounts
      (SizedAllocator.freeSlots locals remotes bumped result.1.capacity) lost) :
    (⟨result.1, result.2, t.live.erase m⟩ : PageState).Invariant lost where
  holds := ⟨locals, remotes, bumped, holds, accounts⟩
  backed := spec.backed invariant.backed
  names := by
    have erased := ((spec.names_perm lt named).symm.trans invariant.names).erase m
    rwa [List.erase_cons_head] at erased

theorem releaseLocal (invariant : t.Invariant lost) (live : m ∈ t.live) :
    (⟨(t.page.releaseLocal t.store (t.store.mappings m).getPointer).1,
      (t.page.releaseLocal t.store (t.store.mappings m).getPointer).2,
      t.live.erase m⟩ : PageState).Invariant lost := by
  rcases invariant.holds with ⟨locals, remotes, bumped, holds, accounts⟩
  rcases invariant.slot_of_live live with ⟨index, lt, named, points⟩
  have isLive := (Header.named_eq_some.mp named).1
  rcases holds.releaseLocal lt isLive with ⟨after, spec⟩
  rw [points]
  refine invariant.released lt named after spec (spec.accounts isLive ?_ accounts)
  intro other
  rw [spec.same.capacity]
  simp only [SizedAllocator.mem_freeSlots, List.cons_append, List.mem_cons, or_assoc]

theorem releaseRemote (invariant : t.Invariant lost) (live : m ∈ t.live) :
    (⟨(t.page.releaseRemote t.store (t.store.mappings m).getPointer).1,
      (t.page.releaseRemote t.store (t.store.mappings m).getPointer).2,
      t.live.erase m⟩ : PageState).Invariant lost := by
  rcases invariant.holds with ⟨locals, remotes, bumped, holds, accounts⟩
  rcases invariant.slot_of_live live with ⟨index, lt, named, points⟩
  have isLive := (Header.named_eq_some.mp named).1
  rcases holds.releaseRemote lt isLive with ⟨after, spec⟩
  rw [points]
  refine invariant.released lt named after spec (spec.accounts isLive ?_ accounts)
  intro other
  rw [spec.same.capacity]
  simp only [SizedAllocator.mem_freeSlots, List.mem_append, List.mem_cons]
  tauto

theorem reallocate (invariant : t.Invariant lost) (live : m ∈ t.live)
    (fits : size ≤ t.page.objectSize) :
    (t.reallocate m size).Invariant lost := by
  rcases invariant.holds with ⟨locals, remotes, bumped, holds, accounts⟩
  rcases invariant.slot_of_live live with ⟨old, old_lt, oldNamed, points⟩
  have layout := holds.layout
  have headerNamed : (t.page.allocHeader m size).named = some m :=
    Header.named_setMapping_of_named (h := Header.zero) oldNamed
  rcases holds.alloc m size with ⟨null, none, full, same, headers, store⟩ |
      ⟨index, locals', remotes', bumped', spec⟩
  · have result : t.reallocate m size =
        ⟨(t.page.alloc t.store m size).page, (t.page.alloc t.store m size).store, t.live⟩ := by
      simp only [PageState.reallocate, if_pos null]
    rw [result]
    exact invariant.exhausted headers store same full none accounts
  · have found : (t.page.alloc t.store m size).object ≠ 0 := by
      rw [spec.object]
      have := (layout.slot_inside spec.index_lt).1
      have := layout.memory.pos
      omega
    simp only [PageState.reallocate, if_neg found]
    rw [spec.object, points]
    generalize copySize_eq : (if t.page.sizeOf (t.page.indToObject old) > size then size
      else t.page.sizeOf (t.page.indToObject old)) = copySize
    have copySize_le : copySize ≤ t.page.objectSize := by
      split at copySize_eq <;> omega
    generalize (t.page.alloc t.store m size) = r at spec
    have member : index ∈ SizedAllocator.freeSlots locals remotes bumped t.page.capacity :=
      spec.perm.mem_iff.mpr List.mem_cons_self
    have taken := (List.nodup_cons.mp (spec.perm.nodup_iff.mp holds.lists.freeSlots_nodup)).1
    have unnamed : (t.page.headers index).named = none :=
      Header.named_eq_none.mpr (holds.free index member)
    have named : (r.page.headers index).named = some m := by
      rw [spec.header]
      exact headerNamed
    have old_ne : old ≠ index := by
      rintro rfl
      rw [unnamed] at oldNamed
      exact absurd oldNamed (by simp)
    have old_lt' : old < r.page.capacity := by
      rw [spec.same.capacity]
      exact old_lt
    have oldNamed' : (r.page.headers old).named = some m := by
      rw [spec.others old old_ne]
      exact oldNamed
    have oldLive := (Header.named_eq_some.mp oldNamed').1
    -- the copy only writes the new slot
    have copied : r.page.Holds
        (Bytes.memmove r.store.bytes (t.page.indToObject index) (t.page.indToObject old) copySize)
        locals' remotes' bumped' := by
      refine spec.holds.congr ?_
      intro other listed address lower upper
      rw [spec.same.indToObject] at lower upper
      rw [spec.same.objectSize] at upper
      have ne : other ≠ index := by
        rintro rfl
        exact taken (SizedAllocator.mem_freeSlots.mpr (Or.inl listed))
      have := t.page.slots_apart ne
      exact Bytes.memmove_outside (by omega)
    generalize bytes_eq : Bytes.memmove r.store.bytes (t.page.indToObject index)
      (t.page.indToObject old) copySize = bytes at copied ⊢
    rcases Holds.releaseLocal (s := { r.store with bytes := bytes }) copied old_lt' oldLive with
      ⟨after, released⟩
    rw [spec.same.indToObject] at after released
    generalize r.page.releaseLocal { r.store with bytes := bytes } (t.page.indToObject old) =
      result at after released
    have capacity := released.same.capacity.trans spec.same.capacity
    have ind : result.1.indToObject = t.page.indToObject :=
      released.same.indToObject.trans spec.same.indToObject
    -- the headers of the result, apart from the two slots, are those of the start
    have zero : (result.1.headers old).named = none := by
      rw [released.header]
      rfl
    have others : ∀ other, other ≠ old → other ≠ index →
        result.1.headers other = t.page.headers other := by
      intro other neOld neIndex
      rw [released.others other neOld, spec.others other neIndex]
    have named' : (result.1.headers index).named = some m := by
      rw [released.others index old_ne.symm]
      exact named
    refine ⟨⟨old :: locals', remotes', bumped', ?_, ?_⟩, ?_, ?_⟩
    · simpa using after
    · refine released.accounts oldLive ?_
        (spec.accounts holds.lists.freeSlots_nodup headerNamed accounts)
      intro other
      rw [released.same.capacity]
      simp only [SizedAllocator.mem_freeSlots, List.cons_append, List.mem_cons, or_assoc]
    · rw [← ind]
      refine backed_setPointer after.layout (by rw [capacity]; exact spec.index_lt) ?_ ?_
      · intro other lt namedOther
        by_contra ne
        have neOld : other ≠ old := by
          rintro rfl
          rw [zero] at namedOther
          exact absurd namedOther (by simp)
        rw [others other neOld ne] at namedOther
        exact neOld (invariant.distinct other old m (by rwa [← capacity]) old_lt namedOther oldNamed)
      · intro other lt m' ne namedOther
        have neOld : other ≠ old := by
          rintro rfl
          rw [zero] at namedOther
          exact absurd namedOther (by simp)
        have neIndex : other ≠ index := by
          rintro rfl
          rw [named', Option.some.injEq] at namedOther
          exact ne namedOther.symm
        rw [others other neOld neIndex] at namedOther
        rw [released.mappings, ind]
        show (r.store.mappings m').getPointer = _
        rw [spec.mappings]
        exact invariant.backed other (by rwa [← capacity]) m' namedOther
    · have added := names_perm_cons spec.same.capacity spec.index_lt unnamed named spec.others
      have removed := released.names_perm old_lt' oldNamed'
      exact ((removed.symm.trans added).cons_inv).trans invariant.names

/-- Compaction keeps the invariant, and loses a slot exactly when the page is not full. -/
theorem compact (invariant : t.Invariant lost) :
    ∃ lost', (⟨(t.page.compact t.store).2.1, (t.page.compact t.store).2.2, t.live⟩ :
        PageState).Invariant lost' ∧ (lost' = none ↔ t.page.Full) := by
  rcases invariant.holds with ⟨locals, remotes, bumped, holds, accounts⟩
  rcases Nat.eq_zero_or_pos t.page.capacity with empty | positive
  · -- a page without capacity is left alone
    have unchanged : t.page.compact t.store = (0, t.page, t.store) := by
      rw [SizedPage.compact, if_pos]
      rw [holds.layout.liveObjects, empty]
    rw [unchanged]
    refine ⟨lost, invariant, ?_⟩
    have full : t.page.Full := fun index lt => absurd lt (by omega)
    cases lost with
    | none => simp [full]
    | some index =>
        have := (accounts.lost_free index rfl).1
        omega
  · rcases holds.compact invariant.distinct positive with
      ⟨locals', bumped', lost', slots, after, relocated, accounts', lossless⟩
    rw [← relocated.same.capacity] at accounts'
    exact ⟨lost', ⟨⟨locals', [], bumped', after, accounts'⟩,
      relocated.backed holds.layout invariant.backed,
      relocated.names_perm.trans invariant.names⟩, lossless⟩

theorem jumble (invariant : t.Invariant lost) :
    (⟨(t.page.jumble t.store).2.1, (t.page.jumble t.store).2.2, t.live⟩ :
      PageState).Invariant lost := by
  rcases invariant.holds with ⟨locals, remotes, bumped, holds, accounts⟩
  rcases holds.jumble invariant.distinct with ⟨⟨slots, relocated⟩, after, isFree, _⟩
  refine ⟨⟨locals, remotes, bumped, after, ?_, ?_⟩,
    relocated.backed holds.layout invariant.backed, relocated.names_perm.trans invariant.names⟩
  · intro index lt free
    rw [relocated.same.capacity] at lt ⊢
    rw [isFree] at free
    exact accounts.covered index lt free
  · intro index isLost
    rw [relocated.same.capacity, isFree]
    exact accounts.lost_free index isLost

theorem setPinned (invariant : t.Invariant lost) (m : Nat) (pinned : Bool) :
    ({ t with store := t.store.setPinned m pinned } : PageState).Invariant lost where
  holds := invariant.holds
  backed := by
    intro index lt m' named
    have same : ((t.store.setPinned m pinned).mappings m').getPointer =
        (t.store.mappings m').getPointer := by
      by_cases equal : m' = m
      · simp [Store.setPinned, equal]
      · simp [Store.setPinned, equal]
    exact same.trans (invariant.backed index lt m' named)
  names := invariant.names

theorem write (invariant : t.Invariant lost) (live : m ∈ t.live) {address : Nat} (value : UInt8)
    (lower : (t.store.mappings m).getPointer ≤ address)
    (upper : address < (t.store.mappings m).getPointer + t.page.objectSize) :
    ({ t with store.bytes := Function.update t.store.bytes address value } :
      PageState).Invariant lost := by
  rcases invariant.holds with ⟨locals, remotes, bumped, holds, accounts⟩
  rcases invariant.slot_of_live live with ⟨index, lt, named, points⟩
  have isLive := (Header.named_eq_some.mp named).1
  rw [points] at lower upper
  refine ⟨⟨locals, remotes, bumped, holds.congr ?_, accounts⟩, invariant.backed, invariant.names⟩
  intro other listed other_address otherLower otherUpper
  refine Function.update_of_ne ?_ _ _
  rintro rfl
  have ne : other ≠ index := by
    rintro rfl
    exact holds.not_mem_freeSlots isLive (SizedAllocator.mem_freeSlots.mpr (Or.inl listed))
  have := t.page.slots_apart ne
  omega

/-- One step: only a compaction changes which slot is lost. -/
theorem next (invariant : t.Invariant lost) {op : PageOp} {t' : PageState}
    (step : t.next op = some t') :
    ∃ lost', t'.Invariant lost' ∧ (op ≠ .compact → lost' = lost) ∧
      (op = .compact → (lost' = none ↔ t.page.Full)) := by
  cases op with
  | alloc m size =>
      simp only [PageState.next] at step
      split at step
      · exact absurd step (by simp)
      · next allowed =>
          obtain rfl := Option.some.inj step
          rw [not_or, not_not] at allowed
          exact ⟨lost, invariant.alloc allowed.1 allowed.2, fun _ => rfl, by simp⟩
  | reallocate m size =>
      simp only [PageState.next] at step
      split at step
      · exact absurd step (by simp)
      · next allowed =>
          obtain rfl := Option.some.inj step
          rw [not_or, not_not, Nat.not_lt] at allowed
          exact ⟨lost, invariant.reallocate allowed.1 allowed.2, fun _ => rfl, by simp⟩
  | releaseLocal m =>
      simp only [PageState.next] at step
      split at step
      · exact absurd step (by simp)
      · next live =>
          obtain rfl := Option.some.inj step
          exact ⟨lost, invariant.releaseLocal (not_not.mp live), fun _ => rfl, by simp⟩
  | releaseRemote m =>
      simp only [PageState.next] at step
      split at step
      · exact absurd step (by simp)
      · next live =>
          obtain rfl := Option.some.inj step
          exact ⟨lost, invariant.releaseRemote (not_not.mp live), fun _ => rfl, by simp⟩
  | compact =>
      obtain rfl := Option.some.inj step
      rcases invariant.compact with ⟨lost', after, lossless⟩
      exact ⟨lost', after, by simp, fun _ => lossless⟩
  | jumble =>
      obtain rfl := Option.some.inj step
      exact ⟨lost, invariant.jumble, fun _ => rfl, by simp⟩
  | setPinned m pinned =>
      obtain rfl := Option.some.inj step
      exact ⟨lost, invariant.setPinned m pinned, fun _ => rfl, by simp⟩
  | write address value =>
      simp only [PageState.next] at step
      split at step
      · next inside =>
          obtain rfl := Option.some.inj step
          rcases inside with ⟨m, live, lower, upper⟩
          exact ⟨lost, invariant.write live value lower upper, fun _ => rfl, by simp⟩
      · exact absurd step (by simp)

theorem run {ops : List PageOp} {t' : PageState} (run : Run (ofFunction PageState.next) t ops t')
    (invariant : t.Invariant lost) : ∃ lost', t'.Invariant lost' := by
  refine run.invariant (fun t => ∃ lost, t.Invariant lost) ?_ ⟨lost, invariant⟩
  rintro t op t' ⟨lost, before⟩ step
  rcases before.next step with ⟨lost', after, _⟩
  exact ⟨lost', after⟩

/-- The free slots, the lost one and the live objects are all slots. -/
theorem available_add (invariant : t.Invariant lost) :
    t.page.available + t.live.length + lost.toList.length = t.page.capacity := by
  rcases invariant.holds with ⟨locals, remotes, bumped, holds, accounts⟩
  have total := accounts.length_add holds.lists.freeSlots_nodup
    (fun index member => holds.lists.freeSlots_lt member) holds.free
  rw [holds.available_eq, ← invariant.names.length_eq]
  omega

theorem lost_eq_none (invariant : t.Invariant lost) (full : t.page.Full) : lost = none := by
  rcases invariant.holds with ⟨locals, remotes, bumped, holds, accounts⟩
  cases lost with
  | none => rfl
  | some index =>
      have isLost := accounts.lost_free index rfl
      exact Bool.noConfusion (isLost.2.1.symm.trans (full index isLost.1))

end Invariant

/-! ## Slot conservation -/

/-- No slot is lost: every slot is available or holds a live object. -/
def Conserves (t : PageState) : Prop :=
  t.page.available + t.live.length = t.page.capacity

theorem Invariant.conserves_iff {t : PageState} {lost : Option Nat}
    (invariant : t.Invariant lost) : t.Conserves ↔ lost = none := by
  have total := invariant.available_add
  cases lost with
  | none => simpa [Conserves] using total
  | some index =>
      simp only [Option.toList_some, List.length_singleton] at total
      simp only [Conserves, reduceCtorEq, iff_false]
      omega

/-- The steps of a page, where `compact` is only called when every slot holds an object. -/
def CompactsFullOnly (t : PageState) (op : PageOp) : Prop := op = .compact → t.page.Full

/-- Once lost, a slot stays lost: a page with a lost slot is never full. -/
theorem Invariant.run_of_lost {t t' : PageState} {ops : List PageOp} {lost : Option Nat}
    (run : Run (ofFunction PageState.next) t ops t') (invariant : t.Invariant lost)
    (isLost : lost ≠ none) : ∃ lost', t'.Invariant lost' ∧ lost' ≠ none := by
  refine run.invariant (fun t => ∃ lost, t.Invariant lost ∧ lost ≠ none) ?_
    ⟨lost, invariant, isLost⟩
  rintro t op t' ⟨lost, before, isLost⟩ step
  rcases before.next step with ⟨lost', after, same, compacted⟩
  refine ⟨lost', after, ?_⟩
  by_cases compact : op = .compact
  · intro lossless
    exact isLost (before.lost_eq_none ((compacted compact).mp lossless))
  · rwa [same compact]

theorem Invariant.run_conserves_iff {t t' : PageState} {ops : List PageOp}
    (run : Run (ofFunction PageState.next) t ops t') (invariant : t.Invariant none) :
    t'.Conserves ↔ Run (Restrict (ofFunction PageState.next) CompactsFullOnly) t ops t' := by
  induction run with
  | nil t => exact iff_of_true (invariant.conserves_iff.mpr rfl) (.nil t)
  | @cons t middle t' op ops head tail ih =>
      rcases invariant.next head with ⟨lost', after, same, compacted⟩
      have lossless : lost' = none ↔ CompactsFullOnly t op := by
        by_cases compact : op = .compact
        · rw [compacted compact, CompactsFullOnly]
          simp [compact]
        · rw [same compact, CompactsFullOnly]
          simp [compact]
      by_cases conserved : lost' = none
      · rw [conserved] at after
        rw [ih after]
        constructor
        · intro restricted
          exact .cons ⟨head, lossless.mp conserved⟩ restricted
        · intro restricted
          cases restricted with
          | cons restrictedHead restrictedTail =>
              have equal : some _ = some middle := restrictedHead.1.symm.trans head
              rwa [← Option.some.inj equal]
      · rcases after.run_of_lost tail conserved with ⟨final, invariant', isLost⟩
        refine iff_of_false ?_ ?_
        · rwa [invariant'.conserves_iff]
        · intro restricted
          cases restricted with
          | cons restrictedHead _ => exact conserved (lossless.mpr restrictedHead.2)

/--
In every run of a page, every slot is available or holds a live object exactly when
`compact` was only ever called on a full page.
-/
theorem conserves_iff_compacts_full_only {memory cls : Nat} (pageMemory : PageMemory memory)
    (class_lt : cls < numSizeClasses) {store : Store} {ops : List PageOp} {t : PageState}
    (run : Run (ofFunction next) (start memory cls store) ops t) :
    t.Conserves ↔
      Run (Restrict (ofFunction next) CompactsFullOnly) (start memory cls store) ops t :=
  (Invariant.start store pageMemory class_lt).run_conserves_iff run

/-- Zeroed memory. -/
def zeroed : Store := ⟨fun _ => 0, fun _ => Mapping.zero⟩

/-- Two objects are allocated in a page of 31 slots, one is pinned, the other is released. -/
def mixedOps : List PageOp :=
  [.alloc (2 ^ 42 + 8) 40000, .alloc (2 ^ 42 + 16) 50000, .setPinned (2 ^ 42 + 16) true,
    .releaseRemote (2 ^ 42 + 8), .jumble, .compact]

theorem mixedOps_allowed :
    (replay next (start (2 ^ 21) 43 zeroed) mixedOps).isSome = true := by
  decide +kernel

theorem conserves_iff_mixedOps :
    ((replay next (start (2 ^ 21) 43 zeroed) mixedOps).get mixedOps_allowed).Conserves ↔
      Run (Restrict (ofFunction next) CompactsFullOnly) (start (2 ^ 21) 43 zeroed) mixedOps
        ((replay next (start (2 ^ 21) 43 zeroed) mixedOps).get mixedOps_allowed) :=
  conserves_iff_compacts_full_only ⟨by decide, by decide, by decide⟩ (by decide)
    (run_of_replay (Option.some_get mixedOps_allowed).symm)

/-- Compacting a fresh page of 31 slots of 64 KiB leaves 30 of them. -/
theorem not_conserves_compact :
    ¬ ∀ memory cls store ops t, PageMemory memory → cls < numSizeClasses →
      Run (ofFunction next) (start memory cls store) ops t → t.Conserves := by
  intro claim
  have conserves : ((setSizeClass (2 ^ 21) 43).compact zeroed).2.1.available + 0 =
      ((setSizeClass (2 ^ 21) 43).compact zeroed).2.1.capacity :=
    claim (2 ^ 21) 43 zeroed [.compact] _ ⟨by decide, by decide, by decide⟩ (by decide)
      (.cons rfl (.nil _))
  have counted : ((setSizeClass (2 ^ 21) 43).compact zeroed).2.1.available = 30 ∧
      ((setSizeClass (2 ^ 21) 43).compact zeroed).2.1.capacity = 31 := by
    decide +kernel
  rw [counted.1, counted.2] at conserves
  exact absurd conserves (by decide)

/-! ## The representation invariant -/

/-- The slots that the mappings of the live objects point to. -/
def liveSlots (t : PageState) : List Nat :=
  t.live.map fun m => t.page.objectToInd (t.store.mappings m).getPointer

/--
The headers, the two free lists, the bump region and the mappings agree. The lists are
the ones found in memory by following the links from their heads.
-/
structure Represents (t : PageState) (locals remotes : List Nat) (bumped : Nat) : Prop where
  localList : IsList t.store.bytes t.page.allocator.freeList.localFree
    (locals.map t.page.indToObject)
  remoteList : IsList t.store.bytes t.page.allocator.freeList.remoteFree
    (remotes.map t.page.indToObject)
  bumpNext : t.page.allocator.bumpNext = t.page.indToObject bumped
  objectsEnd : t.page.allocator.objectsEnd = t.page.indToObject t.page.capacity
  nodup : (t.liveSlots ++ locals ++ remotes ++
    List.range' bumped (t.page.capacity - bumped)).Nodup
  slots_lt : ∀ index ∈ t.liveSlots ++ locals ++ remotes, index < t.page.capacity
  inside : ∀ index < t.page.capacity,
    t.page.memory + 8 * t.page.capacity ≤ t.page.indToObject index ∧
      t.page.indToObject index + t.page.objectSize ≤ t.page.memory + pageSize
  header : ∀ index < t.page.capacity,
    (t.page.headers index).isFree = false ↔ index ∈ t.liveSlots
  points : ∀ index < t.page.capacity, (t.page.headers index).isFree = false →
    (t.page.headers index).getMapping ∈ t.live ∧
      (t.store.mappings (t.page.headers index).getMapping).getPointer = t.page.indToObject index
  alloc : ∀ m size, (t.page.alloc t.store m size).object ≠ 0 →
    ∃ index < t.page.capacity, (t.page.alloc t.store m size).object = t.page.indToObject index ∧
      index ∉ t.liveSlots

theorem Invariant.mem_liveSlots {t : PageState} {lost : Option Nat} (invariant : t.Invariant lost)
    {index : Nat} : index ∈ t.liveSlots ↔
      index < t.page.capacity ∧ (t.page.headers index).isFree = false := by
  simp only [liveSlots, List.mem_map]
  constructor
  · rintro ⟨m, live, rfl⟩
    rcases invariant.slot_of_live live with ⟨index, lt, named, points⟩
    rw [points, invariant.layout.objectToInd_slot]
    exact ⟨lt, (Header.named_eq_some.mp named).1⟩
  · rintro ⟨lt, live⟩
    have named := Header.named_eq_some.mpr ⟨live, rfl⟩
    refine ⟨_, invariant.mem_live.mpr ⟨index, lt, named⟩, ?_⟩
    rw [invariant.backed index lt _ named, invariant.layout.objectToInd_slot]

theorem Invariant.liveSlots_nodup {t : PageState} {lost : Option Nat}
    (invariant : t.Invariant lost) : t.liveSlots.Nodup := by
  have distinct := invariant.distinct
  have namesNodup : t.page.names.Nodup := by
    rw [SizedPage.names, List.Nodup, List.pairwise_filterMap]
    refine List.Pairwise.imp_of_mem ?_ (List.nodup_range (n := t.page.capacity))
    rintro index other index_mem other_mem ne m named m' named' rfl
    exact ne (distinct index other m (List.mem_range.mp index_mem) (List.mem_range.mp other_mem)
      named named')
  refine (invariant.names.nodup_iff.mp namesNodup).map_on ?_
  intro m live m' live' equal
  rcases invariant.slot_of_live live with ⟨index, lt, named, points⟩
  rcases invariant.slot_of_live live' with ⟨index', lt', named', points'⟩
  rw [points, points', invariant.layout.objectToInd_slot,
    invariant.layout.objectToInd_slot] at equal
  subst equal
  rw [named] at named'
  exact Option.some.inj named'

theorem Invariant.represents {t : PageState} {lost : Option Nat} (invariant : t.Invariant lost) :
    ∃ locals remotes bumped, t.Represents locals remotes bumped := by
  rcases invariant.holds with ⟨locals, remotes, bumped, holds, _⟩
  have layout := holds.layout
  have slot_eq := holds.configured.slot_eq
  have lists := holds.lists
  have freeNodup := lists.freeSlots_nodup
  refine ⟨locals, remotes, bumped, ?_, ?_, ?_, ?_, ?_, ?_, ?_, ?_, ?_, ?_⟩
  · rw [← slot_eq]
    exact lists.lists.localList
  · rw [← slot_eq]
    exact lists.lists.remoteList
  · rw [← slot_eq]
    exact lists.bump_eq
  · rw [← slot_eq]
    exact lists.end_eq
  · simp only [List.append_assoc]
    refine invariant.liveSlots_nodup.append ?_ ?_
    · simpa only [SizedAllocator.freeSlots, List.append_assoc] using freeNodup
    · intro index live free
      have := holds.not_mem_freeSlots (invariant.mem_liveSlots.mp live).2
      exact this (by simpa only [SizedAllocator.freeSlots, List.append_assoc] using free)
  · intro index member
    rw [List.append_assoc, List.mem_append] at member
    rcases member with live | listed
    · exact (invariant.mem_liveSlots.mp live).1
    · exact lists.mem_lt listed
  · exact fun index lt => layout.slot_inside lt
  · intro index lt
    rw [invariant.mem_liveSlots]
    exact ⟨fun live => ⟨lt, live⟩, fun live => live.2⟩
  · intro index lt live
    have named := Header.named_eq_some.mpr ⟨live, rfl⟩
    exact ⟨invariant.mem_live.mpr ⟨index, lt, named⟩, invariant.backed index lt _ named⟩
  · intro m size found
    rcases holds.alloc m size with ⟨null, _⟩ | ⟨index, _, _, _, spec⟩
    · exact absurd null found
    · refine ⟨index, spec.index_lt, spec.object, fun live => ?_⟩
      have member := spec.perm.mem_iff.mpr List.mem_cons_self
      exact holds.not_mem_freeSlots (invariant.mem_liveSlots.mp live).2 member

/-- Every reachable state of a page satisfies its representation invariant. -/
theorem represents_of_run {memory cls : Nat} (pageMemory : PageMemory memory)
    (class_lt : cls < numSizeClasses) {store : Store} {ops : List PageOp} {t : PageState}
    (run : Run (ofFunction next) (start memory cls store) ops t) :
    ∃ locals remotes bumped, t.Represents locals remotes bumped := by
  rcases (Invariant.start store pageMemory class_lt).run run with ⟨lost, invariant⟩
  exact invariant.represents

theorem represents_mixedOps :
    ∃ locals remotes bumped,
      ((replay next (start (2 ^ 21) 43 zeroed) mixedOps).get mixedOps_allowed).Represents
        locals remotes bumped :=
  represents_of_run ⟨by decide, by decide, by decide⟩ (by decide)
    (run_of_replay (Option.some_get mixedOps_allowed).symm)

end PageState

end Alaska
