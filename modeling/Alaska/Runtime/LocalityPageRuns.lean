import Alaska.Lib.Run
import Alaska.Runtime.LocalityPageAllocs
import Alaska.Runtime.LocalityPageSlides

/-!
# Runs of a locality page

First the runs of a page as the runtime uses it. Objects come from `localize`, after its
check of the space that is left, and leave when they are released; pin bits change, clients
write, and mappings without an object in the page change in any way. `Valid` holds in every
state of such a run.

Then, whatever else is allocated on a page, as long as the bump pointers do not cross: a
compaction inspects records of the page only, if the page holds an object. Without one, the
pruning runs off the end of the page.
-/

namespace Alaska

open Memory Lts

namespace LocalityPage

/-! ## The operations on a valid page -/

variable {p : LocalityPage} {s : Store} {mappings : Mappings} {index other m size : Nat}

theorem Valid.create {memory : Nat} (pageMemory : SizedPage.PageMemory memory)
    (mappings : Mappings) : (create memory).Valid mappings where
  intact := (Holds.create pageMemory).toIntact
  backed := by
    intro index m named
    exact absurd (named_eq_some.mp named).1 (Nat.not_lt_zero index)

/-- Only the mappings of the objects matter. -/
theorem Valid.remap {mappings' : Mappings} (valid : p.Valid mappings)
    (kept : ∀ index m, p.named index = some m →
      (mappings' m).getPointer = (mappings m).getPointer) : p.Valid mappings' where
  intact := valid.intact
  backed := by
    intro index m named
    rw [kept index m named]
    exact valid.backed index m named

/-- The space that `localize` checks for: on its page, and on a page from `get_localitypage`. -/
def HasRoom (p : LocalityPage) (size : Nat) : Prop :=
  size * 2 ≤ p.available ∨ size + 32 ≤ p.available

instance (p : LocalityPage) (size : Nat) : Decidable (p.HasRoom size) :=
  inferInstanceAs (Decidable (_ ∨ _))

theorem Holds.fits (holds : p.Holds) (size_ge : 16 ≤ size) (room : p.HasRoom size) :
    size + 2 * Metadata.bytes ≤ p.getFreeSpace := by
  have available := holds.available_eq
  simp only [Metadata.bytes] at *
  rcases room with room | room
  · omega
  · omega

/-- A page with one more record is valid when the mapping of the record points to its object. -/
theorem Valid.append {page : LocalityPage} {pointer : Nat} (valid : p.Valid s.mappings)
    (spec : Intact.Appended p m size (pointer, page)) (unnamed : ∀ index, p.named index ≠ some m) :
    page.Valid (s.setPointer m pointer).mappings := by
  have object : pointer = p.start p.numAllocated := spec.object
  have count : page.numAllocated = p.numAllocated + 1 := spec.count
  have record : page.metadata p.numAllocated = ⟨m, true, size⟩ := spec.record
  have others : ∀ index < p.numAllocated, page.metadata index = p.metadata index := spec.others
  have starts : ∀ index ≤ p.numAllocated, page.start index = p.start index := spec.starts
  have intact : page.Intact := spec.intact
  refine ⟨intact, ?_⟩
  intro index other named
  rcases named_eq_some.mp named with ⟨lt, live, word⟩
  by_cases new : index = p.numAllocated
  · have inside := intact.inside (show p.numAllocated < page.numAllocated by omega)
    have below := intact.memory.below
    have last := starts p.numAllocated (Nat.le_refl _)
    rw [new, record] at word
    rw [← word, Store.mappings_setPointer_self, new, last, object]
    apply Mapping.getPointer_setPointer
    omega
  · have index_lt : index < p.numAllocated := by omega
    rw [others index index_lt] at live word
    have named' : p.named index = some other := named_eq_some.mpr ⟨index_lt, live, word⟩
    have ne : other ≠ m := by
      rintro rfl
      exact unnamed index named'
    rw [Store.mappings_setPointer_of_ne ne, starts index (Nat.le_of_lt index_lt)]
    exact valid.backed index other named'

/-- A release of an object finds its record and counts its bytes. -/
theorem Valid.release (valid : p.Valid mappings) (named : p.named index = some m) :
    ∃ p', p.release mappings (mappings m).getPointer = some p' ∧ p'.Valid mappings ∧
      (p.SparesRecord → p'.SparesRecord) ∧ p'.named index = none ∧
      p'.numAllocated = p.numAllocated ∧
      ∀ other, other ≠ index → p'.metadata other = p.metadata other := by
  rw [valid.backed index m named]
  rcases valid.intact.release valid.backed named with
    ⟨p', released, intact, data, bump, count, starts, unnamed, others⟩
  refine ⟨p', released, ⟨intact, ?_⟩, ?_, unnamed, count, others⟩
  · intro other m' named'
    have ne : other ≠ index := by
      rintro rfl
      rw [unnamed] at named'
      exact absurd named' (by simp)
    rcases named_eq_some.mp named' with ⟨lt', live', word'⟩
    rw [others other ne] at live' word'
    rw [starts]
    exact valid.backed other m' (named_eq_some.mpr ⟨count ▸ lt', live', word'⟩)
  · intro spare
    rwa [SparesRecord, data, bump, count]

/-- What the records of a page guarantee to its users, in terms of the addresses they hold. -/
structure WellFormed (p : LocalityPage) (mappings : Mappings) : Prop where
  first : 0 < p.numAllocated → p.getPtr mappings 0 = p.data
  adjacent : ∀ index, index + 1 < p.numAllocated →
    p.getPtr mappings index + (p.metadata index).size = p.getPtr mappings (index + 1)
  last : ∀ index, index + 1 = p.numAllocated →
    p.getPtr mappings index + (p.metadata index).size = p.dataBumpNext
  inside : ∀ index < p.numAllocated, p.data ≤ p.getPtr mappings index ∧
    p.getPtr mappings index + (p.metadata index).size ≤ p.dataBumpNext
  records : ∀ index < p.numAllocated, (p.dataBumpNext : Int) ≤ p.recordAt index ∧
    p.recordAt index + Metadata.bytes ≤ p.data + pageSize
  accounted : p.bytesFreed = p.freeBytes
  scale : 0 < p.numAllocated → (p.dataBumpNext - p.data) / p.numAllocated ≠ 0
  found : ∀ index m, p.named index = some m →
    p.findMd mappings (mappings m).getPointer = some index
  sizes : ∀ index m, p.named index = some m →
    p.sizeOf mappings (mappings m).getPointer = some (p.metadata index).size
  released : ∀ index m, p.named index = some m → ∃ p',
    p.release mappings (mappings m).getPointer = some p' ∧ p'.named index = none ∧
      p'.numAllocated = p.numAllocated ∧
      ∀ other, other ≠ index → p'.metadata other = p.metadata other

theorem Valid.wellFormed (valid : p.Valid mappings) : p.WellFormed mappings := by
  have intact := valid.intact
  have pointer : ∀ index < p.numAllocated, p.getPtr mappings index = p.start index :=
    fun index lt => intact.getPtr_eq valid.backed lt
  have found : ∀ index m, p.named index = some m →
      p.findMd mappings (mappings m).getPointer = some index := by
    intro index m named
    rw [valid.backed index m named]
    exact intact.findMd_start valid.backed (named_eq_some.mp named).1
  constructor
  · intro pos
    exact pointer 0 pos
  · intro index lt
    rw [pointer index (Nat.lt_of_succ_lt lt), pointer (index + 1) lt, start]
  · intro index equal
    rw [pointer index (by omega), intact.bump, ← equal, start]
  · intro index lt
    have inside := intact.inside lt
    rw [pointer index lt]
    exact ⟨inside.1, inside.2.1⟩
  · intro index lt
    have space := intact.space
    simp only [recordAt, Metadata.bytes] at space ⊢
    omega
  · exact intact.accounted
  · intro pos
    exact Nat.ne_of_gt (intact.scale_pos pos)
  · exact found
  · intro index m named
    rw [LocalityPage.sizeOf, found index m named]
    rfl
  · intro index m named
    rcases valid.release named with ⟨p', released, _, _, unnamed, count, others⟩
    exact ⟨p', released, unnamed, count, others⟩

/-- The mappings of the objects of the page. -/
def live (p : LocalityPage) : List Nat := p.objects.map Prod.fst

theorem mem_live : m ∈ p.live ↔ ∃ index, p.named index = some m := by
  simp only [live, List.mem_map]
  constructor
  · rintro ⟨object, member, rfl⟩
    rcases mem_objects.mp member with ⟨index, named, _⟩
    exact ⟨index, named⟩
  · rintro ⟨index, named⟩
    exact ⟨(m, _), mem_objects.mpr ⟨index, named, rfl⟩, rfl⟩

instance (p : LocalityPage) : Decidable p.HasLive :=
  inferInstanceAs (Decidable (∃ index < p.numAllocated, (p.metadata index).allocated = true))

end LocalityPage

/-! ## Runs -/

structure LocalityState where
  page : LocalityPage
  store : Store

inductive LocalityOp where
  | localize (m request epoch : Nat)
  | release (m : Nat)
  | compact
  | setPinned (m : Nat) (pinned : Bool)
  | remap (m : Nat) (mapping : Mapping)
  | write (address : Nat) (value : UInt8)

namespace LocalityState

/-- The part of `localize` behind its checks; `size` is what the sized page reports. -/
def localize (t : LocalityState) (m size epoch : Nat) : LocalityState :=
  let ptr := (t.store.mappings m).getPointer
  let r := t.page.alloc m size
  let copied := t.store.bytes.memmove r.1 ptr size
  let s := { t.store with bytes := copied.memset ptr 0xFA size }
  ⟨{ r.2 with lastLocalizationEpoch := epoch }, s.setPointer m r.1⟩

/--
One step; `none` when the caller may not take it. The size of a localized object is the
aligned size of what a client asked for, at most 512, and the object is on another page.
-/
def next (t : LocalityState) : LocalityOp → Option LocalityState
  | .localize m request epoch =>
      if m ∈ t.page.live ∨ request = 0 ∨ request > 512 ∨
          ¬ t.page.HasRoom (alignedSize request) then
        none
      else
        some (t.localize m (alignedSize request) epoch)
  | .release m =>
      if m ∉ t.page.live then
        none
      else
        (t.page.release t.store.mappings (t.store.mappings m).getPointer).map fun page =>
          { t with page := page }
  | .compact =>
      if t.page.HasLive then
        (t.page.compact t.store).map fun r => ⟨r.2.1, r.2.2⟩
      else
        none
  | .setPinned m pinned => some { t with store := t.store.setPinned m pinned }
  | .remap m mapping =>
      if m ∈ t.page.live then
        none
      else
        some { t with store.mappings := Function.update t.store.mappings m mapping }
  | .write address value =>
      some { t with store.bytes := Function.update t.store.bytes address value }

/-- A fresh page over `memory`. -/
def start (memory : Nat) (store : Store) : LocalityState := ⟨.create memory, store⟩

open LocalityPage

variable {t t' : LocalityState} {m request : Nat}

theorem alignedSize_of_small (pos : request ≠ 0) (small : request ≤ 512) :
    16 ≤ alignedSize request ∧ alignedSize (alignedSize request) = alignedSize request := by
  simp only [alignedSize]
  omega

/-- What holds between the steps: there is always space for one more record. -/
def Kept (t : LocalityState) : Prop := t.page.Valid t.store.mappings ∧ t.page.SparesRecord

theorem kept_localize {epoch size : Nat} (kept : t.Kept) (aligned : alignedSize size = size)
    (size_ge : 16 ≤ size) (room : t.page.HasRoom size)
    (unnamed : ∀ index, t.page.named index ≠ some m) : (t.localize m size epoch).Kept := by
  rcases kept with ⟨valid, spare⟩
  have holds : t.page.Holds := ⟨valid.intact, spare⟩
  have spec := holds.alloc (m := m) aligned size_ge (holds.fits size_ge room)
  have after := spec.setEpoch epoch
  exact ⟨valid.append after.toAppended unnamed, after.spare⟩

theorem kept_next {op : LocalityOp} (kept : t.Kept) (step : t.next op = some t') : t'.Kept := by
  rcases kept with ⟨valid, spare⟩
  cases op with
  | localize m request epoch =>
      simp only [next, Option.ite_none_left_eq_some, not_or, not_not] at step
      rcases step with ⟨⟨other, pos, small, room⟩, result⟩
      rw [Option.some.injEq] at result
      subst result
      rcases alignedSize_of_small pos (Nat.not_lt.mp small) with ⟨size_ge, aligned⟩
      apply kept_localize ⟨valid, spare⟩ aligned size_ge room
      intro index named
      exact other (mem_live.mpr ⟨index, named⟩)
  | release m =>
      simp only [next, Option.ite_none_left_eq_some, not_not] at step
      rcases mem_live.mp step.1 with ⟨index, named⟩
      rcases valid.release named with ⟨page, released, valid', spare', _⟩
      have result := step.2
      rw [released, Option.map_some, Option.some.injEq] at result
      subst result
      exact ⟨valid', spare' spare⟩
  | compact =>
      simp only [next, Option.ite_none_right_eq_some] at step
      rcases valid.compact step.1 with ⟨r, compacted, spec⟩
      have result := step.2
      rw [compacted, Option.map_some, Option.some.injEq] at result
      subst result
      exact ⟨spec.valid, spec.sparesRecord spare⟩
  | setPinned m pinned =>
      rw [next, Option.some.injEq] at step
      subst step
      refine ⟨valid.remap ?_, spare⟩
      intro index other _
      by_cases same : other = m
      · simp [Store.setPinned, same]
      · simp [Store.setPinned, same]
  | remap m mapping =>
      simp only [next, Option.ite_none_left_eq_some] at step
      rcases step with ⟨other, result⟩
      rw [Option.some.injEq] at result
      subst result
      refine ⟨valid.remap ?_, spare⟩
      intro index m' named
      have ne : m' ≠ m := by
        rintro rfl
        exact other (mem_live.mpr ⟨index, named⟩)
      exact congrArg Mapping.getPointer (Function.update_of_ne ne _ _)
  | write address value =>
      rw [next, Option.some.injEq] at step
      subst step
      exact ⟨valid, spare⟩

theorem valid_of_run {memory : Nat} {store : Store} {ops : List LocalityOp}
    (pageMemory : SizedPage.PageMemory memory)
    (run : Run (ofFunction next) (start memory store) ops t) : t.page.Valid t.store.mappings :=
  have kept : t.Kept := run.invariant Kept (fun _ _ _ kept step => kept_next kept step)
    ⟨Valid.create pageMemory _, (Holds.create pageMemory).spare⟩
  kept.1

/-- Every state of a run has well-formed records. -/
theorem wellFormed_of_run {memory : Nat} {store : Store} {ops : List LocalityOp}
    (pageMemory : SizedPage.PageMemory memory)
    (run : Run (ofFunction next) (start memory store) ops t) :
    t.page.WellFormed t.store.mappings :=
  (valid_of_run pageMemory run).wellFormed

/-- Three objects, of which the first is released before a compaction. -/
def releaseFirst : List LocalityOp :=
  [.localize 8 100 1, .localize 16 48 1, .localize 24 512 1, .release 8, .compact]

theorem releaseFirst_allowed :
    (replay next (start pageSize ⟨fun _ => 0, fun _ => .zero⟩) releaseFirst).isSome = true := by
  decide +kernel

theorem wellFormed_releaseFirst :
    let t := (replay next (start pageSize ⟨fun _ => 0, fun _ => .zero⟩) releaseFirst).get
      releaseFirst_allowed
    t.page.WellFormed t.store.mappings :=
  wellFormed_of_run ⟨by decide, by decide, by decide⟩
    (run_of_replay (Option.some_get releaseFirst_allowed).symm)

end LocalityState

/-! ## The records that compactions inspect -/

namespace LocalityPage

variable {p : LocalityPage} {s : Store} {m size : Nat}

/-- A page, the store, and whether only records of the page were inspected so far. -/
structure Inspection where
  page : LocalityPage
  store : Store
  inside : Bool

/-- The calls, and `store`, what happens between them. -/
inductive Call where
  | alloc (m size : Nat)
  | release (m : Nat)
  | compact
  | store (s : Store)

/--
The allocation of an object of some size after which the bump pointers have not crossed: its
size does not wrap when it is rounded up, and does not take the free space to the byte.
-/
def Spared (p : LocalityPage) (size : Nat) : Prop :=
  0 < size ∧ size + 15 < 2 ^ 64 ∧ alignedSize size ≠ p.getFreeSpace

/-- The page after such an allocation, whether it succeeds or not. -/
theorem Valid.alloc {r : Nat × LocalityPage} (valid : p.Valid s.mappings) (other : m ∉ p.live)
    (spared : p.Spared size) (result : p.alloc m size = r) :
    r.2.Valid (if r.1 = 0 then s else s.setPointer m r.1).mappings := by
  rcases spared with ⟨pos, small, inexact⟩
  have memory := valid.intact.memory.pos
  have behind := Intact.data_le p p.numAllocated
  by_cases full : p.getFreeSpace < alignedSize size
  · have null : p.alloc m size = (0, p) := by
      simp only [LocalityPage.alloc]
      rw [if_pos full]
    rw [← result, null]
    exact valid
  · have request := le_alignedSize small
    have aligned : alignedSize size % 16 = 0 := Nat.mul_mod_left _ _
    have free := valid.intact.getFreeSpace_aligned
    have spec : Intact.Appended p m (alignedSize size) (p.alloc m size) := by
      apply valid.intact.alloc
      · omega
      · simp only [Metadata.bytes]
        omega
    rw [result] at spec
    have object := spec.object
    rw [if_neg (by omega)]
    exact valid.append spec fun index named => other (mem_live.mpr ⟨index, named⟩)

/--
Sequences of calls. The mapping of an allocated object, which has none in the page before, is
set to the object, as the callers do. Between the calls the mappings of the objects keep their
addresses; their pins, the bytes outside of the records and everything else may change. What
lies behind the page is not known.
-/
inductive Inspection.Step : Inspection → Call → Inspection → Prop where
  | alloc {p : LocalityPage} {s : Store} {inside : Bool} {m size : Nat} {r : Nat × LocalityPage}
      (other : m ∉ p.live) (spared : p.Spared size) (result : p.alloc m size = r) :
      Step ⟨p, s, inside⟩ (.alloc m size)
        ⟨r.2, if r.1 = 0 then s else s.setPointer m r.1, inside⟩
  | release {p p' : LocalityPage} {s : Store} {inside : Bool} {m : Nat} (live : m ∈ p.live)
      (result : p.release s.mappings (s.mappings m).getPointer = some p') :
      Step ⟨p, s, inside⟩ (.release m) ⟨p', s, inside⟩
  | compact {p p' : LocalityPage} {s s' : Store} {inside : Bool} {moved : Nat}
      (result : p.compact s = some (moved, p', s')) :
      Step ⟨p, s, inside⟩ .compact ⟨p', s', inside⟩
  | outside {p : LocalityPage} {s : Store} {inside : Bool} (result : p.compact s = none)
      (p' : LocalityPage) (s' : Store) : Step ⟨p, s, inside⟩ .compact ⟨p', s', false⟩
  | store {p : LocalityPage} {s s' : Store} {inside : Bool}
      (kept : ∀ m ∈ p.live, (s'.mappings m).getPointer = (s.mappings m).getPointer) :
      Step ⟨p, s, inside⟩ (.store s') ⟨p, s', inside⟩

namespace Inspection

/-- Compactions are asked only of a page that holds an object. -/
def CompactsLive (i : Inspection) (call : Call) : Prop := call = .compact → i.page.HasLive

/-- A new page. -/
def start (memory : Nat) (store : Store) : Inspection := ⟨create memory, store, true⟩

variable {i i' : Inspection} {call : Call}

theorem Step.before (step : i.Step call i') (inside : i'.inside = true) : i.inside = true := by
  cases step with
  | alloc | release | compact | store => exact inside
  | outside => exact absurd inside Bool.false_ne_true

/-- A call that inspects records of the page only keeps it valid. -/
theorem Step.valid (step : i.Step call i') (valid : i.page.Valid i.store.mappings)
    (inside : i'.inside = true) : i'.page.Valid i'.store.mappings := by
  cases step with
  | alloc other spared result => exact valid.alloc other spared result
  | release live result =>
      rcases mem_live.mp live with ⟨index, named⟩
      rcases valid.release named with ⟨page, released, valid', _⟩
      rw [result] at released
      rw [Option.some.inj released]
      exact valid'
  | compact result =>
      have live := valid.compact_isSome_iff.mp (by rw [result]; rfl)
      rcases valid.compact live with ⟨r, compacted, spec⟩
      rw [result] at compacted
      cases compacted
      exact spec.valid
  | outside => exact absurd inside Bool.false_ne_true
  | store kept =>
      exact valid.remap fun index m named => kept m (mem_live.mpr ⟨index, named⟩)

theorem Step.inside_iff (step : i.Step call i') (valid : i.page.Valid i.store.mappings)
    (inside : i.inside = true) : i'.inside = true ↔ i.CompactsLive call := by
  cases step with
  | alloc | release | store => exact iff_of_true inside (by simp [CompactsLive])
  | compact result =>
      exact iff_of_true inside fun _ => valid.compact_isSome_iff.mp (by rw [result]; rfl)
  | outside result =>
      refine iff_of_false Bool.false_ne_true fun live => ?_
      have finished := valid.compact_isSome_iff.mpr (live rfl)
      rw [result] at finished
      exact Bool.false_ne_true finished

end Inspection

/--
No compaction of a run leaves the page just when every one finds an object there; it then
violates no assertion either.
-/
theorem inside_iff_compactsLive {memory : Nat} {store : Store} {calls : List Call}
    {i : Inspection} (pageMemory : SizedPage.PageMemory memory)
    (run : Run Inspection.Step (.start memory store) calls i) :
    i.inside = true ↔
      Run (Restrict Inspection.Step Inspection.CompactsLive) (.start memory store) calls i :=
  run.restrict_iff_of_never_restored _ (fun i => i.inside = true)
    (fun i => i.page.Valid i.store.mappings) (fun _ _ _ step => step.before)
    (fun _ _ _ step => step.valid) (fun _ _ _ step => step.inside_iff) rfl
    (Valid.create pageMemory _)

/-- A store with bytes and mappings of zeros. -/
def zeros : Store := ⟨fun _ => 0, fun _ => .zero⟩

/-- The store after the first allocation, whose object is at the start of the page. -/
def firstObject : Store := zeros.setPointer 1 pageSize

theorem step_firstObject : (Inspection.start pageSize zeros).Step (.alloc 1 100)
    ⟨((create pageSize).alloc 1 100).2, firstObject, true⟩ := by
  have spared : (create pageSize).Spared 100 := ⟨by decide, by decide, by decide⟩
  have object : ((create pageSize).alloc 1 100).1 = pageSize := by decide
  have step : (Inspection.start pageSize zeros).Step (.alloc 1 100)
      ⟨((create pageSize).alloc 1 100).2,
        if ((create pageSize).alloc 1 100).1 = 0 then zeros
        else zeros.setPointer 1 ((create pageSize).alloc 1 100).1, true⟩ :=
    .alloc (by decide) spared rfl
  rw [object, if_neg (by decide)] at step
  exact step

/-- An object is allocated and the page compacted. -/
theorem inside_iff_oneObject : ∃ i,
    Run Inspection.Step (.start pageSize zeros) [.alloc 1 100, .compact] i ∧ (i.inside = true ↔
      Run (Restrict Inspection.Step Inspection.CompactsLive) (.start pageSize zeros)
        [.alloc 1 100, .compact] i) := by
  have finished : (((create pageSize).alloc 1 100).2.compact firstObject).isSome = true := by
    decide +kernel
  rcases Option.isSome_iff_exists.mp finished with ⟨⟨moved, p', s'⟩, result⟩
  have run : Run Inspection.Step (.start pageSize zeros) [.alloc 1 100, .compact]
      ⟨p', s', true⟩ :=
    .cons step_firstObject (.cons (.compact result) (.nil _))
  exact ⟨_, run, inside_iff_compactsLive ⟨by decide, by decide, by decide⟩ run⟩

theorem released_found :
    (((create pageSize).alloc 1 100).2.release firstObject.mappings
      (firstObject.mappings 1).getPointer).isSome = true := by
  decide +kernel

/-- The only object of the page is released before the compaction. -/
theorem not_inside_released : ∃ calls i,
    Run Inspection.Step (.start pageSize zeros) calls i ∧ i.inside = false := by
  have failed : ((((create pageSize).alloc 1 100).2.release firstObject.mappings
      (firstObject.mappings 1).getPointer).get released_found).compact firstObject = none := by
    decide +kernel
  have live : 1 ∈ ((create pageSize).alloc 1 100).2.live := by decide +kernel
  exact ⟨[.alloc 1 100, .release 1, .compact], _,
    .cons step_firstObject (.cons (.release live (Option.some_get released_found).symm)
      (.cons (.outside failed (create pageSize) zeros) (.nil _))), rfl⟩

end LocalityPage

end Alaska
