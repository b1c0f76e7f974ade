import Alaska.Runtime.LocalityPage

/-!
# Sequences of allocations on a locality page

The objects of a locality page grow up from its start and the records grow down from its end.
`alloc` compares the size with the free space before the record is taken from it: an object
that takes the free space to the byte leaves a negative rest, which the next call reads as an
unsigned number.
-/

namespace Alaska

namespace LocalityPage

/-- When the records are one too many, the free space wraps. -/
theorem getFreeSpace_of_crossed {p : LocalityPage}
    (crossed : p.data + pageSize + Metadata.bytes =
      p.dataBumpNext + (p.numAllocated + 1) * Metadata.bytes) :
    p.getFreeSpace = 2 ^ 64 - 16 := by
  simp only [getFreeSpace, Metadata.bytes, pageSize] at *
  omega

/-- The address of record `index`. -/
def recordAt (p : LocalityPage) (index : Nat) : Int :=
  (p.data + pageSize : Int) - (index + 1) * Metadata.bytes

/-- A page and the regions it has returned, with the sizes that were asked for; newest first. -/
structure Allocs where
  regions : List (Nat × Nat)
  page : LocalityPage

namespace Allocs

/-- A call of `alloc`, for a mapping and a size. -/
def call (s : Allocs) (request : Nat × Nat) : Allocs :=
  let r := s.page.alloc request.1 request.2
  if r.1 = 0 then ⟨s.regions, r.2⟩ else ⟨(r.1, request.2) :: s.regions, r.2⟩

/-- What the calls are to guarantee. -/
structure Sound (s : Allocs) : Prop where
  inside : ∀ region ∈ s.regions,
    s.page.data ≤ region.1 ∧ region.1 + region.2 ≤ s.page.data + pageSize
  disjoint : s.regions.Pairwise fun newer older =>
    newer.1 + newer.2 ≤ older.1 ∨ older.1 + older.2 ≤ newer.1
  records : ∀ index < s.page.numAllocated, ∀ region ∈ s.regions,
    (region.1 + region.2 : Int) ≤ s.page.recordAt index ∨
      s.page.recordAt index + Metadata.bytes ≤ region.1
  apart : ∀ index < s.page.numAllocated, (s.page.dataBumpNext : Int) ≤ s.page.recordAt index

/--
No request is so large that rounding it up wraps, and none but the last takes the free space
to the byte.
-/
def Spares (p : LocalityPage) : List (Nat × Nat) → Prop
  | [] => True
  | request :: requests => request.2 + 15 < 2 ^ 64 ∧
      (alignedSize request.2 = p.getFreeSpace → requests = []) ∧
      Spares (p.alloc request.1 request.2).2 requests

/-- The state of a page whose bump pointers have not crossed. -/
structure Tight (s : Allocs) : Prop where
  memory : SizedPage.PageMemory s.page.data
  aligned : s.page.dataBumpNext % 16 = 0
  above : s.page.data ≤ s.page.dataBumpNext
  below : s.page.dataBumpNext + (s.page.numAllocated + 1) * Metadata.bytes ≤
    s.page.data + pageSize
  regions : ∀ region ∈ s.regions,
    s.page.data ≤ region.1 ∧ region.1 + region.2 ≤ s.page.dataBumpNext
  disjoint : s.regions.Pairwise fun newer older => older.1 + older.2 ≤ newer.1

theorem tight_create {memory : Nat} (pageMemory : SizedPage.PageMemory memory) :
    Tight ⟨[], create memory⟩ where
  memory := pageMemory
  aligned := by
    have := pageMemory.aligned
    simp only [create]
    omega
  above := Nat.le_refl _
  below := by
    simp only [create, Metadata.bytes, pageSize]
    omega
  regions := by simp
  disjoint := .nil

variable {s : Allocs} {request : Nat × Nat} {requests : List (Nat × Nat)}

theorem Tight.sound (tight : s.Tight) : s.Sound where
  inside region member := by
    have := tight.regions region member
    have := tight.below
    omega
  disjoint := tight.disjoint.imp fun apart => .inr apart
  records index lt region member := by
    have := tight.regions region member
    have := tight.below
    simp only [recordAt, Metadata.bytes] at *
    omega
  apart index lt := by
    have := tight.below
    simp only [recordAt, Metadata.bytes] at *
    omega

/-- The free space, and that it is a multiple of the alignment. -/
theorem Tight.getFreeSpace_eq (tight : s.Tight) :
    s.page.getFreeSpace + s.page.dataBumpNext + (s.page.numAllocated + 1) * Metadata.bytes =
      s.page.data + pageSize ∧ s.page.getFreeSpace % 16 = 0 := by
  have below := tight.below
  have aligned := tight.aligned
  rcases tight.memory with ⟨pos, dataAligned, upper⟩
  have free : s.page.getFreeSpace + s.page.dataBumpNext +
      (s.page.numAllocated + 1) * Metadata.bytes = s.page.data + pageSize := by
    simp only [getFreeSpace, Metadata.bytes, pageSize] at *
    omega
  refine ⟨free, ?_⟩
  simp only [Metadata.bytes, pageSize] at *
  omega

theorem call_eq {r : Nat × LocalityPage} (result : s.page.alloc request.1 request.2 = r) :
    s.call request =
      if r.1 = 0 then ⟨s.regions, r.2⟩ else ⟨(r.1, request.2) :: s.regions, r.2⟩ := by
  subst result
  rfl

/-- A call that does not fit returns null and changes nothing. -/
theorem call_of_full (full : s.page.getFreeSpace < alignedSize request.2) :
    s.call request = s := by
  have result : s.page.alloc request.1 request.2 = (0, s.page) := by
    simp only [alloc]
    rw [if_pos full]
  rw [call_eq result]
  rfl

/-- A call that fits returns the region at the bump pointer and appends a record. -/
structure Appends (s : Allocs) (size : Nat) (s' : Allocs) : Prop where
  regions : s'.regions = (s.page.dataBumpNext, size) :: s.regions
  data : s'.page.data = s.page.data
  bump : s'.page.dataBumpNext = s.page.dataBumpNext + alignedSize size
  count : s'.page.numAllocated = s.page.numAllocated + 1

theorem call_of_fits (fits : alignedSize request.2 ≤ s.page.getFreeSpace)
    (nonnull : s.page.dataBumpNext ≠ 0) : s.Appends request.2 (s.call request) := by
  obtain ⟨metadata, result⟩ : ∃ metadata, s.page.alloc request.1 request.2 =
      (s.page.dataBumpNext, { s.page with
        dataBumpNext := s.page.dataBumpNext + alignedSize request.2
        numAllocated := s.page.numAllocated + 1
        metadata := metadata }) := by
    simp only [alloc]
    rw [if_neg (Nat.not_lt.mpr fits)]
    exact ⟨_, rfl⟩
  rw [call_eq result, if_neg nonnull]
  exact ⟨rfl, rfl, rfl, rfl⟩

theorem call_page (s : Allocs) (request : Nat × Nat) :
    (s.call request).page = (s.page.alloc request.1 request.2).2 := by
  obtain ⟨r, result⟩ : ∃ r, s.page.alloc request.1 request.2 = r := ⟨_, rfl⟩
  rw [call_eq result, result]
  split
  · rfl
  · rfl

theorem spares_nil (p : LocalityPage) : Spares p [] :=
  trivial

theorem spares_cons {p : LocalityPage} {request : Nat × Nat} {requests : List (Nat × Nat)} :
    Spares p (request :: requests) ↔ request.2 + 15 < 2 ^ 64 ∧
      (alignedSize request.2 = p.getFreeSpace → requests = []) ∧
      Spares (p.alloc request.1 request.2).2 requests :=
  Iff.rfl

theorem Appends.recordAt {s' : Allocs} {size index : Nat} (appends : s.Appends size s') :
    s'.page.recordAt index = s.page.recordAt index := by
  simp only [LocalityPage.recordAt, appends.data]

/-- What was wrong before an allocation stays wrong. -/
theorem Appends.sound_of_sound {s' : Allocs} {size : Nat} (appends : s.Appends size s')
    (sound : s'.Sound) : s.Sound := by
  have older : ∀ region ∈ s.regions, region ∈ s'.regions := fun region member => by
    rw [appends.regions]
    exact List.mem_cons_of_mem _ member
  refine ⟨fun region member => ?_, ?_, fun index lt region member => ?_, fun index lt => ?_⟩
  · have inside := sound.inside region (older region member)
    rwa [appends.data] at inside
  · have disjoint := sound.disjoint
    rw [appends.regions] at disjoint
    exact (List.pairwise_cons.mp disjoint).2
  · have records := sound.records index (by rw [appends.count]; omega) region (older region member)
    rwa [appends.recordAt] at records
  · have apart := sound.apart index (by rw [appends.count]; omega)
    rw [appends.recordAt, appends.bump] at apart
    omega

theorem Sound.of_call (sound : (s.call request).Sound) (nonnull : s.page.dataBumpNext ≠ 0) :
    s.Sound := by
  by_cases full : s.page.getFreeSpace < alignedSize request.2
  · rwa [call_of_full full] at sound
  · exact (call_of_fits (Nat.not_lt.mp full) nonnull).sound_of_sound sound

theorem nonnull_call (nonnull : s.page.dataBumpNext ≠ 0) :
    (s.call request).page.dataBumpNext ≠ 0 := by
  by_cases full : s.page.getFreeSpace < alignedSize request.2
  · rwa [call_of_full full]
  · rw [(call_of_fits (Nat.not_lt.mp full) nonnull).bump]
    omega

theorem Sound.of_calls (nonnull : s.page.dataBumpNext ≠ 0)
    (sound : (requests.foldl call s).Sound) : s.Sound := by
  induction requests generalizing s with
  | nil => exact sound
  | cons request requests ih =>
      exact (ih (nonnull_call nonnull) sound).of_call nonnull

/-- An allocation that leaves room for a record keeps the bump pointers from crossing. -/
theorem Tight.after_call (tight : s.Tight) (small : request.2 + 15 < 2 ^ 64)
    (lt : alignedSize request.2 < s.page.getFreeSpace) : (s.call request).Tight := by
  rcases tight.getFreeSpace_eq with ⟨free, freeAligned⟩
  have nonnull : s.page.dataBumpNext ≠ 0 := by
    have := tight.memory.pos
    have := tight.above
    omega
  have appends := call_of_fits (Nat.le_of_lt lt) nonnull
  have holds := le_alignedSize small
  have sizeAligned : alignedSize request.2 % 16 = 0 := Nat.mul_mod_left _ _
  have aligned := tight.aligned
  have above := tight.above
  refine ⟨?_, ?_, ?_, ?_, ?_, ?_⟩
  · rw [appends.data]
    exact tight.memory
  · rw [appends.bump]
    omega
  · rw [appends.data, appends.bump]
    omega
  · rw [appends.data, appends.bump, appends.count]
    simp only [Metadata.bytes] at *
    omega
  · intro region member
    rw [appends.regions, List.mem_cons] at member
    rw [appends.data, appends.bump]
    rcases member with rfl | member
    · exact ⟨above, by omega⟩
    · have := tight.regions region member
      omega
  · rw [appends.regions, List.pairwise_cons]
    exact ⟨fun region member => (tight.regions region member).2, tight.disjoint⟩

/-- An allocation that takes the free space to the byte is sound, but leaves none to the next. -/
theorem Tight.call_exact (tight : s.Tight) (small : request.2 + 15 < 2 ^ 64)
    (exact : alignedSize request.2 = s.page.getFreeSpace) :
    (s.call request).Sound ∧ ∀ next, ¬ ((s.call request).call next).Sound := by
  rcases tight.getFreeSpace_eq with ⟨free, freeAligned⟩
  have nonnull : s.page.dataBumpNext ≠ 0 := by
    have := tight.memory.pos
    have := tight.above
    omega
  have appends := call_of_fits (Nat.le_of_eq exact) nonnull
  have holds := le_alignedSize small
  have above := tight.above
  have sound := tight.sound
  constructor
  · refine ⟨fun region member => ?_, ?_, fun index lt region member => ?_, fun index lt => ?_⟩
    · rw [appends.regions, List.mem_cons] at member
      rw [appends.data]
      rcases member with rfl | member
      · simp only [Metadata.bytes] at free ⊢
        omega
      · exact sound.inside region member
    · rw [appends.regions, List.pairwise_cons]
      exact ⟨fun region member => .inr (tight.regions region member).2, sound.disjoint⟩
    · rw [appends.regions, List.mem_cons] at member
      rw [appends.count] at lt
      left
      have end_le : region.1 + region.2 ≤ s.page.dataBumpNext + s.page.getFreeSpace := by
        rcases member with rfl | member
        · simp only
          omega
        · have := (tight.regions region member).2
          omega
      rw [appends.recordAt]
      simp only [LocalityPage.recordAt, Metadata.bytes] at free ⊢
      omega
    · rw [appends.count] at lt
      rw [appends.recordAt, appends.bump, exact]
      simp only [LocalityPage.recordAt, Metadata.bytes] at free ⊢
      omega
  · intro next sound'
    -- the free space has wrapped, so every request fits
    have wrapped : (s.call request).page.getFreeSpace = 2 ^ 64 - 16 := by
      apply getFreeSpace_of_crossed
      rw [appends.data, appends.bump, appends.count, exact]
      simp only [Metadata.bytes] at free ⊢
      omega
    have nonnull' : (s.call request).page.dataBumpNext ≠ 0 := nonnull_call nonnull
    have fits : alignedSize next.2 ≤ (s.call request).page.getFreeSpace := by
      rw [wrapped, alignedSize]
      omega
    have appends' := call_of_fits fits nonnull'
    have apart := sound'.apart (s.page.numAllocated + 1) (by
      rw [appends'.count, appends.count]
      omega)
    rw [appends'.recordAt, appends'.bump, appends.recordAt, appends.bump] at apart
    simp only [LocalityPage.recordAt, Metadata.bytes] at free apart
    omega

/-- A request that wraps gets a region that no page can hold. -/
theorem Tight.not_sound_of_wraps (tight : s.Tight) (small : request.2 < 2 ^ 64)
    (wraps : ¬ request.2 + 15 < 2 ^ 64) : ¬ (s.call request).Sound := by
  intro sound
  have nonnull : s.page.dataBumpNext ≠ 0 := by
    have := tight.memory.pos
    have := tight.above
    omega
  have zero : alignedSize request.2 = 0 := by
    rw [alignedSize]
    omega
  have appends := call_of_fits (zero.trans_le (Nat.zero_le _)) nonnull
  have inside := sound.inside (s.page.dataBumpNext, request.2) (by
    rw [appends.regions]
    exact List.mem_cons_self)
  have below := tight.memory.below
  rw [appends.data] at inside
  simp only at inside
  omega

/-- From a page whose bump pointers have not crossed, calls are sound just when they spare it. -/
theorem Tight.sound_iff_spares (tight : s.Tight)
    (small : ∀ request ∈ requests, request.2 < 2 ^ 64) :
    (requests.foldl call s).Sound ↔ Spares s.page requests := by
  induction requests generalizing s with
  | nil => exact iff_of_true tight.sound (spares_nil _)
  | cons request requests ih =>
      have nonnull : s.page.dataBumpNext ≠ 0 := by
        have := tight.memory.pos
        have := tight.above
        omega
      have rest_small : ∀ request ∈ requests, request.2 < 2 ^ 64 :=
        fun next member => small next (List.mem_cons_of_mem _ member)
      rw [List.foldl_cons, spares_cons, ← call_page]
      by_cases wraps : request.2 + 15 < 2 ^ 64
      · rcases Nat.lt_trichotomy (alignedSize request.2) s.page.getFreeSpace with
          lt | exact | full
        · rw [ih (tight.after_call wraps lt) rest_small]
          simp only [wraps, Nat.ne_of_lt lt, false_implies, true_and]
        · rcases tight.call_exact wraps exact with ⟨sound, unsound⟩
          cases requests with
          | nil =>
              rw [List.foldl_nil]
              refine iff_of_true sound ⟨wraps, ?_, ?_⟩
              · intro _
                rfl
              · apply spares_nil
          | cons next requests =>
              apply iff_of_false
              · intro sound'
                rw [List.foldl_cons] at sound'
                have nonnull' : ((s.call request).call next).page.dataBumpNext ≠ 0 :=
                  nonnull_call (nonnull_call nonnull)
                exact unsound next (Sound.of_calls nonnull' sound')
              · rintro ⟨_, last, _⟩
                have ended := last exact
                simp at ended
        · rw [call_of_full full, ih tight rest_small]
          simp only [wraps, Nat.ne_of_gt full, false_implies, true_and]
      · refine iff_of_false (fun sound => ?_) fun spares => wraps spares.1
        exact tight.not_sound_of_wraps (small request List.mem_cons_self) wraps
          (Sound.of_calls (nonnull_call nonnull) sound)

end Allocs

/-- Allocations on a new page are sound just when none but the last takes the rest to the byte. -/
theorem allocs_sound_iff {memory : Nat} {requests : List (Nat × Nat)}
    (pageMemory : SizedPage.PageMemory memory)
    (small : ∀ request ∈ requests, request.2 < 2 ^ 64) :
    (requests.foldl Allocs.call ⟨[], create memory⟩).Sound ↔
      Allocs.Spares (create memory) requests :=
  (Allocs.tight_create pageMemory).sound_iff_spares small

theorem allocs_sound_pair :
    ([(1, 100), (2, 5000)].foldl Allocs.call ⟨[], create pageSize⟩).Sound := by
  apply (allocs_sound_iff ⟨by decide, by decide, by decide⟩ (by decide)).mpr
  rw [Allocs.spares_cons, Allocs.spares_cons]
  exact ⟨by decide, by decide, by decide, by decide, Allocs.spares_nil _⟩

/-- An object that leaves only its own record free, and then any other object. -/
theorem allocs_not_sound_exact :
    ¬ ([(1, pageSize - 16), (2, 1)].foldl Allocs.call ⟨[], create pageSize⟩).Sound := by
  have tight : Allocs.Tight ⟨[], create pageSize⟩ :=
    Allocs.tight_create ⟨by decide, by decide, by decide⟩
  have exact : alignedSize (pageSize - 16) = (create pageSize).getFreeSpace := by decide
  rw [List.foldl_cons, List.foldl_cons, List.foldl_nil]
  exact (tight.call_exact (by decide) exact).2 (2, 1)

end LocalityPage

end Alaska
