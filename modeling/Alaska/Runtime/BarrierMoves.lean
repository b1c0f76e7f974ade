import Alaska.Runtime.ClientRuns

/-!
# What a barrier moves

While the world is stopped the runtime pins the handles that the threads hold and then moves
objects: it localizes the handles of a hotness buffer, compacts locality pages and sized pages,
and jumbles. The word of a pinned mapping stays as it is whatever is moved and in whatever
order.
-/

namespace Alaska

open Memory Mapping Lts

namespace RuntimeOp

end RuntimeOp

namespace Runtime

variable {rt rt' : Runtime} {tid m m' n ptr size epoch : Nat}

theorem isPinned_setPinned {handle : Nat} :
    ((rt.setPinned handle true).store.mappings m).isPinned = true ↔
      fromHandleSafe handle = some m ∨ (rt.store.mappings m).isPinned = true := by
  unfold Runtime.setPinned
  cases fromHandleSafe handle with
  | none => simp
  | some named =>
      by_cases same : m = named
      · subst same
        simp [Store.setPinned, Mapping.setPinned, Mapping.isPinned]
      · simp [Store.setPinned, same, Ne.symm same]

/-! ## The words that `localize` leaves alone -/

end Runtime

namespace ClientState

open Alaska.Runtime HugeObjectAllocator

variable {s t u : ClientState} {op : RuntimeOp} {ops pins moves : List RuntimeOp} {p q : Nat}

/-- The mapping of the pointer, if it is a handle, is pinned. -/
def IsPinned (s : ClientState) (p : Nat) : Prop :=
  ∀ m, fromHandleSafe p = some m → (s.runtime.store.mappings m).isPinned = true

/-- The objects, and the words of pinned mappings, are as before. -/
structure Stays (s t : ClientState) : Prop where
  objects : t.objects = s.objects
  words : ∀ p object m, s.objects p = some object → fromHandleSafe p = some m →
    (s.runtime.store.mappings m).isPinned = true →
    t.runtime.store.mappings m = s.runtime.store.mappings m

theorem Stays.refl (s : ClientState) : s.Stays s := ⟨rfl, fun _ _ _ _ _ _ => rfl⟩

theorem Stays.trans (first : s.Stays t) (second : t.Stays u) : s.Stays u where
  objects := second.objects.trans first.objects
  words := by
    intro p object m isLive isHandle pinned
    have same := first.words p object m isLive isHandle pinned
    have again := second.words p object m (first.objects ▸ isLive) isHandle (same ▸ pinned)
    exact again.trans same

/-- The backing address of a live pointer that was pinned is the same after the moves. -/
theorem Stays.backing (stays : s.Stays t) {object : Object} (isLive : s.objects p = some object)
    (pinned : s.IsPinned p) : t.runtime.backing p = s.runtime.backing p := by
  unfold Runtime.backing
  cases isHandle : fromHandleSafe p with
  | none => rfl
  | some m =>
      simp only
      rw [stays.words p object m isLive isHandle (pinned m isHandle)]

end ClientState

end Alaska
