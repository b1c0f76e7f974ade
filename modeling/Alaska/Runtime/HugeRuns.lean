import Alaska.Runtime.ClientRuns

/-!
# Which huge objects are registered

`hrealloc` from one huge size to another copies the object to a new mapping and forgets the
old one. In every run the registry has the live huge pointers and, beside them, exactly the
pointers that were forgotten in this way; no huge object is released while it is live.
-/

namespace Alaska

open Memory Mapping Lts

namespace RuntimeOp

/-- The pointer whose mapping the operation forgets: a huge one that gets another huge size. -/
def leaks : RuntimeOp → Option Nat
  | .hrealloc _ handle newSize _ =>
      if fromHandleSafe handle = none ∧ shouldBeHugeObject newSize = true then
        some handle
      else
        none
  | _ => none

end RuntimeOp

namespace ClientState

open Alaska.Runtime

variable {s t : ClientState} {op : RuntimeOp} {leaked : List Nat}

/-- `p` is a live pointer that is no handle. -/
def LiveHuge (s : ClientState) (p : Nat) : Prop :=
  fromHandleSafe p = none ∧ ∃ object, s.objects p = some object

/-- The registry has the live huge pointers and those that were leaked. -/
structure Registered (s : ClientState) (leaked : List Nat) : Prop where
  owns : ∀ p, s.runtime.huge.owns p = true ↔ s.LiveHuge p ∨ p ∈ leaked
  gone : ∀ p ∈ leaked, s.objects p = none
  user : ∀ p ∈ leaked, fromHandleSafe p = none

/-- A step that changes neither the registry nor which pointers are live. -/
theorem Registered.same (registered : s.Registered leaked)
    (huge : t.runtime.huge = s.runtime.huge)
    (live : ∀ p, (∃ object, t.objects p = some object) ↔ ∃ object, s.objects p = some object) :
    t.Registered leaked where
  owns := by
    intro p
    rw [huge, registered.owns p, LiveHuge, LiveHuge, live p]
  gone := by
    intro p member
    by_contra alive
    rcases (live p).mp (Option.ne_none_iff_exists'.mp alive) with ⟨object, isLive⟩
    rw [registered.gone p member] at isLive
    exact nomatch isLive
  user := registered.user

/-- A pointer that was not registered before is none of the leaked ones. -/
theorem Registered.ne_of_unowned {p q : Nat} (registered : s.Registered leaked)
    (unowned : fromHandleSafe q = none → ¬ s.runtime.huge.owns q = true) (member : p ∈ leaked) :
    p ≠ q := by
  rintro rfl
  exact unowned (registered.user p member) ((registered.owns p).mpr (Or.inr member))

/-- `halloc`, which returns `r.1`. -/
theorem Registered.insert {r : Nat × Runtime} {object : Object} (registered : s.Registered leaked)
    (inserted : Holds.Inserted s.runtime s.objects object r) :
    Registered ⟨r.2, s.objects.insert r.1 object⟩ leaked where
  owns := by
    intro p
    rw [inserted.owns p, registered.owns p, LiveHuge, LiveHuge, Objects.exists_insert]
    constructor
    · rintro ((⟨user, isLive⟩ | member) | ⟨user, rfl⟩)
      · exact Or.inl ⟨user, Or.inr isLive⟩
      · exact Or.inr member
      · exact Or.inl ⟨user, Or.inl rfl⟩
    · rintro (⟨user, rfl | isLive⟩ | member)
      · exact Or.inr ⟨user, rfl⟩
      · exact Or.inl (Or.inl ⟨user, isLive⟩)
      · exact Or.inl (Or.inr member)
  gone := by
    intro p member
    have ne := registered.ne_of_unowned inserted.unowned member
    exact (Function.update_of_ne ne _ _).trans (registered.gone p member)
  user := registered.user

/-- `hfree` of the live pointer `p`. -/
theorem Registered.remove {rt : Runtime} {p : Nat} {object : Object}
    (registered : s.Registered leaked) (isLive : s.objects p = some object)
    (removed : Holds.Removed s.runtime s.objects p rt) :
    Registered ⟨rt, s.objects.remove p⟩ leaked where
  owns := by
    intro q
    have kept : q ∈ leaked → q ≠ p := by
      rintro member rfl
      rw [registered.gone q member] at isLive
      exact nomatch isLive
    rw [removed.owns q, registered.owns q, LiveHuge, LiveHuge, Objects.exists_remove]
    constructor
    · rintro ⟨⟨user, live⟩ | member, stays⟩
      · exact Or.inl ⟨user, fun same => stays ⟨same ▸ user, same⟩, live⟩
      · exact Or.inr member
    · rintro (⟨user, ne, live⟩ | member)
      · exact ⟨Or.inl ⟨user, live⟩, fun same => ne same.2⟩
      · exact ⟨Or.inr member, fun same => kept member same.2⟩
  gone := by
    intro q member
    by_cases equal : q = p
    · rw [equal]
      exact Objects.remove_self _ p
    · exact (Function.update_of_ne equal _ _).trans (registered.gone q member)
  user := registered.user

/-- `hrealloc` of the live pointer `p`, which leaks `p` when both objects are huge. -/
theorem Registered.reallocate {r : Nat × Runtime} {p newSize : Nat} {object : Object}
    {after : List Nat} (registered : s.Registered leaked) (isLive : s.objects p = some object)
    (moved : Holds.Reallocated s.runtime s.objects p object newSize r)
    (isAfter : ∀ q, q ∈ after ↔ q ∈ leaked ∨
      (fromHandleSafe p = none ∧ shouldBeHugeObject newSize = true) ∧ q = p) :
    Registered ⟨r.2, (s.objects.remove p).insert r.1 (Objects.resize object newSize)⟩ after where
  owns := by
    intro q
    have kept : q ∈ leaked → q ≠ p := by
      rintro member rfl
      rw [registered.gone q member] at isLive
      exact nomatch isLive
    have owned := registered.owns q
    rw [moved.owns q, owned, LiveHuge, LiveHuge, Objects.exists_insert, Objects.exists_remove,
      isAfter q]
    constructor
    · rintro (⟨⟨user, live⟩ | member, stays⟩ | ⟨user, rfl⟩)
      · by_cases equal : q = p
        · subst equal
          have large : shouldBeHugeObject newSize = true := by
            by_contra small
            exact stays ⟨user, Bool.eq_false_iff.mpr small, rfl⟩
          exact Or.inr (Or.inr ⟨⟨user, large⟩, rfl⟩)
        · exact Or.inl ⟨user, Or.inr ⟨equal, live⟩⟩
      · exact Or.inr (Or.inl member)
      · exact Or.inl ⟨user, Or.inl rfl⟩
    · rintro (⟨user, rfl | ⟨ne, live⟩⟩ | member | ⟨⟨user, large⟩, rfl⟩)
      · exact Or.inr ⟨user, rfl⟩
      · exact Or.inl ⟨Or.inl ⟨user, live⟩, fun same => ne same.2.2⟩
      · exact Or.inl ⟨Or.inr member, fun same => kept member same.2.2⟩
      · refine Or.inl ⟨Or.inl ⟨user, object, isLive⟩, fun same => ?_⟩
        rw [large] at same
        exact nomatch same.2.1
  gone := by
    intro q member
    have live : ¬ ∃ other, (s.objects.remove p).insert r.1 (Objects.resize object newSize) q =
        some other := by
      rw [Objects.exists_insert, Objects.exists_remove]
      rcases (isAfter q).mp member with old | ⟨⟨user, _⟩, rfl⟩
      · rintro (same | ⟨_, _, stays⟩)
        · exact registered.ne_of_unowned moved.unowned old same
        · rw [registered.gone q old] at stays
          exact nomatch stays
      · rintro (same | ⟨ne, _⟩)
        · have owned := (registered.owns q).mpr (Or.inl ⟨user, object, isLive⟩)
          exact moved.unowned (same ▸ user) (same ▸ owned)
        · exact ne rfl
    by_contra alive
    exact live (Option.ne_none_iff_exists'.mp alive)
  user := by
    intro q member
    rcases (isAfter q).mp member with old | ⟨⟨user, _⟩, rfl⟩
    · exact registered.user q old
    · exact user

/-- A step adds the pointer that it leaks to the leaked ones. -/
theorem Registered.next (registered : s.Registered leaked)
    (holds : s.runtime.Holds s.objects none none) (step : s.next op = some t) (fits : op.Fits)
    (count_le : t.runtime.table.slabCount ≤ 2 ^ 21) :
    t.Registered (leaked ++ op.leaks.toList) := by
  simp only [ClientState.next, Option.bind_eq_bind, Option.bind_eq_some_iff, Prod.exists,
    Option.some.injEq] at step
  rcases step with ⟨result, rt, performed, objects, stepped, rfl⟩
  cases op with
  | newThreadcache =>
      obtain ⟨rfl, rfl⟩ := Prod.mk.inj (Option.some.inj performed)
      obtain rfl := Option.some.inj stepped
      simp only [RuntimeOp.leaks, Option.toList_none, List.append_nil]
      exact registered.same rfl fun _ => Iff.rfl
  | halloc tid size zero address =>
      simp only [perform, onCache, Option.ite_none_right_eq_some] at performed
      simp only [Objects.step, Option.ite_none_right_eq_some, Option.some.injEq] at stepped
      rcases stepped with ⟨valid, rfl⟩
      simp only [RuntimeOp.leaks, Option.toList_none, List.append_nil]
      exact registered.insert (holds.halloc performed.1 valid.1 fits performed.2 count_le)
  | hfree tid handle =>
      simp only [perform, onCache, Option.ite_none_right_eq_some, Option.map_eq_some_iff,
        Prod.mk.injEq] at performed
      rcases performed with ⟨_, rt', freed, rfl, rfl⟩
      simp only [Objects.step, Option.map_eq_some_iff] at stepped
      rcases stepped with ⟨object, isLive, rfl⟩
      rcases holds.hfree tid isLive with ⟨rt, result, removed⟩
      obtain rfl := Option.some.inj (freed.symm.trans result)
      simp only [RuntimeOp.leaks, Option.toList_none, List.append_nil]
      exact registered.remove isLive removed
  | hrealloc tid handle newSize address =>
      simp only [perform, onCache, Option.ite_none_right_eq_some] at performed
      simp only [Objects.step, Option.ite_none_right_eq_some, Option.map_eq_some_iff] at stepped
      rcases stepped with ⟨valid, object, isLive, rfl⟩
      refine registered.reallocate isLive
        (holds.hrealloc performed.1 isLive valid.1 fits performed.2 count_le) fun q => ?_
      simp only [RuntimeOp.leaks]
      split
      · next leaks => simp [leaks]
      · next kept => simp [kept]
  | localize tid m epoch =>
      simp only [perform, onCache, Option.ite_none_right_eq_some, Option.map_eq_some_iff,
        Prod.mk.injEq] at performed
      rcases performed with ⟨tid_lt, outcome, found, rfl, rfl⟩
      obtain rfl := Option.some.inj stepped
      simp only [RuntimeOp.leaks, Option.toList_none, List.append_nil]
      exact registered.same (holds.localize tid_lt found).1.huge fun _ => Iff.rfl
  | compact n =>
      simp only [perform, Option.ite_none_right_eq_some, Option.map_eq_some_iff,
        Prod.mk.injEq] at performed
      rcases performed with ⟨lt, rt', compacted, rfl, rfl⟩
      obtain rfl := Option.some.inj stepped
      rcases holds.compactPage lt compacted with ⟨_, _, _, huge, _⟩
      simp only [RuntimeOp.leaks, Option.toList_none, List.append_nil]
      exact registered.same huge fun _ => Iff.rfl
  | jumble n =>
      simp only [perform, Option.ite_none_right_eq_some, Option.map_eq_some_iff,
        Prod.mk.injEq] at performed
      rcases performed with ⟨lt, rt', jumbled, rfl, rfl⟩
      obtain rfl := Option.some.inj stepped
      rcases holds.jumblePage lt jumbled with ⟨_, _, _, huge, _⟩
      simp only [RuntimeOp.leaks, Option.toList_none, List.append_nil]
      exact registered.same huge fun _ => Iff.rfl
  | setPinned handle pinned =>
      obtain ⟨rfl, rfl⟩ := Prod.mk.inj (Option.some.inj performed)
      simp only [Objects.step, Option.map_eq_some_iff] at stepped
      rcases stepped with ⟨object, isLive, rfl⟩
      have huge : (s.runtime.setPinned handle pinned).huge = s.runtime.huge := by
        unfold Runtime.setPinned
        split <;> rfl
      simp only [RuntimeOp.leaks, Option.toList_none, List.append_nil]
      exact registered.same huge fun _ => Iff.rfl
  | write handle offset value =>
      obtain ⟨rfl, rfl⟩ := Prod.mk.inj (Option.some.inj performed)
      simp only [Objects.step, Option.bind_eq_some_iff, Option.ite_none_right_eq_some,
        Option.some.injEq] at stepped
      rcases stepped with ⟨object, isLive, _, rfl⟩
      simp only [RuntimeOp.leaks, Option.toList_none, List.append_nil]
      refine registered.same rfl fun p => ?_
      rw [Objects.exists_insert]
      constructor
      · rintro (rfl | live)
        · exact ⟨object, isLive⟩
        · exact live
      · exact Or.inr

theorem registered_of_run {ops : List RuntimeOp} (registered : s.Registered leaked)
    (holds : s.runtime.Holds s.objects none none) (run : Run (ofFunction ClientState.next) s ops t)
    (fits : ∀ op ∈ ops, op.Fits) (count_le : t.runtime.table.slabCount ≤ 2 ^ 21) :
    t.Registered (leaked ++ ops.filterMap RuntimeOp.leaks) := by
  induction run generalizing leaked with
  | nil => simpa using registered
  | cons head tail ih =>
      have le := slabCount_run tail
      have fitsHead := fits _ List.mem_cons_self
      have middle := (next_holds holds head fitsHead (le.trans count_le)).1
      have first := registered.next holds head fitsHead (le.trans count_le)
      have rest := ih first middle (fun op member => fits op (List.mem_cons_of_mem _ member))
        count_le
      rename_i label _
      cases leaks : label.leaks with
      | none => simpa [List.filterMap_cons, leaks] using rest
      | some p => simpa [List.filterMap_cons, leaks] using rest

/--
After every run the registry has the live huge pointers and those that a reallocation from
one huge size to another forgot. So it is exact if and only if there was none of these.
-/
theorem leaks_exactly {heapStart : Nat} (placed : Heap.Placed heapStart) {ops : List RuntimeOp}
    (run : Run (ofFunction ClientState.next) (initial heapStart) ops s)
    (fits : ∀ op ∈ ops, op.Fits) (count_le : s.runtime.table.slabCount ≤ 2 ^ 21) :
    (∀ p, s.runtime.huge.owns p = true ↔
      s.LiveHuge p ∨ ∃ op ∈ ops, op.leaks = some p) ∧
    ((∀ p, s.runtime.huge.owns p = true ↔ s.LiveHuge p) ↔ ∀ op ∈ ops, op.leaks = none) := by
  have start : (initial heapStart).Registered [] := by
    refine ⟨fun p => ?_, by simp, by simp⟩
    simp [initial, create, LiveHuge, HugeObjectAllocator.owns_iff]
  have registered := registered_of_run start (initial_holds placed) run fits count_le
  have owns := registered.owns
  have gone := registered.gone
  simp only [List.nil_append, List.mem_filterMap] at owns gone
  refine ⟨owns, ?_⟩
  constructor
  · intro exact op member
    by_contra leaks
    rcases Option.ne_none_iff_exists'.mp leaks with ⟨p, leaks⟩
    rcases (exact p).mp ((owns p).mpr (Or.inr ⟨op, member, leaks⟩)) with ⟨_, object, isLive⟩
    rw [gone p ⟨op, member, leaks⟩] at isLive
    cases isLive
  · intro none p
    rw [owns p]
    constructor
    · rintro (live | ⟨op, member, leaks⟩)
      · exact live
      · rw [none op member] at leaks
        cases leaks
    · exact Or.inl

/-- A huge object grows, shrinks to a handle and grows again; the first step leaks. -/
def growingOps : List RuntimeOp :=
  [.newThreadcache, .halloc 0 100000 false (2 ^ 40), .hrealloc 0 (2 ^ 40 + 32) 200000 (2 ^ 41),
    .hrealloc 0 (2 ^ 41 + 32) 100 0, .hrealloc 0 (handleAt 0 1) 100000 (2 ^ 41)]

theorem growingOps_allowed :
    (replay ClientState.next (initial (2 ^ 44)) growingOps).isSome = true := by
  decide +kernel

theorem leaks_exactly_growing :
    let s := (replay ClientState.next (initial (2 ^ 44)) growingOps).get growingOps_allowed
    (∀ p, s.runtime.huge.owns p = true ↔
      s.LiveHuge p ∨ ∃ op ∈ growingOps, op.leaks = some p) ∧
    ((∀ p, s.runtime.huge.owns p = true ↔ s.LiveHuge p) ↔ ∀ op ∈ growingOps, op.leaks = none) :=
  leaks_exactly placed_session (run_of_replay (Option.some_get growingOps_allowed).symm)
    (by decide) (by decide +kernel)

end ClientState

end Alaska
