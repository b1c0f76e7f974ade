import Mathlib.Algebra.Group.Nat.Defs
import Mathlib.Data.List.Nodup

/-!
# Hash tables

`ck::HashTable`, on which `ck::map` and `ck::set` rest: the pin map, the pin sets of the
barrier and the set of the thread caches. A bucket is the list of its values, and there are as
many buckets as the capacity says. The array of buckets grows as long as its size is an `int`;
that there is memory for it is not part of the model. Two values are equal for a table when
their keys are, an `Entry` of a map or a member of a set; which hash the keys have is up to
their traits.
-/

namespace Alaska

/-- `TraitsForT`: the key that `equals` compares, and the hash of a key. -/
structure HashTraits (K T : Type) where
  key : T → K
  hash : K → Nat

structure HashTable (T : Type) where
  buckets : List (List T)
  size : Nat

/-- An iterator that is not at the end, with the values and the buckets behind its own. -/
structure HashTableIterator (T : Type) where
  current : T
  rest : List T
  later : List (List T)

namespace HashTableIterator

variable {T : Type}

/-- The first value of some buckets. -/
def nextBucket : List (List T) → Option (HashTableIterator T)
  | [] => none
  | [] :: later => nextBucket later
  | (current :: rest) :: later => some ⟨current, rest, later⟩

/-- `skip_to_next`. -/
def skipToNext (it : HashTableIterator T) : Option (HashTableIterator T) :=
  match it.rest with
  | [] => nextBucket it.later
  | current :: rest => some ⟨current, rest, it.later⟩

/-- What is still to come. -/
def remaining : Option (HashTableIterator T) → List T
  | none => []
  | some it => it.current :: (it.rest ++ it.later.flatten)

theorem remaining_nextBucket (buckets : List (List T)) :
    remaining (nextBucket buckets) = buckets.flatten := by
  induction buckets with
  | nil => rfl
  | cons bucket later ih =>
      cases bucket with
      | nil => rw [nextBucket, ih, List.flatten_cons, List.nil_append]
      | cons current rest => rw [nextBucket, remaining, List.flatten_cons, List.cons_append]

theorem remaining_skipToNext (it : HashTableIterator T) :
    remaining it.skipToNext = it.rest ++ it.later.flatten := by
  rw [skipToNext]
  split
  · next last => rw [remaining_nextBucket, last, List.nil_append]
  · next more => rw [remaining, more, List.cons_append]

/-- The values that a loop from an iterator to the end sees. -/
def collect : Option (HashTableIterator T) → List T
  | none => []
  | some it => it.current :: collect it.skipToNext
termination_by it => (remaining it).length
decreasing_by
  rw [remaining_skipToNext, remaining, List.length_cons]
  exact Nat.lt_succ_self _

theorem collect_eq (it : Option (HashTableIterator T)) : collect it = remaining it := by
  induction it using collect.induct with
  | case1 => rw [collect, remaining]
  | case2 it ih => rw [collect, ih, remaining_skipToNext, remaining]

end HashTableIterator

namespace HashTable

variable {K T : Type}

/-- A new table, and what `clear` leaves. -/
def empty : HashTable T := ⟨[], 0⟩

def capacity (t : HashTable T) : Nat := t.buckets.length

def bucketIndex (tr : HashTraits K T) (t : HashTable T) (k : K) : Nat := tr.hash k % t.capacity

/-- `lookup`, and `lookup_with_hash`. -/
def lookup (tr : HashTraits K T) (t : HashTable T) (k : K) : List T :=
  t.buckets.getD (t.bucketIndex tr k) []

def insert (tr : HashTraits K T) (t : HashTable T) (value : T) : HashTable T :=
  { t with buckets := t.buckets.modify (t.bucketIndex tr (tr.key value)) fun b => b ++ [value] }

/-- `sizeof(Bucket)` -/
def bucketBytes : Nat := 16

/-- The array of twice as many buckets has a size that `calloc` can take for an `int`. -/
def FitsArray (capacity : Nat) : Prop := capacity * 2 * bucketBytes < 2 ^ 31

instance (capacity : Nat) : Decidable (FitsArray capacity) := inferInstanceAs (Decidable (_ < _))

/-- `rehash`; where the capacity or the size of the array overflows there is no table. -/
def rehash (tr : HashTraits K T) (t : HashTable T) (newCapacity : Nat) : Option (HashTable T) :=
  if FitsArray newCapacity then
    some (t.buckets.flatten.foldl (insert tr) ⟨List.replicate (newCapacity * 2) [], t.size⟩)
  else
    none

variable [DecidableEq K]

/-- The loop of `set` along a bucket. -/
def assign (tr : HashTraits K T) (value : T) : List T → List T
  | [] => []
  | e :: rest => if tr.key e = tr.key value then value :: rest else e :: assign tr value rest

/-- `set` in a table that has buckets. -/
def setOpen (tr : HashTraits K T) (t : HashTable T) (value : T) : Option (HashTable T) :=
  if (t.lookup tr (tr.key value)).any fun e => tr.key e = tr.key value then
    some { t with
      buckets := t.buckets.modify (t.bucketIndex tr (tr.key value)) (assign tr value) }
  else do
    let grown ← if t.capacity ≤ t.size then t.rehash tr (t.size + 1) else some t
    some { grown.insert tr value with size := t.size + 1 }

def set (tr : HashTraits K T) (t : HashTable T) (value : T) : Option (HashTable T) := do
  let opened ← if t.capacity = 0 then t.rehash tr 1 else some t
  opened.setOpen tr value

def find (tr : HashTraits K T) (t : HashTable T) (k : K) : Option T :=
  if t.size = 0 then none else (t.lookup tr k).find? fun e => tr.key e = k

def contains (tr : HashTraits K T) (t : HashTable T) (k : K) : Bool :=
  if t.size = 0 then false else (t.lookup tr k).any fun e => tr.key e = k

def remove (tr : HashTraits K T) (t : HashTable T) (k : K) : HashTable T :=
  match t.find tr k with
  | none => t
  | some _ =>
      { buckets := t.buckets.modify (t.bucketIndex tr k) (List.eraseP fun e => tr.key e = k),
        size := t.size - 1 }

/-- `ensure_capacity`, which asserts that nothing is lost. -/
def ensureCapacity (tr : HashTraits K T) (t : HashTable T) (capacity : Nat) :
    Option (HashTable T) :=
  if t.size ≤ capacity then t.rehash tr capacity else none

/-- `get` of a map, with the entry that it adds for a missing key, and a bound on its calls. -/
def getWithin (tr : HashTraits K T) (fresh : T) : Nat → HashTable T → Option (T × HashTable T)
  | 0, _ => none
  | fuel + 1, t =>
      match t.find tr (tr.key fresh) with
      | none => (t.set tr fresh).bind (getWithin tr fresh fuel)
      | some found => some (found, t)

/-- The values that a loop over the table sees, from `begin` on. -/
def values (t : HashTable T) : List T :=
  HashTableIterator.collect
    (if t.size = 0 then none else HashTableIterator.nextBucket t.buckets)

end HashTable

namespace HashTable

variable {K T : Type}

/-! ## The invariant -/

/-- Every value is in the bucket of its hash. -/
def Placed (tr : HashTraits K T) (t : HashTable T) : Prop :=
  ∀ i bucket, t.buckets[i]? = some bucket → ∀ x ∈ bucket, t.bucketIndex tr (tr.key x) = i

/-- What holds of a table between two operations. -/
structure Ok (tr : HashTraits K T) (t : HashTable T) : Prop where
  placed : t.Placed tr
  nodup : (t.buckets.flatten.map tr.key).Nodup
  size_eq : t.size = t.buckets.flatten.length
  load : t.size ≤ t.capacity

variable {tr : HashTraits K T} {t t' : HashTable T} {k : K} {value x : T} {n : Nat}

theorem values_eq (ok : t.Ok tr) : t.values = t.buckets.flatten := by
  rw [values, HashTableIterator.collect_eq]
  split
  · next isEmpty =>
      have isNil : t.buckets.flatten = [] :=
        List.eq_nil_of_length_eq_zero (ok.size_eq.symm.trans isEmpty)
      rw [HashTableIterator.remaining, isNil]
  · exact HashTableIterator.remaining_nextBucket _

theorem ok_empty : (empty : HashTable T).Ok tr :=
  ⟨fun i bucket found => (by simp [empty] at found), List.nodup_nil, rfl, Nat.le_refl 0⟩

/-- The values with a key are in its bucket. -/
theorem Placed.mem_lookup (placed : t.Placed tr) (same : tr.key x = k) :
    x ∈ t.lookup tr k ↔ x ∈ t.buckets.flatten := by
  rw [List.mem_flatten, lookup, List.getD_eq_getElem?_getD]
  constructor
  · intro member
    cases found : t.buckets[t.bucketIndex tr k]? with
    | none =>
        rw [found] at member
        cases member
    | some bucket =>
        rw [found] at member
        exact ⟨bucket, List.mem_of_getElem? found, member⟩
  · rintro ⟨bucket, isBucket, member⟩
    rcases List.mem_iff_getElem?.mp isBucket with ⟨i, found⟩
    rw [← same, placed i bucket found x member, found]
    exact member

theorem eq_of_key_eq (nodup : (t.buckets.flatten.map tr.key).Nodup) {y : T}
    (left : x ∈ t.buckets.flatten) (right : y ∈ t.buckets.flatten) (same : tr.key x = tr.key y) :
    x = y :=
  List.inj_on_of_nodup_map nodup left right same

/-! ## Edits of one bucket -/

/-- The buckets around the one of a key, before and after an edit of it. -/
theorem exists_of_modify (tr : HashTraits K T) (k : K) (opened : 0 < t.capacity)
    (f : List T → List T) :
    ∃ before after, t.buckets = before ++ t.lookup tr k :: after ∧
      t.buckets.modify (t.bucketIndex tr k) f = before ++ f (t.lookup tr k) :: after := by
  have inside : t.bucketIndex tr k < t.buckets.length := Nat.mod_lt _ opened
  rcases List.exists_of_modify f inside with ⟨before, bucket, after, split, length_eq, edited⟩
  have isBucket : t.lookup tr k = bucket := by
    rw [lookup, List.getD_eq_getElem?_getD, split, ← length_eq]
    simp
  rw [isBucket]
  exact ⟨before, after, split, edited⟩

/-- An edit of the bucket of a key that adds only values with this key. -/
theorem Placed.modify (placed : t.Placed tr) {f : List T → List T} {size : Nat}
    (added : ∀ bucket, ∀ x ∈ f bucket, x ∈ bucket ∨ tr.key x = k) :
    Placed tr ⟨t.buckets.modify (t.bucketIndex tr k) f, size⟩ := by
  have index_eq : ∀ k', bucketIndex tr ⟨t.buckets.modify (t.bucketIndex tr k) f, size⟩ k' =
      t.bucketIndex tr k' := by
    intro k'
    simp only [bucketIndex, capacity, List.length_modify]
  intro i bucket found x member
  rw [index_eq]
  rw [List.getElem?_modify] at found
  rcases Option.map_eq_some_iff.mp found with ⟨old, isOld, rfl⟩
  split at member
  · next here =>
      rcases added old x member with kept | same
      · exact placed i old isOld x kept
      · rw [same, here]
  · exact placed i old isOld x member

theorem capacity_insert (t : HashTable T) (value : T) :
    (t.insert tr value).capacity = t.capacity := List.length_modify ..

/-- `insert` adds one value. -/
theorem insert_perm (opened : 0 < t.capacity) (value : T) :
    (t.insert tr value).buckets.flatten.Perm (value :: t.buckets.flatten) := by
  rcases exists_of_modify tr (tr.key value) opened (fun b => b ++ [value]) with
    ⟨before, after, split, edited⟩
  rw [insert, edited, split, List.flatten_append, List.flatten_append, List.flatten_cons,
    List.flatten_cons]
  simp only [List.append_assoc, List.singleton_append]
  rw [← List.append_assoc, ← List.append_assoc]
  exact List.perm_middle

theorem Placed.insert (placed : t.Placed tr) (value : T) : (t.insert tr value).Placed tr := by
  refine placed.modify fun bucket x member => ?_
  rcases List.mem_append.mp member with old | new
  · exact Or.inl old
  · exact Or.inr (congrArg tr.key (List.mem_singleton.mp new))

/-- The loop of `rehash` over the values. -/
theorem foldl_insert_spec (xs : List T) (placed : t.Placed tr)
    (opened : xs ≠ [] → 0 < t.capacity) :
    (xs.foldl (insert tr) t).Placed tr ∧ (xs.foldl (insert tr) t).capacity = t.capacity ∧
      (xs.foldl (insert tr) t).size = t.size ∧
      (xs.foldl (insert tr) t).buckets.flatten.Perm (xs ++ t.buckets.flatten) := by
  induction xs generalizing t with
  | nil => exact ⟨placed, rfl, rfl, List.Perm.refl _⟩
  | cons value xs ih =>
      have isOpen := opened (List.cons_ne_nil value xs)
      have isOpen' : 0 < (t.insert tr value).capacity := (capacity_insert t value).symm ▸ isOpen
      rcases ih (placed.insert value) (fun _ => isOpen') with
        ⟨placed', capacity_eq, size_eq, perm⟩
      refine ⟨placed', capacity_eq.trans (capacity_insert ..), size_eq, perm.trans ?_⟩
      exact ((insert_perm isOpen value).append_left xs).trans List.perm_middle

/-- A rehash loses nothing, when there is a bucket for what there is. -/
theorem Ok.rehash_spec (ok : t.Ok tr) (le : t.size ≤ n) (fits : FitsArray n) :
    ∃ t', t.rehash tr n = some t' ∧ t'.Ok tr ∧
      t'.buckets.flatten.Perm t.buckets.flatten ∧ t'.capacity = n * 2 ∧ t'.size = t.size := by
  have start : Placed tr (⟨List.replicate (n * 2) [], t.size⟩ : HashTable T) := by
    intro i bucket found x member
    rw [List.getElem?_replicate] at found
    split at found
    · cases found
      cases member
    · cases found
  have opened : t.buckets.flatten ≠ [] →
      0 < (⟨List.replicate (n * 2) [], t.size⟩ : HashTable T).capacity := by
    intro nonempty
    have positive := List.length_pos_of_ne_nil nonempty
    have size_eq := ok.size_eq
    rw [capacity, List.length_replicate]
    omega
  rcases foldl_insert_spec t.buckets.flatten start opened with
    ⟨placed, capacity_eq, size_eq, perm⟩
  rw [List.flatten_replicate_nil, List.append_nil] at perm
  refine ⟨_, if_pos fits, ?_, perm, ?_, size_eq⟩
  · refine ⟨placed, (perm.map tr.key).nodup_iff.mpr ok.nodup, ?_, ?_⟩
    · exact size_eq.trans (ok.size_eq.trans perm.length_eq.symm)
    · rw [size_eq, capacity_eq, capacity, List.length_replicate]
      dsimp only
      omega
  · rw [capacity_eq, capacity, List.length_replicate]

/-- With different keys, what is left without a value are the values of other keys. -/
theorem mem_without {left right : List T} {e : T}
    (nodup : ((left ++ e :: right).map tr.key).Nodup) :
    x ∈ left ++ right ↔ x ∈ left ++ e :: right ∧ tr.key x ≠ tr.key e := by
  have unique : tr.key e ∉ (left ++ right).map tr.key :=
    (List.nodup_cons.mp ((List.perm_middle.map tr.key).nodup_iff.mp nodup)).1
  have cases : x ∈ left ++ e :: right ↔ x = e ∨ x ∈ left ++ right := by
    simp only [List.mem_append, List.mem_cons]
    tauto
  rw [cases]
  constructor
  · intro member
    exact ⟨Or.inr member, fun same => unique (same ▸ List.mem_map_of_mem member)⟩
  · rintro ⟨rfl | member, ne⟩
    · exact absurd rfl ne
    · exact member

/-- A value with a new key, in a table that has room. -/
theorem Ok.insert_spec (ok : t.Ok tr) (room : t.size < t.capacity)
    (new : ∀ x ∈ t.buckets.flatten, tr.key x ≠ tr.key value) :
    Ok tr { t.insert tr value with size := t.size + 1 } ∧
      ∀ x, x ∈ (t.insert tr value).buckets.flatten ↔
        x = value ∨ x ∈ t.buckets.flatten ∧ tr.key x ≠ tr.key value := by
  have perm : (t.insert tr value).buckets.flatten.Perm (value :: t.buckets.flatten) :=
    insert_perm (Nat.zero_lt_of_lt room) value
  refine ⟨⟨ok.placed.insert value, ?_, ?_, ?_⟩, fun x => ?_⟩
  · refine (perm.map tr.key).nodup_iff.mpr (List.nodup_cons.mpr ⟨fun isKey => ?_, ok.nodup⟩)
    rcases List.mem_map.mp isKey with ⟨x, member, same⟩
    exact new x member same
  · exact (congrArg (· + 1) ok.size_eq).trans perm.length_eq.symm
  · exact Nat.le_trans room (Nat.le_of_eq (capacity_insert t value).symm)
  · rw [perm.mem_iff, List.mem_cons]
    constructor
    · exact Or.imp id fun member => ⟨member, new x member⟩
    · exact Or.imp id And.left

/-! ## What a table answers -/

variable [DecidableEq K]

theorem Ok.find_iff (ok : t.Ok tr) :
    t.find tr k = some x ↔ x ∈ t.buckets.flatten ∧ tr.key x = k := by
  unfold find
  split
  · next isEmpty =>
      have isNil : t.buckets.flatten = [] :=
        List.eq_nil_of_length_eq_zero (ok.size_eq.symm.trans isEmpty)
      simp [isNil]
  · constructor
    · intro found
      have same : tr.key x = k := by simpa using List.find?_some found
      exact ⟨(ok.placed.mem_lookup same).mp (List.mem_of_find?_eq_some found), same⟩
    · rintro ⟨member, same⟩
      have isIn := (ok.placed.mem_lookup same).mpr member
      have some_ : ((t.lookup tr k).find? fun e => tr.key e = k).isSome = true :=
        List.find?_isSome.mpr ⟨x, isIn, decide_eq_true same⟩
      rcases Option.isSome_iff_exists.mp some_ with ⟨y, found⟩
      have same' : tr.key y = k := by simpa using List.find?_some found
      have member' := (ok.placed.mem_lookup same').mp (List.mem_of_find?_eq_some found)
      rw [found, eq_of_key_eq ok.nodup member' member (same'.trans same.symm)]

theorem Ok.contains_iff (ok : t.Ok tr) :
    t.contains tr k = true ↔ ∃ x ∈ t.buckets.flatten, tr.key x = k := by
  unfold contains
  split
  · next isEmpty =>
      have isNil : t.buckets.flatten = [] :=
        List.eq_nil_of_length_eq_zero (ok.size_eq.symm.trans isEmpty)
      simp [isNil]
  · rw [List.any_eq_true]
    constructor
    · rintro ⟨x, isIn, same⟩
      exact ⟨x, (ok.placed.mem_lookup (of_decide_eq_true same)).mp isIn, of_decide_eq_true same⟩
    · rintro ⟨x, member, same⟩
      exact ⟨x, (ok.placed.mem_lookup same).mpr member, decide_eq_true same⟩

/-! ## Changes of a table -/

theorem assign_eq {bucket : List T} (some_ : ∃ e ∈ bucket, tr.key e = tr.key value) :
    ∃ left e right, bucket = left ++ e :: right ∧ tr.key e = tr.key value ∧
      assign tr value bucket = left ++ value :: right := by
  induction bucket with
  | nil =>
      rcases some_ with ⟨e, member, _⟩
      cases member
  | cons first rest ih =>
      rw [assign]
      by_cases here : tr.key first = tr.key value
      · exact ⟨[], first, rest, rfl, here, if_pos here⟩
      · rcases some_ with ⟨e, member, same⟩
        rcases List.mem_cons.mp member with rfl | member
        · exact absurd same here
        · rcases ih ⟨e, member, same⟩ with ⟨left, e, right, rfl, same, assigned⟩
          exact ⟨first :: left, e, right, rfl, same, by rw [if_neg here, assigned]; rfl⟩

theorem mem_of_mem_assign {bucket : List T} (member : x ∈ assign tr value bucket) :
    x ∈ bucket ∨ tr.key x = tr.key value := by
  induction bucket with
  | nil => cases member
  | cons first rest ih =>
      rw [assign] at member
      split at member
      · rcases List.mem_cons.mp member with rfl | inRest
        · exact Or.inr rfl
        · exact Or.inl (List.mem_cons_of_mem _ inRest)
      · rcases List.mem_cons.mp member with rfl | inRest
        · exact Or.inl List.mem_cons_self
        · exact (ih inRest).imp (List.mem_cons_of_mem _) id

/-- The value of a key that is there is replaced. -/
theorem Ok.replace_spec (ok : t.Ok tr) (opened : 0 < t.capacity)
    (some_ : ∃ e ∈ t.lookup tr (tr.key value), tr.key e = tr.key value) :
    Ok tr { t with buckets :=
        t.buckets.modify (t.bucketIndex tr (tr.key value)) (assign tr value) } ∧
      ∀ x, x ∈ (t.buckets.modify (t.bucketIndex tr (tr.key value)) (assign tr value)).flatten ↔
        x = value ∨ x ∈ t.buckets.flatten ∧ tr.key x ≠ tr.key value := by
  rcases exists_of_modify tr (tr.key value) opened (assign tr value) with
    ⟨before, after, split, edited⟩
  rcases assign_eq some_ with ⟨left, e, right, isBucket, same, assigned⟩
  have old : t.buckets.flatten =
      (before.flatten ++ left) ++ e :: (right ++ after.flatten) := by
    rw [split, isBucket]
    simp
  have new : (t.buckets.modify (t.bucketIndex tr (tr.key value)) (assign tr value)).flatten =
      (before.flatten ++ left) ++ value :: (right ++ after.flatten) := by
    rw [edited, assigned]
    simp
  have nodup := ok.nodup
  rw [old] at nodup
  refine ⟨⟨ok.placed.modify fun bucket x member => mem_of_mem_assign member, ?_, ?_, ?_⟩,
    fun x => ?_⟩
  · rw [new]
    simpa [same] using nodup
  · rw [new, ok.size_eq, old]
    simp
  · exact Nat.le_trans ok.load (Nat.le_of_eq (List.length_modify ..).symm)
  · rw [new, old, ← same, ← mem_without nodup]
    simp only [List.mem_append, List.mem_cons]
    tauto

/-- The table is full, and the array of buckets for one more value is too large. -/
def Full (t : HashTable T) : Prop := t.capacity ≤ t.size ∧ ¬ FitsArray (t.size + 1)

theorem Ok.setOpen_spec (ok : t.Ok tr) (opened : 0 < t.capacity) (value : T) :
    ((∀ x ∈ t.buckets.flatten, tr.key x ≠ tr.key value) ∧ t.Full ∧ t.setOpen tr value = none) ∨
      ¬ ((∀ x ∈ t.buckets.flatten, tr.key x ≠ tr.key value) ∧ t.Full) ∧
      ∃ t', t.setOpen tr value = some t' ∧ t'.Ok tr ∧ ∀ x, x ∈ t'.buckets.flatten ↔
        x = value ∨ x ∈ t.buckets.flatten ∧ tr.key x ≠ tr.key value := by
  by_cases some_ : ∃ e ∈ t.lookup tr (tr.key value), tr.key e = tr.key value
  · have found : ((t.lookup tr (tr.key value)).any fun e => tr.key e = tr.key value) = true := by
      simpa using some_
    rcases some_ with ⟨e, isIn, same⟩
    refine Or.inr ⟨fun ⟨new, _⟩ => new e ((ok.placed.mem_lookup same).mp isIn) same, _, ?_,
      ok.replace_spec opened ⟨e, isIn, same⟩⟩
    rw [setOpen, if_pos found]
  · have missing :
        ¬ ((t.lookup tr (tr.key value)).any fun e => tr.key e = tr.key value) = true := by
      simpa using some_
    have new : ∀ x ∈ t.buckets.flatten, tr.key x ≠ tr.key value := fun x member same =>
      some_ ⟨x, (ok.placed.mem_lookup same).mpr member, same⟩
    rw [setOpen, if_neg missing]
    by_cases full : t.capacity ≤ t.size
    · rw [if_pos full]
      by_cases fits : FitsArray (t.size + 1)
      · rcases ok.rehash_spec (Nat.le_succ _) fits with
          ⟨grown, rehashed, ok', perm, capacity_eq, size_eq⟩
        have room : grown.size < grown.capacity := by
          rw [size_eq, capacity_eq]
          omega
        have spec := ok'.insert_spec room fun x member => new x (perm.subset member)
        rw [size_eq] at spec
        refine Or.inr ⟨fun isFull => isFull.2.2 fits, _, by rw [rehashed]; rfl, spec.1,
          fun x => (spec.2 x).trans ?_⟩
        rw [perm.mem_iff]
      · refine Or.inl ⟨new, ⟨full, fits⟩, ?_⟩
        rw [rehash, if_neg fits]
        rfl
    · rw [if_neg full]
      exact Or.inr ⟨fun isFull => full isFull.2.1, _, rfl,
        ok.insert_spec (Nat.lt_of_not_le full) new⟩

/-- `set` has an outcome but for a new key in a full table. -/
theorem Ok.set_spec (ok : t.Ok tr) (value : T) :
    ((∀ x ∈ t.buckets.flatten, tr.key x ≠ tr.key value) ∧ t.Full ∧ t.set tr value = none) ∨
      ¬ ((∀ x ∈ t.buckets.flatten, tr.key x ≠ tr.key value) ∧ t.Full) ∧
      ∃ t', t.set tr value = some t' ∧ t'.Ok tr ∧ ∀ x, x ∈ t'.buckets.flatten ↔
        x = value ∨ x ∈ t.buckets.flatten ∧ tr.key x ≠ tr.key value := by
  rw [set]
  by_cases closed : t.capacity = 0
  · rw [if_pos closed]
    have load := ok.load
    have isEmpty : t.size = 0 := by omega
    rcases ok.rehash_spec (n := 1) (by omega) (by decide) with
      ⟨opened, rehashed, ok', perm, capacity_eq, size_eq⟩
    have notFull : ¬ t.Full := by
      rintro ⟨_, large⟩
      rw [isEmpty] at large
      exact large (by decide)
    rw [rehashed, Option.bind_eq_bind, Option.bind_some]
    rcases ok'.setOpen_spec (by omega) value with ⟨_, full, _⟩ | ⟨_, t', result, ok'', members⟩
    · have capacity_le := full.1
      omega
    · refine Or.inr ⟨fun isFull => notFull isFull.2, t', result, ok'', fun x => ?_⟩
      rw [members, perm.mem_iff]
  · rw [if_neg closed]
    exact ok.setOpen_spec (Nat.pos_of_ne_zero closed) value

theorem Ok.remove_spec (ok : t.Ok tr) (k : K) :
    (t.remove tr k).Ok tr ∧ ∀ x, x ∈ (t.remove tr k).buckets.flatten ↔
      x ∈ t.buckets.flatten ∧ tr.key x ≠ k := by
  rw [remove]
  split
  · next missing =>
      refine ⟨ok, fun x => ⟨fun member => ⟨member, fun same => ?_⟩, And.left⟩⟩
      rw [ok.find_iff.mpr ⟨member, same⟩] at missing
      cases missing
  · next y found =>
      rcases ok.find_iff.mp found with ⟨member, isKey⟩
      have isIn := (ok.placed.mem_lookup isKey).mpr member
      have load := ok.load
      have size_eq := ok.size_eq
      have positive : 0 < t.buckets.flatten.length := List.length_pos_of_mem member
      have opened : 0 < t.capacity := by omega
      rcases exists_of_modify tr k opened (List.eraseP fun e => tr.key e = k) with
        ⟨before, after, split, edited⟩
      rcases List.exists_of_eraseP (p := fun e => tr.key e = k) isIn (decide_eq_true isKey) with
        ⟨e, left, right, _, same, isBucket, erased⟩
      have same := of_decide_eq_true same
      have old : t.buckets.flatten =
          (before.flatten ++ left) ++ e :: (right ++ after.flatten) := by
        rw [split, isBucket]
        simp
      have new :
          (t.buckets.modify (t.bucketIndex tr k) (List.eraseP fun e => tr.key e = k)).flatten =
            (before.flatten ++ left) ++ (right ++ after.flatten) := by
        rw [edited, erased]
        simp
      have nodup := ok.nodup
      rw [old] at nodup size_eq
      refine ⟨⟨ok.placed.modify fun bucket x inErased => Or.inl (List.mem_of_mem_eraseP inErased),
        ?_, ?_, ?_⟩, fun x => ?_⟩
      · rw [new]
        exact nodup.sublist (((List.Sublist.refl _).append (List.sublist_cons_self ..)).map _)
      · rw [new]
        simp only [List.length_append, List.length_cons] at size_eq ⊢
        omega
      · have same_capacity := List.length_modify (List.eraseP fun e => tr.key e = k) t.buckets
          (t.bucketIndex tr k)
        exact Nat.le_trans (Nat.sub_le ..) (Nat.le_trans load (Nat.le_of_eq same_capacity.symm))
      · rw [new, old, ← same]
        exact mem_without nodup

/-- `get` ends after one recursive call, but for a new key in a full table. -/
theorem Ok.getWithin_spec (ok : t.Ok tr) (fresh : T) :
    (∃ x, t.find tr (tr.key fresh) = some x ∧ t.getWithin tr fresh 2 = some (x, t)) ∨
      t.find tr (tr.key fresh) = none ∧ (t.Full ∧ t.getWithin tr fresh 2 = none ∨
        ¬ t.Full ∧ ∃ t', t.set tr fresh = some t' ∧
          t.getWithin tr fresh 2 = some (fresh, t')) := by
  cases found : t.find tr (tr.key fresh) with
  | some x => exact Or.inl ⟨x, rfl, by simp only [getWithin, found]⟩
  | none =>
      have new : ∀ x ∈ t.buckets.flatten, tr.key x ≠ tr.key fresh := by
        intro x member same
        rw [ok.find_iff.mpr ⟨member, same⟩] at found
        cases found
      refine Or.inr ⟨rfl, ?_⟩
      rcases ok.set_spec fresh with ⟨_, full, failed⟩ | ⟨notFull, t', result, ok', members⟩
      · exact Or.inl ⟨full, by simp only [getWithin, found, failed, Option.bind_none]⟩
      · have isThere : t'.find tr (tr.key fresh) = some fresh :=
          ok'.find_iff.mpr ⟨(members fresh).mpr (Or.inl rfl), rfl⟩
        exact Or.inr ⟨fun full => notFull ⟨new, full⟩, t', result,
          by simp only [getWithin, found, result, Option.bind_some, isThere]⟩

end HashTable

end Alaska
