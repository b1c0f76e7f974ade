import Alaska.Lib.Run
import Alaska.Runtime.HashTable
import Mathlib.Logic.Function.Basic

/-!
# Runs of the hash tables

A `ck::map` or `ck::set` beside the finite map that its calls mean. The order of the buckets
and the hash of the keys never show in what a table answers.
-/

namespace Alaska

open Lts

/-- An entry of a `ck::map`. -/
structure MapEntry (K V : Type) where
  key : K
  value : V

/-- `EntryTraits` of `ck::map`. -/
def mapTraits {K V : Type} (hash : K → Nat) : HashTraits K (MapEntry K V) := ⟨MapEntry.key, hash⟩

/-- `entry_traits` of `ck::set`. -/
def setTraits {K : Type} (hash : K → Nat) : HashTraits K K := ⟨id, hash⟩

/-- One call; `get` comes with the entry that it adds for a missing key. -/
inductive HashTableOp (K T : Type) where
  | set (value : T)
  | remove (k : K)
  | get (fresh : T)
  | clear
  | ensureCapacity (capacity : Nat)

/-- The table beside the map it is to represent. -/
structure HashTableState (K T : Type) where
  table : HashTable T
  map : K → Option T

variable {K T : Type} [DecidableEq K]

def HashTable.perform (tr : HashTraits K T) (t : HashTable T) :
    HashTableOp K T → Option (HashTable T)
  | .set value => t.set tr value
  | .remove k => some (t.remove tr k)
  | .get fresh => (t.getWithin tr fresh 2).map Prod.snd
  | .clear => some empty
  | .ensureCapacity capacity => t.ensureCapacity tr capacity

/-- What a call means for the map. -/
def HashTableOp.meaning (tr : HashTraits K T) (map : K → Option T) :
    HashTableOp K T → K → Option T
  | .set value => Function.update map (tr.key value) (some value)
  | .remove k => Function.update map k none
  | .get fresh =>
      Function.update map (tr.key fresh) (some ((map (tr.key fresh)).getD fresh))
  | .clear => fun _ => none
  | .ensureCapacity _ => map

namespace HashTableState

open HashTable

def start : HashTableState K T := ⟨empty, fun _ => none⟩

def next (tr : HashTraits K T) (s : HashTableState K T) (op : HashTableOp K T) :
    Option (HashTableState K T) :=
  (s.table.perform tr op).map fun table => ⟨table, op.meaning tr s.map⟩

/-- The calls with no outcome: a new key in a full table, or too small or large a capacity. -/
def Refuses (tr : HashTraits K T) (s : HashTableState K T) : HashTableOp K T → Prop
  | .set value => s.map (tr.key value) = none ∧ s.table.Full
  | .get fresh => s.map (tr.key fresh) = none ∧ s.table.Full
  | .ensureCapacity capacity => capacity < s.table.size ∨ ¬ FitsArray capacity
  | .remove _ => False
  | .clear => False

/-- What the table answers is what the map says, and a loop sees every value once. -/
structure IsMap (tr : HashTraits K T) (s : HashTableState K T) : Prop where
  find : ∀ k, s.table.find tr k = s.map k
  contains : ∀ k, s.table.contains tr k = (s.map k).isSome
  get : ∀ fresh, s.Refuses tr (.get fresh) ∨
    ∃ t, s.table.getWithin tr fresh 2 = some ((s.map (tr.key fresh)).getD fresh, t)
  values : ∀ x, x ∈ s.table.values ↔ s.map (tr.key x) = some x
  once : s.table.values.Nodup
  size : s.table.size = s.table.values.length
  load : s.table.size ≤ s.table.capacity

/-- The table is in order and holds the values of the map, each under its key. -/
structure Invariant (tr : HashTraits K T) (s : HashTableState K T) : Prop where
  ok : s.table.Ok tr
  mem_iff : ∀ x, x ∈ s.table.buckets.flatten ↔ s.map (tr.key x) = some x
  keyed : ∀ k x, s.map k = some x → tr.key x = k

variable {tr : HashTraits K T} {s t : HashTableState K T}

theorem Invariant.find_eq (holds : s.Invariant tr) (k : K) : s.table.find tr k = s.map k := by
  ext x
  rw [holds.ok.find_iff, holds.mem_iff]
  constructor
  · rintro ⟨found, rfl⟩
    exact found
  · intro found
    have same := holds.keyed k x found
    exact ⟨same ▸ found, same⟩

theorem Invariant.isMap (holds : s.Invariant tr) : s.IsMap tr where
  find := holds.find_eq
  contains := by
    intro k
    rw [Bool.eq_iff_iff, holds.ok.contains_iff, Option.isSome_iff_exists, ← holds.find_eq]
    exact exists_congr fun x => holds.ok.find_iff.symm
  get := by
    intro fresh
    simp only [Refuses, ← holds.find_eq]
    rcases holds.ok.getWithin_spec fresh with
      ⟨x, found, got⟩ | ⟨missing, ⟨full, _⟩ | ⟨_, t', _, got⟩⟩
    · exact Or.inr ⟨_, by rw [got, found]; rfl⟩
    · exact Or.inl ⟨missing, full⟩
    · exact Or.inr ⟨_, by rw [got, missing]; rfl⟩
  values := by
    intro x
    rw [values_eq holds.ok]
    exact holds.mem_iff x
  once := by
    rw [values_eq holds.ok]
    exact holds.ok.nodup.of_map
  size := by
    rw [values_eq holds.ok]
    exact holds.ok.size_eq
  load := holds.ok.load

/-- The values after a key has been given a new one. -/
theorem Invariant.set (holds : s.Invariant tr) {value : T} {table : HashTable T}
    (ok : table.Ok tr) (members : ∀ x, x ∈ table.buckets.flatten ↔
      x = value ∨ x ∈ s.table.buckets.flatten ∧ tr.key x ≠ tr.key value) :
    Invariant tr ⟨table, Function.update s.map (tr.key value) (some value)⟩ := by
  refine ⟨ok, fun x => (members x).trans ?_, fun k x found => ?_⟩
  · rw [holds.mem_iff]
    by_cases same : tr.key x = tr.key value
    · simp [same, eq_comm]
    · have ne : x ≠ value := fun equal => same (congrArg tr.key equal)
      simp [same, ne]
  · dsimp only at found
    by_cases same : k = tr.key value
    · subst same
      rw [Function.update_self] at found
      rw [Option.some.inj found]
    · rw [Function.update_of_ne same] at found
      exact holds.keyed k x found

omit [DecidableEq K] in
/-- The keys of the map are those of the values. -/
theorem Invariant.map_eq_none (holds : s.Invariant tr) {k : K} :
    s.map k = none ↔ ∀ x ∈ s.table.buckets.flatten, tr.key x ≠ k := by
  constructor
  · rintro missing x member rfl
    rw [holds.mem_iff, missing] at member
    cases member
  · intro new
    cases found : s.map k with
    | none => rfl
    | some x =>
        have same := holds.keyed k x found
        exact absurd same (new x ((holds.mem_iff x).mpr (same ▸ found)))

theorem Invariant.remove (holds : s.Invariant tr) (k : K) :
    Invariant tr ⟨s.table.remove tr k, Function.update s.map k none⟩ := by
  have spec := holds.ok.remove_spec k
  refine ⟨spec.1, fun x => (spec.2 x).trans ?_, fun other x found => ?_⟩
  · rw [holds.mem_iff]
    by_cases same : tr.key x = k
    · simp [same]
    · simp [same]
  · dsimp only at found
    by_cases same : other = k
    · subst same
      rw [Function.update_self] at found
      cases found
    · rw [Function.update_of_ne same] at found
      exact holds.keyed other x found

/-- Every call that is not refused has an outcome, and keeps the map. -/
theorem Invariant.step (holds : s.Invariant tr) (op : HashTableOp K T) :
    s.Refuses tr op ∧ s.next tr op = none ∨
      ¬ s.Refuses tr op ∧ ∃ t, s.next tr op = some t ∧ t.Invariant tr := by
  cases op with
  | set value =>
      simp only [Refuses, holds.map_eq_none]
      rcases holds.ok.set_spec value with
        ⟨new, full, failed⟩ | ⟨notFull, table, result, ok, members⟩
      · exact Or.inl ⟨⟨new, full⟩, by simp only [next, perform, failed, Option.map_none]⟩
      · refine Or.inr ⟨notFull, ⟨table, _⟩, ?_, holds.set ok members⟩
        simp only [next, perform, result, Option.map_some, HashTableOp.meaning]
  | remove k => exact Or.inr ⟨id, _, rfl, holds.remove k⟩
  | clear =>
      have cleared : Invariant tr ⟨empty, fun _ => none⟩ :=
        ⟨ok_empty, fun x => by simp [empty], fun k x found => by cases found⟩
      exact Or.inr ⟨id, _, rfl, cleared⟩
  | get fresh =>
      simp only [Refuses]
      rcases holds.ok.getWithin_spec fresh with
        ⟨x, found, got⟩ | ⟨missing, ⟨full, got⟩ | ⟨notFull, table, result, got⟩⟩
      · rw [holds.find_eq] at found
        have unchanged : Function.update s.map (tr.key fresh)
            (some ((s.map (tr.key fresh)).getD fresh)) = s.map := by
          rw [found, Option.getD_some, ← found, Function.update_eq_self]
        refine Or.inr ⟨by simp [found], s, ?_, holds⟩
        simp only [next, perform, got, HashTableOp.meaning, unchanged, Option.map_some]
      · rw [holds.find_eq] at missing
        exact Or.inl ⟨⟨missing, full⟩, by simp only [next, perform, got, Option.map_none]⟩
      · rw [holds.find_eq] at missing
        rcases holds.ok.set_spec fresh with ⟨_, full, _⟩ | ⟨_, table', result', ok, members⟩
        · exact absurd full notFull
        · obtain rfl := Option.some.inj (result.symm.trans result')
          refine Or.inr ⟨fun refuses => notFull refuses.2, _, ?_, holds.set ok members⟩
          simp only [next, perform, got, HashTableOp.meaning, missing, Option.map_some,
            Option.getD_none]
  | ensureCapacity capacity =>
      by_cases refuses : capacity < s.table.size ∨ ¬ FitsArray capacity
      · refine Or.inl ⟨refuses, ?_⟩
        simp only [next, perform, ensureCapacity, rehash]
        rcases refuses with small | large
        · rw [if_neg (Nat.not_le.mpr small), Option.map_none]
        · rw [if_neg large, ite_self, Option.map_none]
      · rcases not_or.mp refuses with ⟨enough, fits⟩
        have le := Nat.not_lt.mp enough
        rcases holds.ok.rehash_spec le (not_not.mp fits) with ⟨table, rehashed, ok, perm, _⟩
        refine Or.inr ⟨refuses, ⟨table, s.map⟩, ?_, ok, fun x => ?_, holds.keyed⟩
        · simp only [next, perform, ensureCapacity, if_pos le, rehashed, Option.map_some,
            HashTableOp.meaning]
        · rw [perm.mem_iff]
          exact holds.mem_iff x

theorem invariant_of_run {ops : List (HashTableOp K T)}
    (run : Run (ofFunction (next tr)) start ops s) : s.Invariant tr := by
  refine run.invariant (Invariant tr) ?_ ?_
  · intro s op t holds step
    rcases holds.step op with ⟨_, fails⟩ | ⟨_, t', performed, holds'⟩
    · cases fails.symm.trans step
    · cases performed.symm.trans step
      exact holds'
  · exact ⟨ok_empty, fun x => by simp [start, empty], fun k x found => by cases found⟩

/--
After every run of calls the table is the map that the calls mean, whatever the hash of the
keys, and every call has an outcome but an `ensure_capacity` for less than there is or for more
than an array can hold, and a new key when the array cannot grow any more.
-/
theorem isMap_of_run {ops : List (HashTableOp K T)}
    (run : Run (ofFunction (next tr)) start ops s) :
    s.IsMap tr ∧ ∀ op, s.next tr op = none ↔ s.Refuses tr op := by
  have holds := invariant_of_run run
  refine ⟨holds.isMap, fun op => ?_⟩
  rcases holds.step op with ⟨refuses, fails⟩ | ⟨accepts, t, performed, _⟩
  · exact iff_of_true fails refuses
  · exact iff_of_false (by simp [performed]) accepts

/-- Return addresses with their pin sets, some of them in one bucket. -/
def pinMapOps : List (HashTableOp Nat (MapEntry Nat Nat)) :=
  [.set ⟨16, 1⟩, .set ⟨32, 2⟩, .set ⟨33, 3⟩, .set ⟨48, 4⟩, .set ⟨32, 5⟩, .remove 16, .get ⟨64, 0⟩,
    .ensureCapacity 10, .get ⟨48, 0⟩]

theorem pinMapOps_allowed :
    (replay (next (mapTraits fun k => k)) start pinMapOps).isSome = true := by
  decide +kernel

theorem isMap_of_run_pinMap :
    let tr : HashTraits Nat (MapEntry Nat Nat) := mapTraits fun k => k
    let s := (replay (next tr) start pinMapOps).get pinMapOps_allowed
    s.IsMap tr ∧ ∀ op, s.next tr op = none ↔ s.Refuses tr op :=
  isMap_of_run (run_of_replay (Option.some_get pinMapOps_allowed).symm)

end HashTableState

end Alaska
