import Alaska.Compiler.TranslationForest
import Alaska.Runtime.Translate

/-!
# The addresses of hoisted accesses

Hoisting translates the source of a pointer and applies the address computations to the
result, and conservative insertion translates the pointer itself. The two addresses are the
same whatever the handle table holds exactly when the computations do not lead to another
mapping, or between handles and addresses.
-/

namespace Alaska

open Collect PointerFlowGraph Mapping

/-- What the values are at an access, and what each address computation adds there. -/
structure Environment where
  value : Value → Nat
  offset : Nat → Nat

namespace Environment

variable (env : Environment)

/-- The value of a pointer. -/
def eval : Value → Nat
  | .getElementPtr id pointerOperand => (eval pointerOperand + env.offset id) % 2 ^ 64
  | v => env.value v % 2 ^ 64

/-- The value of what a node translates; an access is the root of no tree. -/
def root : FlowNode → Nat
  | .value v => env.eval v
  | .sink access => env.eval access.pointer

/-- The address that a translated pointer leads to; `derive` is lowered to the computation. -/
def address (readable : Nat → Bool) (mappings : Mappings) :
    TranslationForest.Translated → Option Nat
  | .translate node _ => alaskaTranslate readable mappings (env.root node)
  | .derive base id =>
      (address readable mappings base).map fun mapped => (mapped + env.offset id) % 2 ^ 64

end Environment

/-- Is the value one that `alaska_translate` looks up? -/
def LookedUp (ptr : Nat) : Prop := 2 ^ 63 ≤ ptr ∧ ptr ≠ 2 ^ 64 - 1

/-- Two values that are not looked up, or lead to the same mapping. -/
def SameMapping (source pointer : Nat) : Prop :=
  ¬ LookedUp source ∧ ¬ LookedUp pointer ∨
    LookedUp source ∧ LookedUp pointer ∧ fromHandle source = fromHandle pointer

variable {env : Environment} {readable : Nat → Bool} {mappings : Mappings}
  {source pointer address : Nat}

theorem Environment.eval_lt (v : Value) : env.eval v < 2 ^ 64 := by
  cases v <;> exact Nat.mod_lt _ (by decide)

instance : DecidablePred LookedUp := fun _ => inferInstanceAs (Decidable (_ ∧ _))

theorem alaskaTranslate_of_lookedUp (lookedUp : LookedUp pointer) :
    alaskaTranslate readable mappings pointer =
      if readable (mappings (fromHandle pointer)).ptr then
        some (((mappings (fromHandle pointer)).ptr + pointer % 2 ^ 24) % 2 ^ 64)
      else none := by
  rcases lookedUp with ⟨negative, ne⟩
  rw [alaskaTranslate, if_neg (by omega)]
  rfl

theorem alaskaTranslate_of_not_lookedUp (raw : ¬ LookedUp pointer) (small : pointer < 2 ^ 64) :
    alaskaTranslate readable mappings pointer = some pointer := by
  simp only [LookedUp, not_and_or] at raw
  rw [alaskaTranslate, if_pos (by omega)]

theorem alaskaTranslate_lt (small : pointer < 2 ^ 64)
    (translated : alaskaTranslate readable mappings pointer = some address) :
    address < 2 ^ 64 := by
  by_cases lookedUp : LookedUp pointer
  · rw [alaskaTranslate_of_lookedUp lookedUp] at translated
    rcases Option.ite_none_right_eq_some.mp translated with ⟨_, ⟨⟩⟩
    exact Nat.mod_lt _ (by decide)
  · rw [alaskaTranslate_of_not_lookedUp lookedUp small] at translated
    cases translated
    exact small

theorem Environment.address_lt {translated : TranslationForest.Translated}
    (leads : env.address readable mappings translated = some address) : address < 2 ^ 64 := by
  cases translated with
  | translate node owner =>
      cases node <;> exact alaskaTranslate_lt (env.eval_lt _) leads
  | derive base id =>
      rcases Option.map_eq_some_iff.mp leads with ⟨_, _, rfl⟩
      exact Nat.mod_lt _ (by decide)

/-- Words that are equal after the same addition are equal. -/
theorem map_add_mod_eq_iff {one other : Option Nat} (bounded : ∀ a, one = some a → a < 2 ^ 64)
    (bounded' : ∀ a, other = some a → a < 2 ^ 64) :
    one.map (fun a => (a + source) % 2 ^ 64) = other.map (fun a => (a + source) % 2 ^ 64) ↔
      one = other := by
  refine ⟨fun equal => ?_, fun equal => by rw [equal]⟩
  cases one with
  | none => rwa [Option.map_none, eq_comm, Option.map_eq_none_iff, eq_comm] at equal
  | some a =>
      rw [Option.map_some, eq_comm, Option.map_eq_some_iff] at equal
      rcases equal with ⟨b, rfl, added⟩
      have small := bounded a rfl
      have small' := bounded' b rfl
      rw [show a = b by omega]

/-- Translation keeps the distance of the pointer to the source exactly in one mapping. -/
theorem translate_distance_iff (small : source < 2 ^ 64) (small' : pointer < 2 ^ 64) :
    (∀ readable mappings,
        (alaskaTranslate readable mappings source).map (fun a => (a + pointer) % 2 ^ 64) =
          (alaskaTranslate readable mappings pointer).map fun a => (a + source) % 2 ^ 64) ↔
      SameMapping source pointer := by
  have words : ∀ word < 2 ^ 64, (ofPtr word).ptr = word := fun word lt => ptr_ofPtr lt
  constructor
  · intro agree
    -- a table of nulls, and one with an address for the source or for all
    have nulls := agree (fun _ => true) fun _ => ofPtr 0
    have ones := agree (fun _ => true) fun _ => ofPtr 1
    by_cases lookedUp : LookedUp source <;> by_cases lookedUp' : LookedUp pointer
    · refine Or.inr ⟨lookedUp, lookedUp', ?_⟩
      by_contra ne
      have one := agree (fun _ => true) fun mapping =>
        if mapping = fromHandle source then ofPtr 1 else ofPtr 0
      rw [alaskaTranslate_of_lookedUp lookedUp, alaskaTranslate_of_lookedUp lookedUp'] at one nulls
      rw [if_pos rfl, if_pos rfl, if_pos rfl, if_neg (Ne.symm ne), words 1 (by decide),
        words 0 (by decide)] at one
      rw [if_pos rfl, if_pos rfl, words 0 (by decide)] at nulls
      simp only [Option.map_some, Option.some.injEq] at one nulls
      omega
    · rw [alaskaTranslate_of_lookedUp lookedUp, alaskaTranslate_of_not_lookedUp lookedUp' small',
        if_pos rfl, words _ (by decide)] at nulls ones
      simp only [Option.map_some, Option.some.injEq] at nulls ones
      omega
    · rw [alaskaTranslate_of_not_lookedUp lookedUp small, alaskaTranslate_of_lookedUp lookedUp',
        if_pos rfl, words _ (by decide)] at nulls ones
      simp only [Option.map_some, Option.some.injEq] at nulls ones
      omega
    · exact Or.inl ⟨lookedUp, lookedUp'⟩
  · rintro (⟨raw, raw'⟩ | ⟨lookedUp, lookedUp', same⟩) readable mappings
    · rw [alaskaTranslate_of_not_lookedUp raw small, alaskaTranslate_of_not_lookedUp raw' small',
        Option.map_some, Option.map_some, Nat.add_comm]
    · rw [alaskaTranslate_of_lookedUp lookedUp, alaskaTranslate_of_lookedUp lookedUp', same]
      by_cases loaded : readable (mappings (fromHandle pointer)).ptr = true
      · simp only [if_pos loaded, Option.map_some, Option.some.injEq]
        simp only [fromHandle, sizeBits, squeezeBits] at same
        omega
      · rw [if_neg loaded, if_neg loaded]
        rfl

namespace TranslationForest

variable {noStrictAlias : Bool} {blocks : List (List ScannedInst)}
  {g : PointerFlowGraph noStrictAlias blocks} {dt : DominatorTree} {fuel : Nat}
  {node root : FlowNode} {incoming : Translated} {rewrites : List Rewrite} {r c : Rewrite}
  {v : Value}

/-- A translated pointer is as far from the translated source as the pointer from the source. -/
def Keeps (env : Environment) (readable : Nat → Bool) (mappings : Mappings) (source : Nat)
    (translated : Translated) (pointer : Value) : Prop :=
  (env.address readable mappings translated).map (fun a => (a + source) % 2 ^ 64) =
    (alaskaTranslate readable mappings source).map fun a => (a + env.eval pointer) % 2 ^ 64

theorem Keeps.derive {id : Nat} (keeps : Keeps env readable mappings source incoming v) :
    Keeps env readable mappings source (.derive incoming id) (.getElementPtr id v) := by
  simp only [Keeps, Environment.address, Environment.eval, Option.map_map] at keeps ⊢
  cases led : env.address readable mappings incoming with
  | none =>
      rw [led, Option.map_none, eq_comm, Option.map_eq_none_iff] at keeps
      rw [keeps]
      rfl
  | some address =>
      rw [led, Option.map_some, eq_comm, Option.map_eq_some_iff] at keeps
      rcases keeps with ⟨base, translated, distance⟩
      rw [translated]
      simp only [Option.map_some, Function.comp_apply, Option.some.injEq]
      omega

/-- The accesses that a node rewrites use pointers derived from the one that comes in. -/
theorem keeps_of_mem_apply (applied : apply g fuel incoming node = some rewrites)
    (edge : node ∈ g.getOutNodes (.value v)) (keeps : Keeps env readable mappings source incoming v)
    (member : r ∈ rewrites) : Keeps env readable mappings source r.pointer r.access.pointer := by
  induction fuel generalizing incoming node rewrites v with
  | zero => cases applied
  | succ fuel ih =>
      have out := (mem_getOutNodes.mp edge).2
      cases node with
      | sink access =>
          obtain rfl := Option.some.inj applied
          obtain rfl := List.mem_singleton.mp member
          obtain rfl : v = access.pointer := by simpa [FlowNode.inNodes] using out
          exact keeps
      | value w =>
          rcases mem_inNodes_value.mp out with ⟨_, id, above, rfl, same⟩
          obtain rfl := FlowNode.value.inj same
          rcases (mem_gather applied).mp member with ⟨child, childEdge, found, below, inside⟩
          exact ih below childEdge keeps.derive inside

/-- The accesses of a tree are below its root, and their pointers are derived from it. -/
theorem keeps_of_mem_applyRoot (applied : applyRoot g dt fuel (.value v) = some rewrites)
    (member : r ∈ rewrites) :
    Keeps env readable mappings (env.eval v) r.pointer r.access.pointer := by
  rcases (mem_gather applied).mp member with ⟨child, edge, found, below, inside⟩
  rcases Option.bind_eq_some_iff.mp below with ⟨shared, _, childApplied⟩
  exact keeps_of_mem_apply childApplied edge rfl inside

/--
An access that hoisting rewrites goes to the same address as after conservative insertion,
for every handle table and whatever can be loaded from, exactly when its operand leads to the
same mapping as the source it is computed from, or neither is looked up.
-/
theorem hoisted_agrees_iff (hoisted : insertHoistedTranslations g dt fuel = some rewrites)
    (member : r ∈ rewrites) (member' : c ∈ insertConservativeTranslations blocks)
    (same : r.access = c.access) (env : Environment) :
    (∀ readable mappings,
        env.address readable mappings r.pointer = env.address readable mappings c.pointer) ↔
      SameMapping (env.eval (sourceOf noStrictAlias r.access.pointer))
        (env.eval r.access.pointer) := by
  rcases (mem_gather hoisted).mp member with ⟨root, isRoot, found, applied, inside⟩
  rcases mem_roots.mp isRoot with ⟨v, rfl, _, isSource, _⟩
  have below := ((mem_applyRoot applied isRoot).mp ⟨r, inside, rfl⟩).2
  obtain rfl : v = sourceOf noStrictAlias r.access.pointer := by
    rcases below with other | ⟨w, followed, equal⟩
    · cases other
    · obtain rfl := FlowNode.value.inj equal
      exact eq_sourceOf followed isSource
  have conservative : ∀ readable mappings, env.address readable mappings c.pointer =
      alaskaTranslate readable mappings (env.eval r.access.pointer) := by
    intro readable mappings
    simp only [insertConservativeTranslations, List.mem_filterMap,
      Option.ite_none_right_eq_some, Option.some.injEq] at member'
    rcases member' with ⟨access, _, _, rfl⟩
    rw [same]
    rfl
  rw [← translate_distance_iff (env.eval_lt _) (env.eval_lt _)]
  refine forall_congr' fun readable => forall_congr' fun mappings => ?_
  have keeps : Keeps env readable mappings _ r.pointer r.access.pointer :=
    keeps_of_mem_applyRoot applied inside
  rw [conservative, ← keeps]
  exact (map_add_mod_eq_iff (fun _ => Environment.address_lt)
    fun _ => alaskaTranslate_lt (env.eval_lt _)).symm

/-- A load of a field of an argument. -/
def fieldLoad : List (List ScannedInst) :=
  [[.other 0, .load 2 (.getElementPtr 1 (.argument 0 "f")), .other 3]]

def fieldLoadGraph : PointerFlowGraph false fieldLoad := ⟨createdNodes false fieldLoad, .refl _⟩

/-- The field is in the mapping of the handle when it is given one. -/
theorem hoisted_agrees_iff_fieldLoad :
    ∃ rewrites, insertHoistedTranslations fieldLoadGraph oneBlock 8 = some rewrites ∧
      ∀ r ∈ rewrites, ∀ c ∈ insertConservativeTranslations fieldLoad, r.access = c.access →
        ∀ readable mappings,
          (Environment.mk (fun _ => 2 ^ 63) fun _ => 8).address readable mappings r.pointer =
            (Environment.mk (fun _ => 2 ^ 63) fun _ => 8).address readable mappings c.pointer := by
  have hoisted : insertHoistedTranslations fieldLoadGraph oneBlock 8 =
      some [⟨⟨2, false, .getElementPtr 1 (.argument 0 "f")⟩,
        .derive (.translate (.value (.argument 0 "f"))
          (.value (.getElementPtr 1 (.argument 0 "f")))) 1⟩] := by
    decide +kernel
  refine ⟨_, hoisted, fun r member c member' same => ?_⟩
  refine (hoisted_agrees_iff hoisted member member' same _).mpr (Or.inr ?_)
  obtain rfl := List.mem_singleton.mp member
  decide

end TranslationForest

end Alaska
