import Alaska.Lib.Run
import Alaska.Runtime.Mapping
import Mathlib.Data.Finset.Max
import Mathlib.Data.List.Sort

/-!
# The HTLB simulator

`HTLB.cpp`: two set-associative levels of lines that cache the words of mappings, each
with an LRU replacement inside a set. Under the exclusive policy a line is meant to live in
one level only: `pull` takes it out of L2, and the line L1 evicts is inserted into L2. The
TLB accesses and the statistics have no effect on the lines and are left out.
-/

namespace Alaska

namespace Sim

inductive CacheInclusionPolicy where
  | notInclusive
  | exclusive
  deriving DecidableEq

structure HtlbEntry where
  hid : Nat
  addr : Nat
  phys : Bool
  valid : Bool
  lastUsed : Nat
  recentlyMoved : Bool
  deriving DecidableEq

/-- One level; `L1HTLB` inherits the fields of `L2HTLB`. -/
structure Level where
  numSets : Nat
  numWays : Nat
  time : Nat
  policy : CacheInclusionPolicy
  sets : Nat → List HtlbEntry

namespace Level

variable {l : Level} {hid way : Nat} {entry : HtlbEntry}

/-- The constructor; the `last_used` of a line and `recently_moved` start with garbage. -/
def create (numSets numWays : Nat) (policy : CacheInclusionPolicy)
    (garbage : Nat → Nat → Nat × Bool) : Level where
  numSets := numSets
  numWays := numWays
  time := 0
  policy := policy
  sets := fun way => (List.range numWays).map fun index =>
    ⟨0, 0, false, false, (garbage way index).1, (garbage way index).2⟩

/-- The set a handle id belongs to; the source calls the number of a set `way`. -/
def wayOf (l : Level) (hid : Nat) : Nat := hid % l.numSets

/-- `std::find_if` for a valid line of `hid`. -/
def find (l : Level) (hid : Nat) : Option Nat :=
  (l.sets (l.wayOf hid)).findIdx? fun line => line.hid == hid && line.valid

/-- `std::min_element` by `last_used`: the first of the oldest lines. -/
def oldestLine (lines : List HtlbEntry) : Nat :=
  lines.findIdx fun line => lines.all fun other => decide (line.lastUsed ≤ other.lastUsed)

/-- Line `index` of a set; `sets[way][index]`. -/
def line (l : Level) (way index : Nat) : HtlbEntry :=
  (l.sets way).getD index ⟨0, 0, false, false, 0, false⟩

/-- `sets[way][index].reset(entry)`. -/
def resetLine (l : Level) (way index : Nat) (entry : HtlbEntry) : Level :=
  { l with sets := Function.update l.sets way ((l.sets way).set index entry) }

def tick (l : Level) : Level := { l with time := (l.time + 1) % 2 ^ 64 }

/-- `L2HTLB::lookup`, on the mapping at `m` with the word `word`. -/
def lookup (m : Nat) (word : Mapping) : HtlbEntry where
  hid := Mapping.handleId m
  addr := word.getPointer
  phys := false
  valid := !word.isFree
  lastUsed := 0
  recentlyMoved := false

def pull (l : Level) (m : Nat) (word : Mapping) : HtlbEntry × Level :=
  let l := l.tick
  let hid := Mapping.handleId m
  let way := l.wayOf hid
  match l.find hid with
  | some index =>
      let found := l.line way index
      if l.policy = .exclusive then
        ({ found with lastUsed := l.time }, l.resetLine way index { found with valid := false })
      else
        let found := { found with lastUsed := l.time }
        (found, l.resetLine way index found)
  | none =>
      let entry := lookup m word
      if l.policy = .exclusive then
        (entry, l)
      else
        (entry, l.resetLine way (oldestLine (l.sets way)) entry)

/-- `insert`; `none` when the assertion that the entry is new fails. -/
def insert (l : Level) (entry : HtlbEntry) : Option Level :=
  match l.find entry.hid with
  | some _ => none
  | none =>
      let way := l.wayOf entry.hid
      some (l.resetLine way (oldestLine (l.sets way)) entry)

/-- `invalidate`, on the lines of one set. -/
def invalidateLine (m : Nat) (line : HtlbEntry) : HtlbEntry :=
  if line.hid = Mapping.handleId m then { line with valid := false, hid := 0, lastUsed := 0 }
  else line

def invalidate (l : Level) (m : Nat) : Level :=
  { l with sets := fun way => (l.sets way).map (invalidateLine m) }

/-- `L2HTLB::invalidateAll`. -/
def invalidateAll (l : Level) : Level :=
  { l with
    sets := fun way => (l.sets way).map fun line =>
      { line with valid := false, hid := 0, lastUsed := 0 } }

/-- `L1HTLB::invalidateAll` leaves the ids and the ages alone. -/
def invalidateAllL1 (l : Level) : Level :=
  { l with sets := fun way => (l.sets way).map fun line => { line with valid := false } }

def getAllEntriesSorted (l : Level) : List HtlbEntry :=
  (List.range l.numSets).flatMap fun way =>
    (l.sets way).mergeSort fun line other => decide (line.lastUsed ≤ other.lastUsed)

/-- `hid` is in a valid line of the level. -/
def Cached (l : Level) (hid : Nat) : Prop :=
  ∃ way < l.numSets, ∃ line ∈ l.sets way, line.valid = true ∧ line.hid = hid

end Level

structure Htlb where
  l1 : Level
  l2 : Level

inductive HtlbOp where
  | access (m : Nat) (word : Mapping) (offset : Nat)
  | invalidateHtlb (m : Nat)
  | reset

namespace Htlb

open Level Lts

/-- An HTLB with no valid line. -/
def empty (l1Sets l1Ways l2Sets l2Ways : Nat) (garbage1 garbage2 : Nat → Nat → Nat × Bool) :
    Htlb where
  l1 := Level.create l1Sets l1Ways .exclusive garbage1
  l2 := Level.create l2Sets l2Ways .exclusive garbage2

/-- `L1HTLB::access`: the address of the response and the new state. -/
def access (h : Htlb) (m : Nat) (word : Mapping) : Option (Nat × Htlb) :=
  let l1 := h.l1.tick
  let hid := Mapping.handleId m
  let way := l1.wayOf hid
  match l1.find hid with
  | some index =>
      let found := l1.line way index
      some (found.addr, { h with l1 := l1.resetLine way index { found with lastUsed := l1.time } })
  | none => do
      let oldest := oldestLine (l1.sets way)
      let (entry, l2) := h.l2.pull m word
      let entry := { entry with lastUsed := l1.time }
      let l1 := l1.resetLine way oldest entry
      if l1.policy = .exclusive ∧ (l1.line way oldest).valid then
        let l2 ← l2.insert (l1.line way oldest)
        some ((l1.line way oldest).addr, ⟨l1, l2⟩)
      else
        some ((l1.line way oldest).addr, ⟨l1, l2⟩)

def next (h : Htlb) : HtlbOp → Option Htlb
  | .access m word _ => (h.access m word).map Prod.snd
  | .invalidateHtlb m => some ⟨h.l1.invalidate m, h.l2.invalidate m⟩
  | .reset => some ⟨h.l1.invalidateAllL1, h.l2.invalidateAll⟩

/-- The handle ids `dump_entries` writes, before it fills up with zeros. -/
def dumpedIds (h : Htlb) : List Nat :=
  ((h.l1.getAllEntriesSorted ++ h.l2.getAllEntriesSorted).filter HtlbEntry.valid).map HtlbEntry.hid

/-- `dump_entries`. -/
def dumpEntries (h : Htlb) : List Nat :=
  h.dumpedIds ++ List.replicate
    ((h.l1.getAllEntriesSorted ++ h.l2.getAllEntriesSorted).filter fun line => !line.valid).length 0

/-- The L1 line that an access evicts. -/
def victim (h : Htlb) (m : Nat) : Option HtlbEntry :=
  let way := h.l1.wayOf (Mapping.handleId m)
  match h.l1.find (Mapping.handleId m) with
  | some _ => none
  | none =>
      let line := h.l1.line way (oldestLine (h.l1.sets way))
      if line.valid then some line else none

/-- No handle id is valid in both levels, and none is listed twice. -/
structure Exclusive (h : Htlb) : Prop where
  apart : ∀ hid, ¬ (h.l1.Cached hid ∧ h.l2.Cached hid)
  dumped : h.dumpedIds.Nodup

/-- The line an access evicts is in L2 afterwards. -/
def Saves (h : Htlb) (op : HtlbOp) (h' : Htlb) : Prop :=
  match op with
  | .access m _ _ => ∀ line, h.victim m = some line →
      ∃ way < h'.l2.numSets, ∃ saved ∈ h'.l2.sets way,
        saved.valid = true ∧ saved.hid = line.hid ∧ saved.addr = line.addr
  | _ => True

/-- Every state and every step of a run is as the exclusive policy demands. -/
def Conforms : Htlb → List HtlbOp → Prop
  | h, [] => h.Exclusive
  | h, op :: ops => h.Exclusive ∧ ∀ h', h.next op = some h' → h.Saves op h' ∧ Conforms h' ops

/-- The operation accesses a mapping that is in use. -/
def UsesMapping : HtlbOp → Prop
  | .access _ word _ => word.isFree = false
  | _ => False

/-! ## Levels without a valid line -/

/-- A level of the right shape without a valid line. -/
structure Blank (l : Level) : Prop where
  exclusive : l.policy = .exclusive
  sets_pos : 0 < l.numSets
  ways : ∀ way, 0 < (l.sets way).length
  invalid : ∀ way, ∀ line ∈ l.sets way, line.valid = false

namespace Blank

variable {l : Level} {h h' : Htlb} {hid m : Nat} {word : Mapping} {entry : HtlbEntry}

theorem create {numSets numWays : Nat} (garbage : Nat → Nat → Nat × Bool)
    (sets_pos : 0 < numSets) (ways_pos : 0 < numWays) :
    Blank (Level.create numSets numWays .exclusive garbage) where
  exclusive := rfl
  sets_pos := sets_pos
  ways := by simpa [Level.create] using ways_pos
  invalid := by
    intro way line member
    simp only [Level.create, List.mem_map] at member
    rcases member with ⟨index, _, rfl⟩
    rfl

theorem not_cached (blank : Blank l) (hid : Nat) : ¬ l.Cached hid := by
  rintro ⟨way, _, line, member, valid, _⟩
  rw [blank.invalid way line member] at valid
  exact nomatch valid

theorem find_eq_none (blank : Blank l) (hid : Nat) : l.find hid = none := by
  simp only [find, List.findIdx?_eq_none_iff]
  intro line member
  simp [blank.invalid _ line member]

theorem tick (blank : Blank l) : Blank l.tick :=
  ⟨blank.exclusive, blank.sets_pos, blank.ways, blank.invalid⟩

theorem resetLine (blank : Blank l) (way index : Nat) (invalid : entry.valid = false) :
    Blank (l.resetLine way index entry) where
  exclusive := blank.exclusive
  sets_pos := blank.sets_pos
  ways := by
    intro other
    by_cases equal : other = way
    · subst equal
      simpa [Level.resetLine] using blank.ways other
    · simpa [Level.resetLine, equal] using blank.ways other
  invalid := by
    intro other line member
    by_cases equal : other = way
    · subst equal
      simp only [Level.resetLine, Function.update_self] at member
      rcases List.mem_or_eq_of_mem_set member with old | rfl
      · exact blank.invalid other line old
      · exact invalid
    · simp only [Level.resetLine, Function.update_of_ne equal] at member
      exact blank.invalid other line member

/-- Changing every line of a level without setting a valid bit. -/
theorem map (blank : Blank l) {change : HtlbEntry → HtlbEntry}
    (clears : ∀ line, line.valid = false → (change line).valid = false) :
    Blank { l with sets := fun way => (l.sets way).map change } where
  exclusive := blank.exclusive
  sets_pos := blank.sets_pos
  ways := by simpa using blank.ways
  invalid := by
    intro way line member
    rcases List.mem_map.mp member with ⟨old, oldMember, rfl⟩
    exact clears old (blank.invalid way old oldMember)

theorem oldestLine_lt {lines : List HtlbEntry} (pos : 0 < lines.length) :
    oldestLine lines < lines.length := by
  rw [oldestLine, List.findIdx_lt_length]
  have nonempty : lines.toFinset.Nonempty := by
    rw [List.toFinset_nonempty_iff]
    exact List.ne_nil_of_length_pos pos
  rcases lines.toFinset.exists_min_image HtlbEntry.lastUsed nonempty with ⟨line, member, least⟩
  refine ⟨line, List.mem_toFinset.mp member, ?_⟩
  simp only [List.all_eq_true, decide_eq_true_eq]
  exact fun other otherMember => least other (List.mem_toFinset.mpr otherMember)

/-- The line of a reset, which is what the set then holds there. -/
theorem line_resetLine {way index : Nat} (lt : index < (l.sets way).length) :
    (l.resetLine way index entry).line way index = entry := by
  simp [line, Level.resetLine, lt]

theorem cached_resetLine (blank : Blank l) {index : Nat}
    (lt : index < (l.sets (l.wayOf entry.hid)).length) (valid : entry.valid = true) :
    (l.resetLine (l.wayOf entry.hid) index entry).Cached entry.hid := by
  refine ⟨l.wayOf entry.hid, Nat.mod_lt _ blank.sets_pos, entry, ?_, valid, rfl⟩
  simp only [Level.resetLine, Function.update_self]
  exact List.mem_set lt entry

theorem filter_valid (blank : Blank l) :
    l.getAllEntriesSorted.filter HtlbEntry.valid = [] := by
  rw [List.filter_eq_nil_iff]
  intro line member
  simp only [getAllEntriesSorted, List.mem_flatMap, List.mem_mergeSort] at member
  rcases member with ⟨way, _, member⟩
  simp [blank.invalid way line member]

/-- An access to an unused mapping fetches an invalid line. -/
theorem pull (blank : Blank l) (m : Nat) (word : Mapping) :
    l.pull m word = (lookup m word, l.tick) := by
  simp only [Level.pull, blank.tick.find_eq_none]
  exact if_pos blank.exclusive

end Blank

/-! ## Runs -/

variable {h h' : Htlb} {op : HtlbOp} {ops : List HtlbOp} {m : Nat} {word : Mapping}

/-- Neither level has a valid line. -/
structure AllBlank (h : Htlb) : Prop where
  l1 : Blank h.l1
  l2 : Blank h.l2

namespace AllBlank

theorem exclusive (blank : AllBlank h) : h.Exclusive where
  apart := fun hid both => blank.l1.not_cached hid both.1
  dumped := by
    have nothing : h.dumpedIds = [] := by
      simp only [dumpedIds, List.filter_append, blank.l1.filter_valid, blank.l2.filter_valid]
      rfl
    rw [nothing]
    exact List.nodup_nil

theorem victim_eq_none (blank : AllBlank h) (m : Nat) : h.victim m = none := by
  have lt := Blank.oldestLine_lt (blank.l1.ways (h.l1.wayOf (Mapping.handleId m)))
  simp only [victim, blank.l1.find_eq_none]
  rw [if_neg]
  have member : h.l1.line (h.l1.wayOf (Mapping.handleId m)) (oldestLine (h.l1.sets
      (h.l1.wayOf (Mapping.handleId m)))) ∈ h.l1.sets (h.l1.wayOf (Mapping.handleId m)) := by
    simp only [line, List.getD_eq_getElem?_getD, List.getElem?_eq_getElem lt, Option.getD_some]
    exact List.getElem_mem lt
  simp [blank.l1.invalid _ _ member]

/-- The new line of an access to `m` when nothing is cached. -/
def fetched (h : Htlb) (m : Nat) (word : Mapping) : HtlbEntry :=
  { lookup m word with lastUsed := h.l1.tick.time }

/-- Where an access puts the new line in a level. -/
def filled (l : Level) (entry : HtlbEntry) : Level :=
  l.resetLine (l.wayOf entry.hid) (oldestLine (l.sets (l.wayOf entry.hid))) entry

/-- An access when nothing is cached: a valid line goes to both levels. -/
theorem access_eq (blank : AllBlank h) (m : Nat) (word : Mapping) :
    ∃ address, h.access m word = some (address,
      if word.isFree then ⟨filled h.l1.tick (fetched h m word), h.l2.tick⟩
      else ⟨filled h.l1.tick (fetched h m word), filled h.l2.tick (fetched h m word)⟩) := by
  have line : ∀ entry, (h.l1.tick.resetLine (h.l1.tick.wayOf (Mapping.handleId m))
      (oldestLine (h.l1.tick.sets (h.l1.tick.wayOf (Mapping.handleId m)))) entry).line
        (h.l1.tick.wayOf (Mapping.handleId m))
        (oldestLine (h.l1.tick.sets (h.l1.tick.wayOf (Mapping.handleId m)))) = entry :=
    fun entry => Blank.line_resetLine (Blank.oldestLine_lt (blank.l1.tick.ways _))
  refine ⟨word.getPointer, ?_⟩
  simp only [Htlb.access, blank.l1.tick.find_eq_none, blank.l2.pull, line]
  cases free : word.isFree with
  | true =>
      rw [if_neg]
      · rfl
      · simp [lookup, free]
  | false =>
      rw [if_pos]
      · simp only [Level.insert, blank.l2.tick.find_eq_none]
        rfl
      · exact ⟨blank.l1.exclusive, by simp [lookup, free]⟩

/-- Operations that access no mapping in use keep both levels blank. -/
theorem step (blank : AllBlank h) (unused : ¬ UsesMapping op) (stepped : h.next op = some h') :
    AllBlank h' := by
  cases op with
  | access m word offset =>
      rcases blank.access_eq m word with ⟨address, result⟩
      have free : word.isFree = true := by simpa [UsesMapping] using unused
      simp only [Htlb.next, result, free, if_true, Option.map_some, Option.some.injEq] at stepped
      subst stepped
      refine ⟨blank.l1.tick.resetLine _ _ ?_, blank.l2.tick⟩
      simp [fetched, lookup, free]
  | invalidateHtlb m =>
      obtain rfl := Option.some.inj stepped
      have clears : ∀ line : HtlbEntry, line.valid = false →
          (invalidateLine m line).valid = false := by
        intro line invalid
        simp only [invalidateLine]
        split
        · rfl
        · exact invalid
      exact ⟨blank.l1.map clears, blank.l2.map clears⟩
  | reset =>
      obtain rfl := Option.some.inj stepped
      exact ⟨blank.l1.map fun _ _ => rfl, blank.l2.map fun _ _ => rfl⟩

/-- The first access to a mapping in use puts its line into both levels. -/
theorem not_exclusive (blank : AllBlank h) (used : UsesMapping op) (step : h.next op = some h') :
    ¬ h'.Exclusive := by
  cases op with
  | access m word offset =>
      have inUse : word.isFree = false := used
      rcases blank.access_eq m word with ⟨address, result⟩
      simp only [Htlb.next, result, inUse, Option.map_some, Option.some.injEq] at step
      subst step
      intro exclusive
      have valid : (fetched h m word).valid = true := by simp [fetched, lookup, inUse]
      refine exclusive.apart (fetched h m word).hid ⟨?_, ?_⟩
      · exact blank.l1.tick.cached_resetLine (Blank.oldestLine_lt (blank.l1.tick.ways _)) valid
      · exact blank.l2.tick.cached_resetLine (Blank.oldestLine_lt (blank.l2.tick.ways _)) valid
  | invalidateHtlb m => exact used.elim
  | reset => exact used.elim

end AllBlank

theorem Conforms.exclusive (conforms : Conforms h ops) : h.Exclusive := by
  cases ops with
  | nil => exact conforms
  | cons op ops => exact conforms.1

/-- A run from blank levels conforms exactly when it accesses no mapping in use. -/
theorem AllBlank.conforms_iff (blank : AllBlank h) (run : Run (ofFunction next) h ops h') :
    Conforms h ops ↔ ∀ op ∈ ops, ¬ UsesMapping op := by
  induction run with
  | nil h => simpa [Conforms] using blank.exclusive
  | @cons h middle h' op ops head tail ih =>
      by_cases used : UsesMapping op
      · refine iff_of_false (fun conforms => ?_) (fun unused => ?_)
        · exact blank.not_exclusive used head (conforms.2 middle head).2.exclusive
        · exact unused op List.mem_cons_self used
      · have rest := ih (blank.step used head)
        constructor
        · intro conforms other member
          rcases List.mem_cons.mp member with rfl | member
          · exact used
          · exact rest.mp (conforms.2 middle head).2 other member
        · intro unused
          refine ⟨blank.exclusive, fun after step => ?_⟩
          obtain rfl := Option.some.inj (head.symm.trans step)
          refine ⟨?_, rest.mpr fun other member => unused other (List.mem_cons_of_mem _ member)⟩
          cases op with
          | access m word offset =>
              intro line evicted
              rw [blank.victim_eq_none] at evicted
              exact nomatch evicted
          | invalidateHtlb m => trivial
          | reset => trivial

/--
Under the exclusive policy, a run of the simulator keeps the levels apart and saves its
victims exactly when it never accesses a mapping in use.
-/
theorem conforms_iff_unused {l1Sets l1Ways l2Sets l2Ways : Nat}
    (l1Sets_pos : 0 < l1Sets) (l1Ways_pos : 0 < l1Ways) (l2Sets_pos : 0 < l2Sets)
    (l2Ways_pos : 0 < l2Ways) (garbage1 garbage2 : Nat → Nat → Nat × Bool)
    (run : Run (ofFunction next) (empty l1Sets l1Ways l2Sets l2Ways garbage1 garbage2) ops h') :
    Conforms (empty l1Sets l1Ways l2Sets l2Ways garbage1 garbage2) ops ↔
      ∀ op ∈ ops, ¬ UsesMapping op :=
  AllBlank.conforms_iff ⟨.create garbage1 l1Sets_pos l1Ways_pos, .create garbage2 l2Sets_pos l2Ways_pos⟩
    run

/-- Two accesses to the first mapping of the table. -/
def twoAccesses : List HtlbOp :=
  [.access (2 ^ 42) (Mapping.ofPtr 4096) 0, .access (2 ^ 42) (Mapping.ofPtr 4096) 8]

theorem twoAccesses_allowed :
    (replay next (empty 1 1 1 1 (fun _ _ => (0, false)) fun _ _ => (0, false))
      twoAccesses).isSome = true := by
  decide +kernel

theorem conforms_iff_twoAccesses :
    Conforms (empty 1 1 1 1 (fun _ _ => (0, false)) fun _ _ => (0, false)) twoAccesses ↔
      ∀ op ∈ twoAccesses, ¬ UsesMapping op :=
  conforms_iff_unused (by decide) (by decide) (by decide) (by decide) _ _
    (run_of_replay (Option.some_get twoAccesses_allowed).symm)

/-- One access to the first mapping of the table. -/
theorem oneAccess_allowed :
    (replay next (empty 1 1 1 1 (fun _ _ => (0, false)) fun _ _ => (0, false))
      [.access (2 ^ 42) (Mapping.ofPtr 4096) 0]).isSome = true := by
  decide +kernel

/-- After a single access the line is valid in both levels. -/
theorem not_exclusive_oneAccess :
    ¬ ∀ l1Sets l1Ways l2Sets l2Ways garbage1 garbage2 ops t,
      0 < l1Sets → 0 < l1Ways → 0 < l2Sets → 0 < l2Ways →
      Run (ofFunction next) (empty l1Sets l1Ways l2Sets l2Ways garbage1 garbage2) ops t →
      ∀ hid, ¬ (t.l1.Cached hid ∧ t.l2.Cached hid) := by
  intro claim
  have apart := claim 1 1 1 1 (fun _ _ => (0, false)) (fun _ _ => (0, false)) _ _
    (by decide) (by decide) (by decide) (by decide)
    (run_of_replay (Option.some_get oneAccess_allowed).symm) (Mapping.handleId (2 ^ 42))
  refine apart ⟨⟨0, by decide +kernel, ?_⟩, ⟨0, by decide +kernel, ?_⟩⟩
  · exact ⟨⟨Mapping.handleId (2 ^ 42), 4096, false, true, 1, false⟩, by decide +kernel, rfl, rfl⟩
  · exact ⟨⟨Mapping.handleId (2 ^ 42), 4096, false, true, 1, false⟩, by decide +kernel, rfl, rfl⟩

end Htlb

end Sim

end Alaska
