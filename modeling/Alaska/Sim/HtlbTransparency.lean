import Alaska.Sim.Htlb

/-!
# Transparency of the HTLB

An access through the two levels returns what the word of the mapping holds, as long as a
mapping whose word has changed is invalidated before it is accessed again. This holds for
both inclusion policies and every number of sets and ways: a level holds a handle id at most
once, in the set it belongs to, with the pointer its mapping had when it was last settled.
-/

namespace Alaska

namespace Sim

open Level

/-- The mappings of the handle table. -/
abbrev TableMapping := { m : Nat // Mapping.InTable m }

theorem handleId_injective {m other : TableMapping}
    (same : Mapping.handleId m = Mapping.handleId other) : m = other := by
  rcases m with ⟨m, lower, upper, aligned⟩
  rcases other with ⟨other, lower', upper', aligned'⟩
  simp only [Mapping.handleId, Mapping.encode, sizeBits, squeezeBits] at same
  apply Subtype.ext
  show m = other
  omega

/-- What happens to the simulator and to the words of the mappings. -/
inductive TranslationOp where
  | access (m : TableMapping) (offset : Nat)
  | invalidateHtlb (m : TableMapping)
  | reset
  /-- The program stores another word to a mapping. -/
  | change (m : TableMapping) (word : Mapping)

namespace Htlb

/-- The constructor. -/
def create (l1Sets l1Ways l2Sets l2Ways : Nat) (policy : CacheInclusionPolicy)
    (garbage1 garbage2 : Nat → Nat → Nat × Bool) : Htlb where
  l1 := Level.create l1Sets l1Ways policy garbage1
  l2 := Level.create l2Sets l2Ways policy garbage2

/-- Runs the simulator; the addresses of the responses, unless an assertion fails. -/
def translate : (TableMapping → Mapping) → Htlb → List TranslationOp → Option (List Nat × Htlb)
  | _, h, [] => some ([], h)
  | words, h, .access m _ :: ops => do
      let (addr, h) ← h.access m (words m)
      let (addrs, h) ← translate words h ops
      some (addr :: addrs, h)
  | words, h, .invalidateHtlb m :: ops =>
      translate words ⟨h.l1.invalidate m, h.l2.invalidate m⟩ ops
  | words, h, .reset :: ops => translate words ⟨h.l1.invalidateAllL1, h.l2.invalidateAll⟩ ops
  | words, h, .change m word :: ops => translate (Function.update words m word) h ops

end Htlb

/-- The pointers the mappings hold when they are accessed. -/
def currentPointers : (TableMapping → Mapping) → List TranslationOp → List Nat
  | _, [] => []
  | words, .access m _ :: ops => (words m).getPointer :: currentPointers words ops
  | words, .invalidateHtlb _ :: ops => currentPointers words ops
  | words, .reset :: ops => currentPointers words ops
  | words, .change m word :: ops => currentPointers (Function.update words m word) ops

/-- No mapping is accessed between a change of its word and its invalidation. -/
def Settled : (changed : TableMapping → Bool) → List TranslationOp → Prop
  | _, [] => True
  | changed, .access m _ :: ops => changed m = false ∧ Settled changed ops
  | changed, .invalidateHtlb m :: ops => Settled (Function.update changed m false) ops
  | _, .reset :: ops => Settled (fun _ => false) ops
  | changed, .change m _ :: ops => Settled (Function.update changed m true) ops

/-- No handle id is valid in two lines of a level. -/
def Level.ValidOnce (l : Level) : Prop :=
  ∀ way way' index index', (l.line way index).valid = true → (l.line way' index').valid = true →
    (l.line way index).hid = (l.line way' index').hid → way = way' ∧ index = index'

/-! ## Coherent levels -/

/--
Every valid line is in the set of its handle id, the only one with it there, and holds the
pointer of its mapping unless that has changed.
-/
structure Coherent (words : TableMapping → Mapping) (changed : TableMapping → Bool) (l : Level) :
    Prop where
  sets_pos : 0 < l.numSets
  ways_pos : ∀ way, 0 < (l.sets way).length
  placed : ∀ way, ∀ line ∈ l.sets way, line.valid = true → l.wayOf line.hid = way
  distinct : ∀ way, (l.sets way).Pairwise fun line other =>
    line.valid = true → other.valid = true → line.hid ≠ other.hid
  current : ∀ way, ∀ line ∈ l.sets way, line.valid = true →
    ∀ m : TableMapping, changed m = false → Mapping.handleId m = line.hid →
      line.addr = (words m).getPointer

namespace Coherent

variable {words words' : TableMapping → Mapping} {changed changed' : TableMapping → Bool}
  {l : Level} {m : TableMapping} {hid way index : Nat} {entry line : HtlbEntry}

theorem create {numSets numWays : Nat} {policy : CacheInclusionPolicy}
    (garbage : Nat → Nat → Nat × Bool) (sets_pos : 0 < numSets) (ways_pos : 0 < numWays) :
    Coherent words changed (Level.create numSets numWays policy garbage) := by
  have invalid : ∀ way, ∀ line ∈ (Level.create numSets numWays policy garbage).sets way,
      line.valid = false := by
    intro way line member
    simp only [Level.create, List.mem_map] at member
    rcases member with ⟨index, _, rfl⟩
    rfl
  refine ⟨sets_pos, by simpa [Level.create] using ways_pos, ?_, ?_, ?_⟩
  · intro way line member valid
    simp [invalid way line member] at valid
  · intro way
    apply List.pairwise_of_forall_mem_list
    intro line member _ _ valid
    simp [invalid way line member] at valid
  · intro way line member valid
    simp [invalid way line member] at valid

theorem tick (coherent : Coherent words changed l) : Coherent words changed l.tick :=
  ⟨coherent.sets_pos, coherent.ways_pos, coherent.placed, coherent.distinct, coherent.current⟩

/-- A line that is found is a valid line of the handle id. -/
theorem find_some (found : l.find hid = some index) :
    ∃ lt : index < (l.sets (l.wayOf hid)).length,
      l.line (l.wayOf hid) index = (l.sets (l.wayOf hid))[index] ∧
      (l.line (l.wayOf hid) index).valid = true ∧ (l.line (l.wayOf hid) index).hid = hid := by
  rw [find, List.findIdx?_eq_some_iff_getElem] at found
  rcases found with ⟨lt, isLine, _⟩
  have same : l.line (l.wayOf hid) index = (l.sets (l.wayOf hid))[index] := by
    simp [Level.line, lt]
  rw [same]
  simp only [Bool.and_eq_true, beq_iff_eq] at isLine
  exact ⟨lt, rfl, isLine.2, isLine.1⟩

theorem find_none (missing : l.find hid = none) :
    ∀ line ∈ l.sets (l.wayOf hid), line.valid = true → line.hid ≠ hid := by
  rw [find, List.findIdx?_eq_none_iff] at missing
  intro line member valid same
  have := missing line member
  simp [valid, same] at this

theorem find_eq_none (none_ : ∀ line ∈ l.sets (l.wayOf hid), line.valid = true → line.hid ≠ hid) :
    l.find hid = none := by
  rw [find, List.findIdx?_eq_none_iff]
  intro line member
  cases valid : line.valid with
  | false => simp
  | true => simp [none_ line member valid]

/-- Replacing a line keeps a level coherent if no other line of the set has the new id. -/
theorem resetLine (coherent : Coherent words changed l) (lt : index < (l.sets way).length)
    (placed : entry.valid = true → l.wayOf entry.hid = way)
    (alone : entry.valid = true → ∀ other (bound : other < (l.sets way).length), other ≠ index →
      (l.sets way)[other].valid = true → (l.sets way)[other].hid ≠ entry.hid)
    (current : entry.valid = true → ∀ m : TableMapping, changed m = false →
      Mapping.handleId m = entry.hid → entry.addr = (words m).getPointer) :
    Coherent words changed (l.resetLine way index entry) := by
  have sets : ∀ other, (l.resetLine way index entry).sets other =
      if other = way then (l.sets way).set index entry else l.sets other := by
    intro other
    by_cases same : other = way
    · subst same
      simp [Level.resetLine]
    · simp [Level.resetLine, same]
  refine ⟨coherent.sets_pos, ?_, ?_, ?_, ?_⟩
  · intro other
    rw [sets]
    split
    · simpa using coherent.ways_pos way
    · exact coherent.ways_pos other
  · intro other line member valid
    rw [sets] at member
    split at member
    · next same =>
        subst same
        rcases List.mem_or_eq_of_mem_set member with old | rfl
        · exact coherent.placed other line old valid
        · exact placed valid
    · exact coherent.placed other line member valid
  · intro other
    rw [sets]
    split
    · have distinct := List.pairwise_iff_getElem.mp (coherent.distinct way)
      apply List.pairwise_iff_getElem.mpr
      intro i j iLt jLt less
      rw [List.length_set] at iLt jLt
      rw [List.getElem_set, List.getElem_set]
      intro valid valid'
      by_cases iSame : index = i
      · have jNe : index ≠ j := by omega
        simp only [iSame, if_true, if_neg (iSame ▸ jNe)] at valid valid' ⊢
        exact Ne.symm (alone valid j jLt (by omega) valid')
      · by_cases jSame : index = j
        · simp only [jSame, if_true, if_neg (jSame ▸ iSame)] at valid valid' ⊢
          exact alone valid' i iLt (by omega) valid
        · simp only [if_neg iSame, if_neg jSame] at valid valid' ⊢
          exact distinct i j iLt jLt less valid valid'
    · exact coherent.distinct other
  · intro other line member valid
    rw [sets] at member
    split at member
    · rcases List.mem_or_eq_of_mem_set member with old | rfl
      · exact coherent.current way line old valid
      · exact current valid
    · exact coherent.current other line member valid

/-- Changes that keep the id and the pointer of every line that stays valid. -/
theorem map (coherent : Coherent words changed l) {change : HtlbEntry → HtlbEntry}
    (keeps : ∀ line, (change line).valid = true →
      line.valid = true ∧ (change line).hid = line.hid ∧ (change line).addr = line.addr)
    (settles : ∀ way, ∀ line ∈ l.sets way, (change line).valid = true → ∀ m : TableMapping,
      changed' m = false → Mapping.handleId m = line.hid → changed m = false) :
    Coherent words changed' { l with sets := fun way => (l.sets way).map change } := by
  refine ⟨coherent.sets_pos, by simpa using coherent.ways_pos, ?_, ?_, ?_⟩
  · intro way line member valid
    rcases List.mem_map.mp member with ⟨old, oldMember, rfl⟩
    rcases keeps old valid with ⟨oldValid, sameHid, _⟩
    rw [sameHid]
    exact coherent.placed way old oldMember oldValid
  · intro way
    apply List.pairwise_map.mpr
    apply (coherent.distinct way).imp
    intro line other distinct valid valid'
    rw [(keeps line valid).2.1, (keeps other valid').2.1]
    exact distinct (keeps line valid).1 (keeps other valid').1
  · intro way line member valid m settled sameId
    rcases List.mem_map.mp member with ⟨old, oldMember, rfl⟩
    rcases keeps old valid with ⟨oldValid, sameHid, sameAddr⟩
    rw [sameHid] at sameId
    rw [sameAddr]
    exact coherent.current way old oldMember oldValid m
      (settles way old oldMember valid m settled sameId) sameId

theorem invalidate (coherent : Coherent words changed l) :
    Coherent words (Function.update changed m false) (l.invalidate m) := by
  have kept : ∀ line : HtlbEntry, (invalidateLine m line).valid = true →
      line.hid ≠ Mapping.handleId m ∧ invalidateLine m line = line := by
    intro line valid
    unfold invalidateLine at valid ⊢
    split at valid
    · simp at valid
    · next other => exact ⟨other, if_neg other⟩
  apply coherent.map
  · intro line valid
    have same := (kept line valid).2
    rw [same] at valid ⊢
    exact ⟨valid, rfl, rfl⟩
  · intro way line _ valid other settled sameId
    have different : other ≠ m := by
      rintro rfl
      exact (kept line valid).1 sameId.symm
    rwa [Function.update_of_ne different] at settled

/-- Nothing is valid after a reset. -/
theorem invalidateAll (coherent : Coherent words changed l) :
    Coherent words changed' l.invalidateAll := by
  apply coherent.map
  · intro line valid
    simp at valid
  · intro way line _ valid
    simp at valid

theorem invalidateAllL1 (coherent : Coherent words changed l) :
    Coherent words changed' l.invalidateAllL1 := by
  apply coherent.map
  · intro line valid
    simp at valid
  · intro way line _ valid
    simp at valid

theorem change (coherent : Coherent words changed l) (word : Mapping) :
    Coherent (Function.update words m word) (Function.update changed m true) l := by
  refine ⟨coherent.sets_pos, coherent.ways_pos, coherent.placed, coherent.distinct, ?_⟩
  intro way line member valid other settled sameId
  have different : other ≠ m := by
    rintro rfl
    simp at settled
  rw [Function.update_of_ne different] at settled ⊢
  exact coherent.current way line member valid other settled sameId

/-- A new line in place of the oldest one of a set that does not have its id. -/
theorem replaceOldest (coherent : Coherent words changed l)
    (missing : l.find (Mapping.handleId m) = none) (sameId : entry.hid = Mapping.handleId m)
    (current : entry.addr = (words m).getPointer) :
    Coherent words changed (l.resetLine (l.wayOf (Mapping.handleId m))
      (oldestLine (l.sets (l.wayOf (Mapping.handleId m)))) entry) := by
  apply coherent.resetLine (Htlb.Blank.oldestLine_lt (coherent.ways_pos _))
  · exact fun _ => by rw [sameId]
  · intro _ other bound _ valid
    rw [sameId]
    exact find_none missing _ (List.getElem_mem bound) valid
  · intro _ other _ otherId
    obtain rfl := handleId_injective (otherId.trans sameId)
    exact current

/-- No other line of the set has the id of the line that is found. -/
theorem other_hid_ne (coherent : Coherent words changed l) (found : l.find hid = some index)
    {other : Nat} (bound : other < (l.sets (l.wayOf hid)).length) (different : other ≠ index)
    (valid : (l.sets (l.wayOf hid))[other].valid = true) :
    (l.sets (l.wayOf hid))[other].hid ≠ hid := by
  rcases find_some found with ⟨lt, isLine, lineValid, isHid⟩
  rw [isLine] at lineValid isHid
  intro same
  have distinct := List.pairwise_iff_getElem.mp (coherent.distinct (l.wayOf hid))
  rcases Nat.lt_or_gt_of_ne different with less | greater
  · exact distinct other index bound lt less valid lineValid (same.trans isHid.symm)
  · exact distinct index other lt bound greater lineValid valid (isHid.trans same.symm)

/-- A found line may be aged or invalidated. -/
theorem resetFound (coherent : Coherent words changed l) (found : l.find hid = some index)
    (sameId : entry.hid = hid) (same : entry.addr = (l.line (l.wayOf hid) index).addr) :
    Coherent words changed (l.resetLine (l.wayOf hid) index entry) := by
  rcases find_some found with ⟨lt, isLine, valid, isHid⟩
  have member : l.line (l.wayOf hid) index ∈ l.sets (l.wayOf hid) := by
    rw [isLine]
    exact List.getElem_mem lt
  apply coherent.resetLine lt
  · exact fun _ => by rw [sameId]
  · intro _ other bound different otherValid
    exact sameId.symm ▸ coherent.other_hid_ne found bound different otherValid
  · intro _ m settled otherId
    rw [same]
    exact coherent.current _ _ member valid m settled (by rw [otherId, sameId, isHid])

/-- An invalidated line is gone. -/
theorem find_invalidated (coherent : Coherent words changed l) (found : l.find hid = some index)
    (invalid : entry.valid = false) :
    (l.resetLine (l.wayOf hid) index entry).find hid = none := by
  apply find_eq_none
  intro line member lineValid
  have member' : line ∈ (l.sets (l.wayOf hid)).set index entry := by
    simpa [Level.resetLine, wayOf] using member
  rcases List.mem_iff_getElem.mp member' with ⟨other, bound, rfl⟩
  rw [List.length_set] at bound
  rw [List.getElem_set] at lineValid ⊢
  split at lineValid
  · simp [invalid] at lineValid
  · next different =>
      rw [if_neg different]
      exact coherent.other_hid_ne found bound (Ne.symm different) lineValid

/-- The line that is found has the current pointer of a settled mapping. -/
theorem addr_of_found (coherent : Coherent words changed l) (settled : changed m = false)
    (found : l.find (Mapping.handleId m) = some index) :
    (l.line (l.wayOf (Mapping.handleId m)) index).addr = (words m).getPointer := by
  rcases find_some found with ⟨lt, isLine, valid, isHid⟩
  apply coherent.current (l.wayOf (Mapping.handleId m)) _ _ valid m settled isHid.symm
  rw [isLine]
  exact List.getElem_mem lt

/-- `pull` returns the current pointer, and leaves no line of the id under the exclusive policy. -/
theorem pull (coherent : Coherent words changed l) (settled : changed m = false) :
    (l.pull m (words m)).1.hid = Mapping.handleId m ∧
      (l.pull m (words m)).1.addr = (words m).getPointer ∧
      Coherent words changed (l.pull m (words m)).2 ∧
      (l.pull m (words m)).2.policy = l.policy ∧
      (l.policy = .exclusive → (l.pull m (words m)).2.find (Mapping.handleId m) = none) := by
  have ticked := coherent.tick
  have policy : l.tick.policy = l.policy := rfl
  unfold Level.pull
  dsimp only
  cases found : l.tick.find (Mapping.handleId m) with
  | some index =>
      rcases find_some found with ⟨_, _, _, isHid⟩
      have addr := ticked.addr_of_found settled found
      dsimp only
      split
      · refine ⟨isHid, addr, ticked.resetFound found isHid rfl, rfl, fun _ => ?_⟩
        exact ticked.find_invalidated found rfl
      · next inclusive =>
          refine ⟨isHid, addr, ticked.resetFound found isHid rfl, rfl, fun exclusive => ?_⟩
          exact absurd exclusive inclusive
  | none =>
      dsimp only
      split
      · exact ⟨rfl, rfl, ticked, rfl, fun _ => found⟩
      · next inclusive =>
          refine ⟨rfl, rfl, ticked.replaceOldest found rfl rfl, rfl, fun exclusive => ?_⟩
          exact absurd exclusive inclusive

/-- No id is valid twice in a coherent level. -/
theorem validOnce (coherent : Coherent words changed l) : l.ValidOnce := by
  have member : ∀ way index, (l.line way index).valid = true →
      ∃ lt : index < (l.sets way).length, l.line way index = (l.sets way)[index] := by
    intro way index valid
    by_cases lt : index < (l.sets way).length
    · exact ⟨lt, by simp [Level.line, lt]⟩
    · simp [Level.line, lt] at valid
  intro way way' index index' valid valid' same
  rcases member way index valid with ⟨lt, isLine⟩
  rcases member way' index' valid' with ⟨lt', isLine'⟩
  rw [isLine] at valid same
  rw [isLine'] at valid' same
  have sameWay : way = way' := by
    rw [← coherent.placed way _ (List.getElem_mem lt) valid,
      ← coherent.placed way' _ (List.getElem_mem lt') valid', same]
  subst sameWay
  refine ⟨rfl, ?_⟩
  by_contra different
  have distinct := List.pairwise_iff_getElem.mp (coherent.distinct way)
  rcases Nat.lt_or_gt_of_ne different with less | greater
  · exact distinct index index' lt lt' less valid valid' same
  · exact distinct index' index lt' lt greater valid' valid same.symm

end Coherent

/-! ## Transparency -/

namespace Htlb

variable {words : TableMapping → Mapping} {changed : TableMapping → Bool} {h : Htlb}
  {m : TableMapping} {ops : List TranslationOp}

/-- Both levels are coherent and follow the same policy. -/
structure AllCoherent (words : TableMapping → Mapping) (changed : TableMapping → Bool) (h : Htlb) :
    Prop where
  l1 : Coherent words changed h.l1
  l2 : Coherent words changed h.l2
  policy : h.l1.policy = h.l2.policy

theorem access_hit {m : Nat} {word : Mapping} {index : Nat}
    (found : h.l1.tick.find (Mapping.handleId m) = some index) :
    h.access m word =
      some ((h.l1.tick.line (h.l1.tick.wayOf (Mapping.handleId m)) index).addr,
        { h with
          l1 := h.l1.tick.resetLine (h.l1.tick.wayOf (Mapping.handleId m)) index
            { h.l1.tick.line (h.l1.tick.wayOf (Mapping.handleId m)) index with
              lastUsed := h.l1.tick.time } }) := by
  simp [Htlb.access, found]

/-- The line an access takes from L2. -/
def pulled (h : Htlb) (m : Nat) (word : Mapping) : HtlbEntry :=
  { (h.l2.pull m word).1 with lastUsed := h.l1.tick.time }

/-- L1 with a line in place of the oldest one of the set of a mapping. -/
def refilled (h : Htlb) (m : Nat) (entry : HtlbEntry) : Level :=
  h.l1.tick.resetLine (h.l1.tick.wayOf (Mapping.handleId m))
    (oldestLine (h.l1.tick.sets (h.l1.tick.wayOf (Mapping.handleId m)))) entry

theorem access_miss {m : Nat} {word : Mapping}
    (missing : h.l1.tick.find (Mapping.handleId m) = none)
    (ways_pos : ∀ way, 0 < (h.l1.tick.sets way).length) :
    h.access m word =
      if h.l1.policy = .exclusive ∧ (h.pulled m word).valid then
        ((h.l2.pull m word).2.insert (h.pulled m word)).map fun l2 =>
          ((h.pulled m word).addr, ⟨h.refilled m (h.pulled m word), l2⟩)
      else
        some ((h.pulled m word).addr,
          ⟨h.refilled m (h.pulled m word), (h.l2.pull m word).2⟩) := by
  have line := @Blank.line_resetLine _ (h.pulled m word) _ _
    (Blank.oldestLine_lt (ways_pos (h.l1.tick.wayOf (Mapping.handleId m))))
  unfold pulled at line
  simp only [Htlb.access, missing, line, Option.bind_eq_bind]
  change (if h.l1.policy = .exclusive ∧ (h.pulled m word).valid then _ else _) = _
  split
  · rw [Option.map_eq_bind]
    rfl
  · rfl

/-- An access to a settled mapping returns its pointer, and no assertion fails. -/
theorem AllCoherent.access (coherent : AllCoherent words changed h) (settled : changed m = false) :
    ∃ h', h.access m (words m) = some ((words m).getPointer, h') ∧
      AllCoherent words changed h' := by
  have ticked := coherent.l1.tick
  cases found : h.l1.tick.find (Mapping.handleId m) with
  | some index =>
      rcases Coherent.find_some found with ⟨_, _, _, isHid⟩
      rw [access_hit found, ticked.addr_of_found settled found]
      exact ⟨_, rfl, ticked.resetFound found isHid rfl, coherent.l2, coherent.policy⟩
  | none =>
      rcases coherent.l2.pull settled with ⟨sameId, sameAddr, kept, policy, gone⟩
      have filled : Coherent words changed (h.refilled m (h.pulled m (words m))) :=
        ticked.replaceOldest found sameId sameAddr
      have pulledAddr : (h.pulled m (words m)).addr = (words m).getPointer := sameAddr
      rw [access_miss found ticked.ways_pos, pulledAddr]
      split
      · next exclusive =>
          -- the line has left L2, so the assertion of `insert` holds
          have missing := gone (coherent.policy ▸ exclusive.1)
          have pulledId : (h.pulled m (words m)).hid = Mapping.handleId m := sameId
          simp only [Level.insert, pulledId, missing, Option.map_some]
          exact ⟨_, rfl, filled, kept.replaceOldest missing sameId sameAddr,
            coherent.policy.trans policy.symm⟩
      · exact ⟨_, rfl, filled, kept, coherent.policy.trans policy.symm⟩

theorem AllCoherent.translate (coherent : AllCoherent words changed h)
    (settled : Settled changed ops) :
    ∃ h', translate words h ops = some (currentPointers words ops, h') ∧
      h'.l1.ValidOnce ∧ h'.l2.ValidOnce := by
  induction ops generalizing words changed h with
  | nil => exact ⟨h, rfl, coherent.l1.validOnce, coherent.l2.validOnce⟩
  | cons op ops ih =>
      cases op with
      | access m offset =>
          rcases coherent.access settled.1 with ⟨next, accessed, kept⟩
          rcases ih kept settled.2 with ⟨final, rest, once⟩
          refine ⟨final, ?_, once⟩
          simp [Htlb.translate, accessed, rest, currentPointers]
      | invalidateHtlb m =>
          exact ih ⟨coherent.l1.invalidate, coherent.l2.invalidate, coherent.policy⟩ settled
      | reset =>
          exact ih ⟨coherent.l1.invalidateAllL1, coherent.l2.invalidateAll, coherent.policy⟩ settled
      | change m word =>
          exact ih ⟨coherent.l1.change word, coherent.l2.change word, coherent.policy⟩ settled

/--
The HTLB is transparent: under either policy, every access returns the pointer its mapping
then holds if changed mappings are invalidated before they are accessed again. No assertion
fails, and at the end (so after every part of the run) no handle id is valid in two lines of
a level.
-/
theorem translate_eq_currentPointers {l1Sets l1Ways l2Sets l2Ways : Nat}
    (policy : CacheInclusionPolicy) (garbage1 garbage2 : Nat → Nat → Nat × Bool)
    (words : TableMapping → Mapping) (l1Sets_pos : 0 < l1Sets) (l1Ways_pos : 0 < l1Ways)
    (l2Sets_pos : 0 < l2Sets) (l2Ways_pos : 0 < l2Ways)
    (settled : Settled (fun _ => false) ops) :
    ∃ h', translate words (create l1Sets l1Ways l2Sets l2Ways policy garbage1 garbage2) ops =
        some (currentPointers words ops, h') ∧
      h'.l1.ValidOnce ∧ h'.l2.ValidOnce :=
  AllCoherent.translate ⟨.create garbage1 l1Sets_pos l1Ways_pos,
    .create garbage2 l2Sets_pos l2Ways_pos, rfl⟩ settled

/-- The first mapping of the table. -/
def firstMapping : TableMapping :=
  ⟨2 ^ 42, by decide, by decide, by decide⟩

/-- An object moves between two accesses. -/
def movedObject : List TranslationOp :=
  [.access firstMapping 0, .change firstMapping (Mapping.ofPtr 8192),
    .invalidateHtlb firstMapping, .access firstMapping 8]

theorem translate_movedObject :
    ∃ h', translate (fun _ => Mapping.ofPtr 4096)
        (create 1 1 1 1 .exclusive (fun _ _ => (0, false)) fun _ _ => (0, false)) movedObject =
          some ([4096, 8192], h') ∧
      h'.l1.ValidOnce ∧ h'.l2.ValidOnce :=
  @translate_eq_currentPointers movedObject 1 1 1 1 .exclusive _ _ (fun _ => Mapping.ofPtr 4096)
    (by decide) (by decide) (by decide) (by decide) ⟨rfl, by simp [Settled]⟩

end Htlb

end Sim

end Alaska
