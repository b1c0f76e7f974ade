import Alaska.Lib.Intervals
import Alaska.Runtime.Liballoc

/-!
# The search of the internal allocator

What a request does to the majors: it cuts a minor out of the first gap that the search
meets, and maps a new major exactly when no major has a gap that is large enough.
-/

namespace Alaska

open Memory Intervals

/-- The sizes for which no `unsigned int` of the allocator overflows. -/
def Liballoc.FitsMajor (reqSize : Nat) : Prop := reqSize + 4208 ≤ 2 ^ 32

instance (reqSize : Nat) : Decidable (Liballoc.FitsMajor reqSize) :=
  inferInstanceAs (Decidable (_ ≤ _))

theorem sub32_eq {a b : Nat} (le : b ≤ a) (small : a < 2 ^ 32) : sub32 a b = a - b := by
  unfold sub32
  omega

theorem sub64_eq {a b : Nat} (le : b ≤ a) (small : a < 2 ^ 64) : sub64 a b = a - b := by
  unfold sub64
  omega

theorem Liballoc.alignment_spec (p : Nat) : 16 ≤ alignment p ∧ alignment p < 32 ∧
    (p + alignment p) % 16 = 0 := by
  unfold alignment
  dsimp only
  split <;> omega

namespace LiballocMajor

/-- The minors of a list lie between two addresses in their order. -/
abbrev PackedMinors (lower upper : Nat) (minors : List LiballocMinor) : Prop :=
  Packed LiballocMinor.address endOf lower upper minors

/-- A window has room for a minor of `size` bytes. -/
abbrev GapFor (size lower upper : Nat) (minors : List LiballocMinor) : Prop :=
  Gap LiballocMinor.address endOf (size + LiballocMinor.bytes) lower upper minors

/-- What holds of a major between two operations, apart from the others. -/
structure Ok (maj : LiballocMajor) : Prop where
  size_eq : maj.size = 4096 * maj.pages
  small : maj.size < 2 ^ 32
  positive : 0 < maj.address
  below : maj.address + maj.size ≤ 2 ^ 47
  usage_eq : maj.usage = bytes + occupied LiballocMinor.address endOf maj.minors
  packed : PackedMinors (maj.address + bytes) (maj.address + maj.size) maj.minors
  room : ∀ min ∈ maj.minors, min.reqSize + 32 ≤ min.size

/-- Is there a gap in the major? -/
def HasGap (size : Nat) (maj : LiballocMajor) : Prop :=
  GapFor size (maj.address + bytes) (maj.address + maj.size) maj.minors

variable {maj maj' : LiballocMajor} {min : LiballocMinor} {minors minors' : List LiballocMinor}
  {reqSize lower limit : Nat}

theorem need_eq (fits : Liballoc.FitsMajor reqSize) : need (reqSize + 32) = reqSize + 72 := by
  unfold Liballoc.FitsMajor at fits
  rw [need, LiballocMinor.bytes]
  omega

/-- The free bytes between a minor and what is behind it. -/
theorem space_eq {upper : Nat} (le : endOf min ≤ upper) (below : upper ≤ 2 ^ 47) :
    sub64 (sub64 (sub64 upper min.address) LiballocMinor.bytes) min.size = upper - endOf min := by
  have ends : endOf min = min.address + LiballocMinor.bytes + min.size := rfl
  have first : sub64 upper min.address = upper - min.address := sub64_eq (by omega) (by omega)
  have second : sub64 (upper - min.address) LiballocMinor.bytes =
      upper - min.address - LiballocMinor.bytes := sub64_eq (by omega) (by omega)
  rw [first, second, sub64_eq (by omega) (by omega)]
  omega

theorem newMinor_eq {address : Nat} (fits : Liballoc.FitsMajor reqSize) :
    newMinor address (reqSize + 32) reqSize = ⟨address, reqSize + 32, reqSize⟩ := by
  unfold Liballoc.FitsMajor at fits
  rw [newMinor, Nat.mod_eq_of_lt (by omega), Nat.mod_eq_of_lt (by omega)]

theorem Ok.bounds (ok : maj.Ok) : bytes ≤ maj.usage ∧ maj.usage ≤ maj.size := by
  have := ok.packed.occupied_le
  rw [ok.usage_eq]
  omega

theorem Ok.available_eq (ok : maj.Ok) : maj.available = maj.size - maj.usage :=
  sub32_eq ok.bounds.2 ok.small

/-- Where a minor goes: into the list, and between its neighbours. -/
def Inserted (lower upper : Nat) (minors minors' : List LiballocMinor) (min : LiballocMinor) :
    Prop :=
  (∃ before after, minors = before ++ after ∧ minors' = before ++ min :: after) ∧
    PackedMinors lower upper minors'

/-- The loop along the minors finds the first gap behind one of them. -/
theorem placeAfter_spec (fits : Liballoc.FitsMajor reqSize) (below : limit ≤ 2 ^ 47)
    (packed : PackedMinors lower limit (min :: minors)) :
    (placeAfter limit (reqSize + 32) reqSize (min :: minors) = none ∧
        ¬ GapFor (reqSize + 32) (endOf min) limit minors) ∨
      ∃ minors' address, placeAfter limit (reqSize + 32) reqSize (min :: minors) =
          some (minors', ⟨address, reqSize + 32, reqSize⟩) ∧
        Inserted lower limit (min :: minors) minors' ⟨address, reqSize + 32, reqSize⟩ ∧
        GapFor (reqSize + 32) (endOf min) limit minors := by
  induction minors generalizing min lower with
  | nil =>
      rcases packed with ⟨le, ordered, last⟩
      have ends : endOf min = min.address + 40 + min.size := rfl
      have header : LiballocMinor.bytes = 40 := rfl
      have within : endOf min ≤ limit := last
      rw [placeAfter, need_eq fits, space_eq within below, newMinor_eq fits]
      by_cases enough : reqSize + 72 ≤ limit - endOf min
      · rw [if_pos enough]
        have gap : endOf min + (reqSize + 32 + LiballocMinor.bytes) ≤ limit := by omega
        refine Or.inr ⟨_, _, rfl, ⟨⟨[min], [], rfl, rfl⟩, le, ordered, ?_⟩, gap⟩
        refine ⟨Nat.le_refl _, ?_, ?_⟩
        · simp only [endOf]
          omega
        · change endOf min + LiballocMinor.bytes + (reqSize + 32) ≤ limit
          omega
      · rw [if_neg enough]
        refine Or.inl ⟨rfl, fun gap => ?_⟩
        change endOf min + (reqSize + 32 + LiballocMinor.bytes) ≤ limit at gap
        omega
  | cons next rest ih =>
      rcases packed with ⟨le, ordered, packed⟩
      have ends : endOf min = min.address + 40 + min.size := rfl
      have header : LiballocMinor.bytes = 40 := rfl
      have nextInside := packed.of_mem List.mem_cons_self
      rw [placeAfter, need_eq fits, space_eq nextInside.1 (by omega), newMinor_eq fits]
      by_cases enough : reqSize + 72 ≤ next.address - endOf min
      · rw [if_pos enough]
        have gap : endOf min + (reqSize + 32 + LiballocMinor.bytes) ≤ next.address := by omega
        refine Or.inr ⟨_, _, rfl, ⟨⟨[min], next :: rest, rfl, rfl⟩, le, ordered, ?_⟩, Or.inl gap⟩
        refine ⟨Nat.le_refl _, ?_, ?_⟩
        · simp only [endOf]
          omega
        · refine ⟨?_, packed.2⟩
          change endOf min + LiballocMinor.bytes + (reqSize + 32) ≤ next.address
          omega
      · rw [if_neg enough]
        have noGap : ¬ endOf min + (reqSize + 32 + LiballocMinor.bytes) ≤ next.address := by omega
        rcases ih packed with ⟨fails, none⟩ | ⟨minors', address, found, inserted, gap⟩
        · refine Or.inl ⟨by rw [fails]; rfl, fun gap => ?_⟩
          exact gap.elim noGap none
        · rcases inserted with ⟨⟨before, after, split, split'⟩, packed'⟩
          have inserted : Inserted lower limit (min :: next :: rest) (min :: minors')
              ⟨address, reqSize + 32, reqSize⟩ :=
            ⟨⟨min :: before, after, by rw [split]; rfl, by rw [split']; rfl⟩, le, ordered, packed'⟩
          exact Or.inr ⟨min :: minors', address, by rw [found]; rfl, inserted, Or.inr gap⟩

/-- What a new minor does to its major. -/
structure Placed (reqSize : Nat) (maj maj' : LiballocMajor) (min : LiballocMinor) : Prop where
  ok : maj'.Ok
  address_eq : maj'.address = maj.address
  size_eq : maj'.size = maj.size
  pages_eq : maj'.pages = maj.pages
  inserted : ∃ before after, maj.minors = before ++ after ∧ maj'.minors = before ++ min :: after
  min_size : min.size = reqSize + 32
  min_reqSize : min.reqSize = reqSize

/-- A minor in a gap keeps the major in order. -/
theorem Ok.grow {address : Nat} (ok : maj.Ok)
    (inserted : Inserted (maj.address + bytes) (maj.address + maj.size) maj.minors minors'
      ⟨address, reqSize + 32, reqSize⟩) :
    Placed reqSize maj (maj.grow (reqSize + 32) minors') ⟨address, reqSize + 32, reqSize⟩ := by
  rcases inserted with ⟨⟨before, after, split, split'⟩, packed⟩
  have more : occupied LiballocMinor.address endOf minors' =
      reqSize + 72 + occupied LiballocMinor.address endOf maj.minors := by
    rw [split', split, occupied_perm List.perm_middle, occupied_cons]
    simp only [endOf, LiballocMinor.bytes]
    omega
  have fits := packed.occupied_le
  have small := ok.small
  have usage : (maj.usage + (reqSize + 32) + LiballocMinor.bytes) % 2 ^ 32 =
      bytes + occupied LiballocMinor.address endOf minors' := by
    rw [ok.usage_eq, more]
    simp only [LiballocMinor.bytes] at *
    omega
  refine ⟨⟨ok.size_eq, small, ok.positive, ok.below, usage, packed, ?_⟩, rfl, rfl, rfl,
    ⟨before, after, split, split'⟩, rfl, rfl⟩
  intro min member
  have cases : min = ⟨address, reqSize + 32, reqSize⟩ ∨ min ∈ maj.minors := by
    rw [LiballocMajor.grow, split', List.mem_append, List.mem_cons] at member
    rw [split, List.mem_append]
    tauto
  rcases cases with rfl | member
  · exact Nat.le_refl _
  · exact ok.room min member

/-- Cases 3 and 4 find the first gap of a major, if there is one. -/
theorem Ok.place_spec (ok : maj.Ok) (used : maj.minors ≠ []) (fits : Liballoc.FitsMajor reqSize) :
    (maj.place (reqSize + 32) reqSize = none ∧ ¬ maj.HasGap (reqSize + 32)) ∨
      ∃ maj' min, maj.place (reqSize + 32) reqSize = some (maj', min) ∧
        Placed reqSize maj maj' min ∧ maj.HasGap (reqSize + 32) := by
  cases split : maj.minors with
  | nil => exact absurd split used
  | cons first rest =>
      have packed := ok.packed
      rw [split] at packed
      have below := ok.below
      have firstInside := packed.of_mem List.mem_cons_self
      have header : bytes = 40 := rfl
      have header' : LiballocMinor.bytes = 40 := rfl
      have front : sub64 (sub64 first.address maj.address) bytes =
          first.address - maj.address - bytes := by
        have distance : sub64 first.address maj.address = first.address - maj.address :=
          sub64_eq (by omega) (by omega)
        rw [distance, sub64_eq (by omega) (by omega)]
      rw [place, split]
      dsimp only
      rw [need_eq fits, front, newMinor_eq fits, HasGap, split]
      by_cases enough : reqSize + 72 ≤ first.address - maj.address - bytes
      · rw [if_pos enough]
        refine Or.inr ⟨_, _, rfl, ok.grow ⟨⟨[], first :: rest, split, rfl⟩, ?_⟩, Or.inl (by omega)⟩
        refine ⟨Nat.le_refl _, ?_, ?_, packed.2⟩
        · simp only [endOf]
          omega
        · simp only [endOf]
          omega
      · rw [if_neg enough]
        have noGap : ¬ maj.address + bytes + (reqSize + 32 + LiballocMinor.bytes) ≤
          first.address := by omega
        rcases placeAfter_spec fits below packed with
          ⟨fails, none⟩ | ⟨minors', address, found, inserted, gap⟩
        · refine Or.inl ⟨by rw [fails]; rfl, fun gap => ?_⟩
          exact gap.elim noGap none
        · rw [found]
          rw [← split] at inserted
          exact Or.inr ⟨_, _, rfl, ok.grow inserted, Or.inr gap⟩

/-- A major with too little free space has no gap. -/
theorem Ok.not_hasGap {size : Nat} (ok : maj.Ok)
    (insufficient : maj.available < size + LiballocMinor.bytes) : ¬ maj.HasGap size := by
  intro gap
  have le := ok.packed.gap_le gap
  rw [ok.available_eq, ok.usage_eq] at insufficient
  omega

/-- A new major is large enough for what it was mapped for. -/
theorem placeFirst_spec (ok : maj.Ok) (unused : maj.minors = [])
    (enough : bytes + (reqSize + 72) ≤ maj.size) (fits : Liballoc.FitsMajor reqSize) :
    Placed reqSize maj (maj.placeFirst (reqSize + 32) reqSize).1
      (maj.placeFirst (reqSize + 32) reqSize).2 := by
  have header : LiballocMinor.bytes = 40 := rfl
  rw [placeFirst, newMinor_eq fits]
  refine ok.grow ⟨⟨[], [], unused, rfl⟩, Nat.le_refl _, ?_, ?_⟩
  · simp only [endOf]
    omega
  · change maj.address + bytes + LiballocMinor.bytes + (reqSize + 32) ≤ maj.address + maj.size
    omega

end LiballocMajor

namespace Liballoc

open LiballocMajor

/-- The kernel maps pages where nothing is. -/
def Fresh (mmap : Mmap) : Prop :=
  ∀ majors pages address, mmap majors pages = some address →
    0 < address ∧ address + 4096 * pages ≤ 2 ^ 47 ∧
      ∀ maj ∈ majors, address + 4096 * pages ≤ maj.address ∨
        maj.address + 4096 * maj.pages ≤ address

/-- Two majors do not overlap. -/
def Apart (maj other : LiballocMajor) : Prop :=
  maj.address + maj.size ≤ other.address ∨ other.address + other.size ≤ maj.address

/-- Every major is in order and has a minor. -/
def InUse (majors : List LiballocMajor) : Prop := ∀ maj ∈ majors, maj.Ok ∧ maj.minors ≠ []

variable {mmap : Mmap} {majors majors' : List LiballocMajor} {maj next : LiballocMajor}
  {min : LiballocMinor} {reqSize : Nat} {best : Best} {insufficient : Bool}

theorem pageCount_spec (fits : FitsMajor reqSize) :
    reqSize + 112 ≤ 4096 * pageCount (reqSize + 32) ∧
      4096 * pageCount (reqSize + 32) < 2 ^ 32 := by
  unfold FitsMajor at fits
  have st_eq : ((reqSize + 32 + LiballocMajor.bytes) % 2 ^ 32 + LiballocMinor.bytes) % 2 ^ 32 =
      reqSize + 112 := by
    simp only [LiballocMajor.bytes, LiballocMinor.bytes]
    omega
  rw [pageCount, st_eq]
  by_cases whole : (reqSize + 112) % 4096 = 0
  · rw [if_pos whole]
    split <;> omega
  · rw [if_neg whole]
    split <;> omega

/-- A new major is in order and large enough. -/
theorem allocateNewPage_spec (fresh : Fresh mmap) (fits : FitsMajor reqSize)
    (mapped : allocateNewPage mmap majors (reqSize + 32) = some next) :
    next.Ok ∧ next.minors = [] ∧ LiballocMajor.bytes + (reqSize + 72) ≤ next.size ∧
      (InUse majors → ∀ maj ∈ majors, Apart maj next) := by
  have header : LiballocMajor.bytes = 40 := rfl
  have enough := pageCount_spec fits
  rw [allocateNewPage, Option.map_eq_some_iff] at mapped
  rcases mapped with ⟨address, isMapped, rfl⟩
  rcases fresh _ _ _ isMapped with ⟨positive, below, apart⟩
  generalize pageCount (reqSize + 32) = pages at *
  have size_eq : pages * 4096 % 2 ^ 32 = 4096 * pages := by omega
  rw [size_eq]
  refine ⟨⟨rfl, enough.2, positive, below, rfl, ?_, fun min member => by cases member⟩, rfl, ?_, ?_⟩
  · change address + LiballocMajor.bytes ≤ address + 4096 * pages
    omega
  · change LiballocMajor.bytes + (reqSize + 72) ≤ 4096 * pages
    omega
  · intro inUse maj member
    rw [Apart, (inUse maj member).1.size_eq]
    exact (apart maj member).symm

/-- One of the majors had a gap and has got a new minor. -/
def PlacedIn (reqSize : Nat) (majors majors' : List LiballocMajor) (min : LiballocMinor) : Prop :=
  ∃ before maj maj' after, majors = before ++ maj :: after ∧ majors' = before ++ maj' :: after ∧
    Placed reqSize maj maj' min ∧ maj.HasGap (reqSize + 32)

/-- The best bet is still what it was, or one of the majors. -/
def BetAmong (majors : List LiballocMajor) (bestBet bestBet' : Option Nat) : Prop :=
  bestBet' = bestBet ∨ ∃ maj ∈ majors, bestBet' = some maj.address

theorem Best.remember_among (best : Best) (member : maj ∈ majors) :
    BetAmong majors best.bestBet (best.remember maj).bestBet := by
  unfold Best.remember
  split
  · exact Or.inr ⟨maj, member, rfl⟩
  · exact Or.inl rfl

theorem BetAmong.trans {first second third : Option Nat} (left : BetAmong majors first second)
    (right : BetAmong majors second third) : BetAmong majors first third := by
  rcases right with rfl | among
  · exact left
  · exact Or.inr among

theorem BetAmong.mono {first second : Option Nat} (among : BetAmong majors first second)
    (subset : majors ⊆ majors') : BetAmong majors' first second :=
  among.imp id fun ⟨maj, member, same⟩ => ⟨maj, subset member, same⟩

/-- A walk finds the first gap, or there is none. -/
theorem walk_spec (inUse : InUse majors) (fits : FitsMajor reqSize) (best : Best)
    (insufficient : Bool) :
    ∃ best' walked, walk (reqSize + 32) reqSize best insufficient majors = (best', walked) ∧
      BetAmong majors best.bestBet best'.bestBet ∧
      ((∃ majors' min, walked = .placed majors' min ∧ PlacedIn reqSize majors majors' min) ∨
        ∃ insufficient', walked = .exhausted insufficient' ∧
          ∀ maj ∈ majors, ¬ maj.HasGap (reqSize + 32)) := by
  induction majors generalizing best insufficient with
  | nil =>
      refine ⟨best, _, rfl, Or.inl rfl, Or.inr ⟨insufficient, rfl, ?_⟩⟩
      exact fun maj member => by cases member
  | cons maj rest ih =>
      rcases inUse maj List.mem_cons_self with ⟨ok, used⟩
      have inUse' : InUse rest := fun other member => inUse other (List.mem_cons_of_mem _ member)
      have first := best.remember_among (List.mem_cons_self : maj ∈ maj :: rest)
      -- when this major has no gap, the walk goes on with the next one
      have goesOn : ∀ insufficient', ¬ maj.HasGap (reqSize + 32) →
          ∃ best' walked, walk (reqSize + 32) reqSize (best.remember maj) insufficient' rest =
              (best', walked) ∧ BetAmong (maj :: rest) best.bestBet best'.bestBet ∧
            ((∃ majors' min, walked.after maj = .placed majors' min ∧
                PlacedIn reqSize (maj :: rest) majors' min) ∨
              ∃ insufficient', walked.after maj = .exhausted insufficient' ∧
                ∀ other ∈ maj :: rest, ¬ other.HasGap (reqSize + 32)) := by
        intro insufficient' noGap
        rcases ih inUse' (best.remember maj) insufficient' with
          ⟨best', walked, isWalk, among, found⟩
        refine ⟨best', walked, isWalk, first.trans (among.mono (List.subset_cons_self _ _)), ?_⟩
        rcases found with ⟨majors', min, rfl, before, other, other', after, rfl, rfl, placed⟩ |
          ⟨last, rfl, none⟩
        · refine Or.inl ⟨_, min, rfl, maj :: before, other, other', after, rfl, rfl, placed⟩
        · exact Or.inr ⟨last, rfl, List.forall_mem_cons.mpr ⟨noGap, none⟩⟩
      rw [walk, need_eq fits]
      dsimp only
      by_cases enough : maj.available < reqSize + 72
      · rw [if_pos enough]
        rcases goesOn true (ok.not_hasGap enough) with ⟨best', walked, isWalk, found⟩
        rw [isWalk]
        exact ⟨best', walked.after maj, rfl, found⟩
      · rw [if_neg enough]
        rcases ok.place_spec used fits with ⟨fails, noGap⟩ | ⟨maj', min, found, placed⟩
        · rw [fails]
          rcases goesOn false noGap with ⟨best', walked, isWalk, found⟩
          rw [isWalk]
          exact ⟨best', walked.after maj, rfl, found⟩
        · rw [found]
          exact ⟨_, _, rfl, first, Or.inl ⟨_, min, rfl, [], maj, maj', rest, rfl, rfl, placed⟩⟩

theorem walk_cons_of_place {size : Nat} {rest : List LiballocMajor}
    (enough : ¬ maj.available < need size) (found : maj.place size reqSize = some (next, min)) :
    walk size reqSize best insufficient (maj :: rest) =
      (best.remember maj, .placed (next :: rest) min) := by
  rw [walk]
  simp only [if_neg enough, found]

/-- A new major serves the request it was mapped for. -/
theorem walk_next (ok : next.Ok) (unused : next.minors = [])
    (enough : LiballocMajor.bytes + (reqSize + 72) ≤ next.size) (fits : FitsMajor reqSize) :
    walk (reqSize + 32) reqSize best insufficient [next] =
      (best.remember next, .placed [(next.placeFirst (reqSize + 32) reqSize).1]
        (next.placeFirst (reqSize + 32) reqSize).2) := by
  have usage : next.usage = LiballocMajor.bytes := by rw [ok.usage_eq, unused]; rfl
  have available : ¬ next.available < need (reqSize + 32) := by
    rw [ok.available_eq, usage, need_eq fits]
    omega
  have served : next.place (reqSize + 32) reqSize =
      some ((next.placeFirst (reqSize + 32) reqSize).1,
        (next.placeFirst (reqSize + 32) reqSize).2) := by
    rw [place, unused]
  exact walk_cons_of_place available served

theorem useNext_eq (ok : next.Ok) (unused : next.minors = [])
    (enough : LiballocMajor.bytes + (reqSize + 72) ≤ next.size) (fits : FitsMajor reqSize) :
    useNext mmap (reqSize + 32) reqSize best insufficient majors next =
      some (if insufficient then best else best.remember next,
        majors ++ [(next.placeFirst (reqSize + 32) reqSize).1],
        (next.placeFirst (reqSize + 32) reqSize).2) := by
  cases insufficient with
  | true => rw [useNext, if_pos rfl, if_pos rfl]
  | false =>
      rw [useNext, if_neg (by simp), if_neg (by simp), walk_next ok unused enough fits]

theorem extend_eq (fresh : Fresh mmap) (fits : FitsMajor reqSize) :
    extend mmap (reqSize + 32) reqSize best insufficient majors =
      (allocateNewPage mmap majors (reqSize + 32)).map fun next =>
        (if insufficient then best else best.remember next,
          majors ++ [(next.placeFirst (reqSize + 32) reqSize).1],
          (next.placeFirst (reqSize + 32) reqSize).2) := by
  rw [extend]
  cases mapped : allocateNewPage mmap majors (reqSize + 32) with
  | none => rfl
  | some next =>
      rcases allocateNewPage_spec fresh fits mapped with ⟨ok, unused, enough, _⟩
      rw [Option.bind_some, Option.map_some, useNext_eq ok unused enough fits]

/-- What the search does: it finds a gap, or it maps a new major because there is none. -/
structure Searched (mmap : Mmap) (reqSize : Nat) (bestBet : Option Nat)
    (majors : List LiballocMajor)
    (outcome : Option (Best × List LiballocMajor × LiballocMinor)) : Prop where
  cases : (∃ best' majors' min, outcome = some (best', majors', min) ∧
      BetAmong majors bestBet best'.bestBet ∧ PlacedIn reqSize majors majors' min) ∨
    (∀ maj ∈ majors, ¬ maj.HasGap (reqSize + 32)) ∧ ∃ bet : LiballocMajor → Best,
      (∀ next, BetAmong (majors ++ [next]) bestBet (bet next).bestBet) ∧
      outcome = (allocateNewPage mmap majors (reqSize + 32)).map fun next =>
        (bet next, majors ++ [(next.placeFirst (reqSize + 32) reqSize).1],
          (next.placeFirst (reqSize + 32) reqSize).2)

/-- The walk from the root, with the extension behind it. -/
theorem walk_extend (inUse : InUse majors) (fresh : Fresh mmap) (fits : FitsMajor reqSize)
    (best : Best) (insufficient : Bool) :
    Searched mmap reqSize best.bestBet majors
      (match walk (reqSize + 32) reqSize best insufficient majors with
        | (best, .placed majors min) => some (best, majors, min)
        | (best, .exhausted insufficient) =>
            extend mmap (reqSize + 32) reqSize best insufficient majors) := by
  rcases walk_spec inUse fits best insufficient with
    ⟨best', walked, isWalk, among, ⟨majors', min, rfl, placed⟩ | ⟨last, rfl, none⟩⟩
  · rw [isWalk]
    exact ⟨Or.inl ⟨best', majors', min, rfl, among, placed⟩⟩
  · rw [isWalk]
    dsimp only
    rw [extend_eq fresh fits]
    refine ⟨Or.inr ⟨none, _, fun next => ?_, rfl⟩⟩
    have among' : BetAmong (majors ++ [next]) best.bestBet best'.bestBet :=
      among.mono (List.subset_append_left _ _)
    split
    · exact among'
    · exact among'.trans (best'.remember_among (by simp))

theorem Searched.of_among {bet bestBet : Option Nat}
    {outcome : Option (Best × List LiballocMajor × LiballocMinor)}
    (searched : Searched mmap reqSize bet majors outcome) (among : BetAmong majors bestBet bet) :
    Searched mmap reqSize bestBet majors outcome := by
  rcases searched.cases with ⟨best', majors', min, found, among', placed⟩ | ⟨none, f, among', out⟩
  · exact ⟨Or.inl ⟨best', majors', min, found, among.trans among', placed⟩⟩
  · refine ⟨Or.inr ⟨none, f, fun next => ?_, out⟩⟩
    exact (among.mono (List.subset_append_left _ _)).trans (among' next)

/-- The search finds a gap wherever it starts; otherwise it maps a new major. -/
theorem search_spec (inUse : InUse majors) (fresh : Fresh mmap) (fits : FitsMajor reqSize)
    (best : Best) (startedBet : Option Nat) : Searched mmap reqSize best.bestBet majors
      (search mmap (reqSize + 32) reqSize best startedBet majors) := by
  cases startedBet with
  | none => exact walk_extend inUse fresh fits best false
  | some bet =>
      rw [search]
      generalize isBefore_eq : (fun maj : LiballocMajor => maj.address != bet) = isBefore
      have split : majors.takeWhile isBefore ++ majors.dropWhile isBefore = majors :=
        List.takeWhile_append_dropWhile
      have subset : majors.dropWhile isBefore ⊆ majors := (List.dropWhile_sublist _).subset
      have inUse' : InUse (majors.dropWhile isBefore) := fun maj member => inUse maj (subset member)
      rcases walk_spec inUse' fits best false with
        ⟨best', walked, isWalk, among, ⟨majors', min, rfl, placed⟩ | ⟨last, rfl, _⟩⟩
      · rw [isWalk]
        rcases placed with ⟨before, maj, maj', after, rest, rfl, placed⟩
        refine ⟨Or.inl ⟨best', _, min, rfl, among.mono subset, ?_⟩⟩
        refine ⟨majors.takeWhile isBefore ++ before, maj, maj', after, ?_, ?_, placed⟩
        · rw [List.append_assoc, ← rest, split]
        · rw [List.append_assoc]
      · rw [isWalk]
        exact (walk_extend inUse fresh fits best' false).of_among (among.mono subset)

end Liballoc

end Alaska
