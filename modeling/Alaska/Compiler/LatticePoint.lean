import Alaska.Compiler.Types

/-!
# Lattice points

The three states of `LatticePoint.h` and the meet of `OptimisticTypes.cpp`. Ordered from
underdefined to overdefined, the points are the forest of types with a bottom and a top, and
the meet is their least upper bound.
-/

namespace Alaska

universe u

/-- `alaska::LatticePoint`; only a defined point has a state. -/
inductive LatticePoint (StateT : Type u) where
  | underdefined
  | defined (state : StateT)
  | overdefined
  deriving DecidableEq

namespace LatticePoint

variable {StateT : Type u}

def isDefined : LatticePoint StateT → Bool
  | .defined _ => true
  | _ => false

/-- A point as an element of the states with a bottom and a top. -/
def height : LatticePoint StateT → WithBot (WithTop StateT)
  | .underdefined => ⊥
  | .defined state => ((state : WithTop StateT) : WithBot (WithTop StateT))
  | .overdefined => ((⊤ : WithTop StateT) : WithBot (WithTop StateT))

theorem height_injective :
    Function.Injective (height : LatticePoint StateT → WithBot (WithTop StateT)) := by
  intro a b equal
  have notTop : (⊥ : WithBot (WithTop StateT)) ≠ ((⊤ : WithTop StateT) : WithBot _) :=
    WithBot.bot_ne_coe
  cases a <;> cases b <;> simp_all [height, -WithBot.coe_top]

/-- Underdefined is below every point and overdefined above every point. -/
instance [PartialOrder StateT] : PartialOrder (LatticePoint StateT) :=
  PartialOrder.lift height height_injective

variable [PartialOrder StateT] {state state' : StateT} {point : LatticePoint StateT}

theorem le_iff_height {a b : LatticePoint StateT} : a ≤ b ↔ a.height ≤ b.height :=
  Iff.rfl

@[simp]
theorem underdefined_le : underdefined ≤ point :=
  le_iff_height.mpr bot_le

@[simp]
theorem le_overdefined : point ≤ overdefined := by
  rw [le_iff_height]
  cases point with
  | underdefined => exact bot_le
  | defined | overdefined => exact WithBot.coe_le_coe.mpr le_top

@[simp]
theorem defined_le_defined : defined state ≤ defined state' ↔ state ≤ state' := by
  rw [le_iff_height]
  simp [height]

@[simp]
theorem not_defined_le_underdefined : ¬ defined state ≤ underdefined := by
  rw [le_iff_height]
  simp [height]

@[simp]
theorem not_overdefined_le_defined : ¬ overdefined ≤ defined state := by
  rw [le_iff_height]
  simp [height]

@[simp]
theorem not_overdefined_le_underdefined : ¬ (overdefined : LatticePoint StateT) ≤ underdefined := by
  rw [le_iff_height]
  simp [height]

instance [WellFoundedGT StateT] : WellFoundedGT (LatticePoint StateT) :=
  StrictMono.wellFoundedGT (f := height) fun _ _ lt => lt

/-- The same point with a state seen in another type. -/
def map {StateT' : Type u} (f : StateT → StateT') : LatticePoint StateT → LatticePoint StateT'
  | .underdefined => .underdefined
  | .defined state => .defined (f state)
  | .overdefined => .overdefined

theorem map_le_map {StateT' : Type u} [PartialOrder StateT'] {f : StateT → StateT'}
    (embeds : ∀ a b, f a ≤ f b ↔ a ≤ b) {a b : LatticePoint StateT} :
    a.map f ≤ b.map f ↔ a ≤ b := by
  cases a <;> cases b <;> simp [map, embeds]

end LatticePoint

abbrev OTLatticePoint := LatticePoint AlaskaType

namespace OTLatticePoint

open LatticePoint

/-- `OTLatticePoint::meet`: the receiver afterwards and whether it changed. -/
def meet : (this incoming : OTLatticePoint) → OTLatticePoint × Bool
  | .overdefined, _ => (.overdefined, false)
  | _, .overdefined => (.overdefined, true)
  | this, .underdefined => (this, false)
  | .underdefined, .defined state => (.defined state, true)
  | .defined this, .defined state =>
      if state = this then
        (.defined this, false)
      else if AlaskaType.typeLiftsInto this state then
        (.defined state, true)
      else if AlaskaType.typeLiftsInto state this then
        (.defined this, false)
      else
        (.overdefined, true)

instance : SemilatticeSup (WithTop AlaskaType) := ForestOrder.semilatticeSup AlaskaType

variable {a b c : OTLatticePoint}

/-- The meet is the least upper bound. -/
theorem height_meet : (a.meet b).1.height = a.height ⊔ b.height := by
  cases a with
  | overdefined =>
      have incoming : b ≤ .overdefined := le_overdefined
      exact (sup_eq_left.mpr (le_iff_height.mp incoming)).symm
  | underdefined => cases b <;> exact (bot_sup_eq _).symm
  | defined this =>
      cases b with
      | overdefined =>
          have below : defined this ≤ .overdefined := le_overdefined
          exact (sup_eq_right.mpr (le_iff_height.mp below)).symm
      | underdefined => exact (sup_bot_eq _).symm
      | defined state =>
          show _ = ((ForestOrder.join (this : WithTop AlaskaType) state : WithTop AlaskaType) :
            WithBot (WithTop AlaskaType))
          rw [ForestOrder.join_coe]
          simp only [meet]
          split
          · next equal => simp [equal, height]
          · -- the tests of the source are the tests of the join
            change height (if this ≤ state then _ else _ : OTLatticePoint × Bool).1 = _
            split
            · rfl
            · change height (if state ≤ this then _ else _ : OTLatticePoint × Bool).1 = _
              split
              · rfl
              · rfl

theorem meet_le : (a.meet b).1 ≤ c ↔ a ≤ c ∧ b ≤ c := by
  rw [le_iff_height, le_iff_height, le_iff_height, height_meet]
  exact sup_le_iff

theorem le_meet_left : a ≤ (a.meet b).1 :=
  (meet_le.mp le_rfl).1

theorem le_meet_right : b ≤ (a.meet b).1 :=
  (meet_le.mp le_rfl).2

/-- A point that has reached the incoming one stays as it is, and no other does. -/
theorem meet_eq_left : (a.meet b).1 = a ↔ b ≤ a := by
  constructor
  · intro equal
    rw [← equal]
    exact le_meet_right
  · intro le
    apply le_antisymm
    · exact meet_le.mpr ⟨le_rfl, le⟩
    · exact le_meet_left

/-- The result of the meet says whether the point changed. -/
theorem meet_changed : (a.meet b).2 = true ↔ (a.meet b).1 ≠ a := by
  cases a with
  | overdefined => simp [meet]
  | underdefined => cases b <;> simp [meet]
  | defined this =>
      cases b with
      | overdefined | underdefined => simp [meet]
      | defined state =>
          simp only [meet]
          split
          · simp
          · next differs =>
              split
              · simpa using differs
              · split <;> simp

theorem meet_unchanged : (a.meet b).2 = false ↔ b ≤ a := by
  rw [← meet_eq_left, ← Bool.not_eq_true, meet_changed, not_not]

/-- The meet makes up no types. -/
theorem meet_defined {t : AlaskaType} (equal : (a.meet b).1 = .defined t) :
    a = .defined t ∨ b = .defined t := by
  cases a with
  | overdefined => simp [meet] at equal
  | underdefined =>
      cases b with
      | overdefined | underdefined => simp [meet] at equal
      | defined state => simpa [meet] using equal
  | defined this =>
      cases b with
      | overdefined => simp [meet] at equal
      | underdefined => simpa [meet] using equal
      | defined state =>
          simp only [meet] at equal
          split_ifs at equal <;> simp_all

theorem meet_monotone {a' b' : OTLatticePoint} (left : a ≤ a') (right : b ≤ b') :
    (a.meet b).1 ≤ (a'.meet b').1 :=
  meet_le.mpr ⟨left.trans le_meet_left, right.trans le_meet_right⟩

/--
The meet is a semilattice operation: idempotent, commutative and associative, the least
upper bound of its points, so never below its receiver; it returns whether the receiver
changed.
-/
theorem meet_semilattice :
    (∀ a : OTLatticePoint, (a.meet a).1 = a) ∧
    (∀ a b : OTLatticePoint, (a.meet b).1 = (b.meet a).1) ∧
    (∀ a b c : OTLatticePoint, ((a.meet b).1.meet c).1 = (a.meet (b.meet c).1).1) ∧
    (∀ a b : OTLatticePoint, a ≤ (a.meet b).1) ∧
    (∀ a b c : OTLatticePoint, (a.meet b).1 ≤ c ↔ a ≤ c ∧ b ≤ c) ∧
    (∀ a b : OTLatticePoint, (a.meet b).2 = true ↔ (a.meet b).1 ≠ a) := by
  refine ⟨?_, ?_, ?_, ?_, ?_, ?_⟩
  · intro a
    apply height_injective
    rw [height_meet, sup_idem]
  · intro a b
    apply height_injective
    rw [height_meet, height_meet, sup_comm]
  · intro a b c
    apply height_injective
    rw [height_meet, height_meet, height_meet, height_meet, sup_assoc]
  · exact fun _ _ => le_meet_left
  · exact fun _ _ _ => meet_le
  · exact fun _ _ => meet_changed

end OTLatticePoint

end Alaska
