import Mathlib.Computability.Language

/-!
# EdgeLabel expressions

The regular expressions `re` of `AccessAutomata.h`. Sequences and alternatives take in the items
of their items of the same kind when they are built, and two expressions with a star in them are
never found equal. An edge of an automaton has an expression or is empty.
-/

namespace Alaska

universe u

open Computability

inductive Expr (Token : Type u) where
  | star (body : Expr Token)
  | seq (items : List (Expr Token))
  | alt (items : List (Expr Token))
  | tok (val : Token)

namespace Expr

variable {Token : Type u}

mutual

/-- `flatten`, which leaves stars and tokens as they are. -/
def flatten : Expr Token → Expr Token
  | .star body => .star body
  | .seq items => .seq (flattenSeq items)
  | .alt items => .alt (flattenAlt items)
  | .tok val => .tok val

def flattenSeq : List (Expr Token) → List (Expr Token)
  | [] => []
  | item :: items =>
      match flatten item with
      | .seq inner => inner ++ flattenSeq items
      | item => item :: flattenSeq items

def flattenAlt : List (Expr Token) → List (Expr Token)
  | [] => []
  | item :: items =>
      match flatten item with
      | .alt inner => inner ++ flattenAlt items
      | item => item :: flattenAlt items

end

mutual

/-- `equal`. Stars do not define it, so they are equal to nothing. -/
def equal [DecidableEq Token] : Expr Token → Expr Token → Bool
  | .seq items, .seq items' => equalItems items items'
  | .alt items, .alt items' => equalItems items items'
  | .tok val, .tok val' => val = val'
  | _, _ => false

def equalItems [DecidableEq Token] : List (Expr Token) → List (Expr Token) → Bool
  | [], [] => true
  | item :: items, item' :: items' => equal item item' && equalItems items items'
  | _, _ => false

end

mutual

/-- The words of an expression. -/
def language : Expr Token → Language Token
  | .star body => (language body)∗
  | .seq items => seqLanguage items
  | .alt items => altLanguage items
  | .tok val => {[val]}

def seqLanguage : List (Expr Token) → Language Token
  | [] => 1
  | item :: items => language item * seqLanguage items

def altLanguage : List (Expr Token) → Language Token
  | [] => 0
  | item :: items => language item + altLanguage items

end

mutual

/-- Whether an expression has the empty word. -/
def nullable : Expr Token → Bool
  | .star _ => true
  | .seq items => nullableAll items
  | .alt items => nullableAny items
  | .tok _ => false

def nullableAll : List (Expr Token) → Bool
  | [] => true
  | item :: items => nullable item && nullableAll items

def nullableAny : List (Expr Token) → Bool
  | [] => false
  | item :: items => nullable item || nullableAny items

end

variable {items items' : List (Expr Token)} {a b : Expr Token}

theorem seqLanguage_append :
    seqLanguage (items ++ items') = seqLanguage items * seqLanguage items' := by
  induction items with
  | nil => simp [seqLanguage]
  | cons item items ih => rw [List.cons_append, seqLanguage, seqLanguage, ih, mul_assoc]

theorem altLanguage_append :
    altLanguage (items ++ items') = altLanguage items + altLanguage items' := by
  induction items with
  | nil => simp [altLanguage]
  | cons item items ih => rw [List.cons_append, altLanguage, altLanguage, ih, add_assoc]

mutual

/-- Flattening keeps the words. -/
theorem language_flatten : ∀ e : Expr Token, language (flatten e) = language e
  | .star _ => rfl
  | .seq items => by rw [flatten, language, language, seqLanguage_flattenSeq items]
  | .alt items => by rw [flatten, language, language, altLanguage_flattenAlt items]
  | .tok _ => rfl

theorem seqLanguage_flattenSeq :
    ∀ items : List (Expr Token), seqLanguage (flattenSeq items) = seqLanguage items
  | [] => rfl
  | item :: items => by
      rw [flattenSeq, seqLanguage, ← language_flatten item, ← seqLanguage_flattenSeq items]
      split
      · next inner flat => rw [flat, language, seqLanguage_append]
      · rw [seqLanguage]

theorem altLanguage_flattenAlt :
    ∀ items : List (Expr Token), altLanguage (flattenAlt items) = altLanguage items
  | [] => rfl
  | item :: items => by
      rw [flattenAlt, altLanguage, ← language_flatten item, ← altLanguage_flattenAlt items]
      split
      · next inner flat => rw [flat, language, altLanguage_append]
      · rw [altLanguage]

end

mutual

/-- Expressions that are found equal are the same. -/
theorem eq_of_equal [DecidableEq Token] :
    ∀ {a b : Expr Token}, equal a b = true → a = b
  | .seq items, .seq items', same => by rw [eq_of_equalItems same]
  | .alt items, .alt items', same => by rw [eq_of_equalItems same]
  | .tok val, .tok val', same => by rw [of_decide_eq_true same]

theorem eq_of_equalItems [DecidableEq Token] :
    ∀ {items items' : List (Expr Token)}, equalItems items items' = true → items = items'
  | [], [], _ => rfl
  | item :: items, item' :: items', same => by
      rw [equalItems, Bool.and_eq_true] at same
      rw [eq_of_equal same.1, eq_of_equalItems same.2]

end

mutual

theorem nullable_iff : ∀ e : Expr Token, nullable e = true ↔ [] ∈ language e
  | .star _ => by simp [nullable, language, Language.nil_mem_kstar]
  | .seq items => by rw [nullable, language, nullableAll_iff items]
  | .alt items => by rw [nullable, language, nullableAny_iff items]
  | .tok _ => by
      simp only [nullable, language, Bool.false_eq_true, false_iff]
      intro same
      cases Set.mem_singleton_iff.mp same

theorem nullableAll_iff :
    ∀ items : List (Expr Token), nullableAll items = true ↔ [] ∈ seqLanguage items
  | [] => by simp [nullableAll, seqLanguage]
  | item :: items => by
      rw [nullableAll, seqLanguage, Bool.and_eq_true, nullable_iff item, nullableAll_iff items,
        Language.mem_mul]
      constructor
      · rintro ⟨first, rest⟩
        exact ⟨[], first, [], rest, rfl⟩
      · rintro ⟨word, first, rest, others, nil⟩
        rcases List.append_eq_nil_iff.mp nil with ⟨rfl, rfl⟩
        exact ⟨first, others⟩

theorem nullableAny_iff :
    ∀ items : List (Expr Token), nullableAny items = true ↔ [] ∈ altLanguage items
  | [] => by simp [nullableAny, altLanguage]
  | item :: items => by
      rw [nullableAny, altLanguage, Bool.or_eq_true, nullable_iff item, nullableAny_iff items,
        Language.mem_add]

end

end Expr

/-- The label of an edge. An empty one accesses nothing. -/
abbrev EdgeLabel (Token : Type u) := Option (Expr Token)

namespace EdgeLabel

variable {Token : Type u} {a b : EdgeLabel Token} {word : List Token}

/-- `sequentialize`. -/
def sequentialize : EdgeLabel Token → EdgeLabel Token → EdgeLabel Token
  | some a, some b => some (Expr.flatten (.seq [a, b]))
  | some a, none => some a
  | none, b => b

/-- `alternative`. -/
def alternative [DecidableEq Token] : EdgeLabel Token → EdgeLabel Token → EdgeLabel Token
  | some a, some b => if a.equal b then some a else some (Expr.flatten (.alt [a, b]))
  | some a, none => some a
  | none, b => b

/-- The words of a label, which is the empty word for an empty label. -/
def language : EdgeLabel Token → Language Token
  | none => 1
  | some e => e.language

def nullable : EdgeLabel Token → Bool
  | none => true
  | some e => e.nullable

theorem nullable_iff : nullable a = true ↔ [] ∈ language a := by
  cases a with
  | none => simp [nullable, language]
  | some e => exact Expr.nullable_iff e

theorem language_sequentialize : language (sequentialize a b) = language a * language b := by
  cases a with
  | none => simp [sequentialize, language]
  | some a =>
      cases b with
      | none => simp [sequentialize, language]
      | some b =>
          simp [sequentialize, language, Expr.language_flatten, Expr.language, Expr.seqLanguage]

/-- An alternative has the words of both labels, but for the empty word of an empty label next
to another one. -/
theorem mem_language_alternative [DecidableEq Token] :
    word ∈ language a ∨ word ∈ language b ↔
      word ∈ language (alternative a b) ∨ word = [] ∧ a.isNone ≠ b.isNone := by
  cases a with
  | none =>
      cases b with
      | none => simp [alternative, language]
      | some b => simp [alternative, language, or_comm]
  | some a =>
      cases b with
      | none => simp [alternative, language]
      | some b =>
          by_cases same : a.equal b = true
          · have found : alternative (some a) (some b) = some a := if_pos same
            rw [found, Expr.eq_of_equal same]
            simp
          · have built : alternative (some a) (some b) = some (Expr.flatten (.alt [a, b])) :=
              if_neg same
            have words : language (some (Expr.flatten (.alt [a, b]))) =
                language (some a) + language (some b) := by
              simp [language, Expr.language_flatten, Expr.language, Expr.altLanguage]
            rw [built, words, Language.mem_add]
            simp

@[simp]
theorem nullable_sequentialize :
    nullable (sequentialize a b) = (nullable a && nullable b) := by
  rw [Bool.eq_iff_iff, Bool.and_eq_true]
  simp only [nullable_iff, language_sequentialize, Language.mem_mul, List.append_eq_nil_iff]
  constructor
  · rintro ⟨_, left, _, right, rfl, rfl⟩
    exact ⟨left, right⟩
  · exact fun ⟨left, right⟩ => ⟨[], left, [], right, rfl, rfl⟩

@[simp]
theorem isNone_sequentialize :
    (sequentialize a b).isNone = (a.isNone && b.isNone) := by
  cases a <;> cases b <;> rfl

theorem nullable_alternative_some [DecidableEq Token] {a b : Expr Token} :
    nullable (alternative (some a) (some b)) = (a.nullable || b.nullable) := by
  rw [Bool.eq_iff_iff, Bool.or_eq_true, nullable_iff, Expr.nullable_iff, Expr.nullable_iff]
  have words := @mem_language_alternative Token (some a) (some b) [] _
  simpa [language] using words.symm

end EdgeLabel

end Alaska
