import Alaska.Compiler.Types
import Mathlib.Logic.Function.Basic

/-!
# Type metadata

`embedType` and `parseTypeMD` of `OptimisticTypes.cpp`. A type is written as a tagged tree.
The reader has no case for the tag of a primitive type.
-/

namespace Alaska

/-- The metadata of LLVM that types are written to. -/
inductive TypeMD where
  | string (text : String)
  | node (operands : List TypeMD)

/-- What reading a type takes from the LLVM context, with the types converted. -/
structure TypeSource where
  /-- `StructType::getTypeByName` -/
  getTypeByName : String → Option AlaskaType
  /-- `llvm::parseType` -/
  parseType : String → Option AlaskaType
  /-- The variable that the conversion of an opaque pointer makes. -/
  freshVar : AlaskaType

/-- `m_mdMap` -/
abbrev MetadataMap := AlaskaType → Option TypeMD

namespace AlaskaType

/-- `OptimisticTypes::embedType`; what other types print as is left out by the source. -/
def embedType (type : AlaskaType) (mdMap : MetadataMap) : TypeMD × MetadataMap :=
  match mdMap type with
  | some md => (md, mdMap)
  | none =>
      match type with
      | .pointer elementType =>
          let element := embedType elementType mdMap
          let md := .node [.string "ptr", element.1]
          (md, Function.update element.2 (.pointer elementType) (some md))
      | .struct name fields =>
          let md := .node [.string "struct", .string name]
          (md, Function.update mdMap (.struct name fields) (some md))
      | .primitive wrapped =>
          let md := .node [.string "prim", .string wrapped]
          (md, Function.update mdMap (.primitive wrapped) (some md))
      | t =>
          let md := .node [.string "other", .string ""]
          (md, Function.update mdMap t (some md))

end AlaskaType

/--
`parseTypeMD`. `none` is a crash: a null type is converted or pointed to, or the assertion
about the second tag fails; `some none` is the null pointer.
-/
def parseTypeMD (source : TypeSource) : TypeMD → Option (Option AlaskaType)
  | .node [.string tag] => if tag = "ptr" then some (some source.freshVar) else some none
  | .node [.string tag, operand] =>
      if tag = "ptr" then
        match parseTypeMD source operand with
        | some (some elementType) => some (some (.pointer elementType))
        | _ => none
      else if tag = "struct" then
        match operand with
        | .string name => (source.getTypeByName name).map some
        | .node _ => none
      else if tag = "other" then
        match operand with
        | .string text => (source.parseType text).map some
        | .node _ => none
      else
        some none
  | _ => some none

namespace AlaskaType

/-- The metadata of a type. -/
def metadata : AlaskaType → TypeMD
  | .pointer elementType => .node [.string "ptr", metadata elementType]
  | .struct name _ => .node [.string "struct", .string name]
  | .primitive wrapped => .node [.string "prim", .string wrapped]
  | _ => .node [.string "other", .string ""]

/-- What is behind all the pointers of a type. -/
def pointee : AlaskaType → AlaskaType
  | .pointer elementType => pointee elementType
  | t => t

/-- The types built from primitives, the named structures of the context, and pointers. -/
inductive Built (source : TypeSource) : AlaskaType → Prop where
  | primitive (wrapped : String) : Built source (.primitive wrapped)
  | struct {name : String} {fields : List AlaskaType}
      (named : source.getTypeByName name = some (.struct name fields)) :
      Built source (.struct name fields)
  | pointer {elementType : AlaskaType} (element : Built source elementType) :
      Built source (.pointer elementType)

/-- The map holds the metadata of its types. -/
def Consistent (mdMap : MetadataMap) : Prop :=
  ∀ t md, mdMap t = some md → md = t.metadata

theorem consistent_update {mdMap : MetadataMap} {t : AlaskaType} {md : TypeMD}
    (consistent : Consistent mdMap) (equal : md = t.metadata) :
    Consistent (Function.update mdMap t (some md)) := by
  intro t' md' found
  by_cases same : t' = t
  · subst same
    rw [Function.update_self] at found
    exact (Option.some.inj found).symm.trans equal
  · rw [Function.update_of_ne same] at found
    exact consistent t' md' found

theorem embedType_spec {mdMap : MetadataMap} (consistent : Consistent mdMap) (t : AlaskaType) :
    (t.embedType mdMap).1 = t.metadata ∧ Consistent (t.embedType mdMap).2 := by
  induction t using front_induction generalizing mdMap with
  | pointer element ih =>
      unfold embedType
      split
      · next md found => exact ⟨consistent _ md found, consistent⟩
      · have written := ih consistent
        have equal : TypeMD.node [.string "ptr", (element.embedType mdMap).1] =
            (pointer element).metadata := by
          rw [metadata, written.1]
        exact ⟨equal, consistent_update written.2 equal⟩
  | var | primitive | struct_nil | struct_cons | array =>
      unfold embedType
      split
      · next md found => exact ⟨consistent _ md found, consistent⟩
      · exact ⟨rfl, consistent_update consistent rfl⟩

/-- The map after some types have been embedded. -/
def embedAll (types : List AlaskaType) : MetadataMap :=
  types.foldl (fun mdMap t => (t.embedType mdMap).2) fun _ => none

theorem consistent_embedAll (types : List AlaskaType) : Consistent (embedAll types) := by
  unfold embedAll
  have start : Consistent fun _ => none := by
    intro t md found
    contradiction
  generalize (fun _ => none : MetadataMap) = mdMap at start
  induction types generalizing mdMap with
  | nil => exact start
  | cons t types ih => exact ih _ (embedType_spec start t).2

variable {source : TypeSource} {t : AlaskaType}

theorem parseTypeMD_pointer {md : TypeMD} :
    parseTypeMD source (.node [.string "ptr", md]) = some (some (.pointer t)) ↔
      parseTypeMD source md = some (some t) := by
  conv_lhs => unfold parseTypeMD
  rw [if_pos rfl]
  split
  · next elementType parsed => simp [parsed]
  · next noType =>
      constructor
      · intro parsed
        contradiction
      · exact fun parsed => absurd parsed (noType t)

/-- A type is read back exactly when there is no primitive behind its pointers. -/
theorem parseTypeMD_metadata (built : Built source t) :
    parseTypeMD source t.metadata = some (some t) ↔ ∀ wrapped, t.pointee ≠ .primitive wrapped := by
  induction built with
  | primitive wrapped => simp [metadata, pointee, parseTypeMD]
  | struct named => simp [metadata, pointee, parseTypeMD, named]
  | pointer _ ih =>
      rw [metadata, parseTypeMD_pointer, pointee]
      exact ih

/--
Whatever types have been embedded before, a type built from primitives, named structures and
pointers is read back from its metadata exactly when there is no primitive behind its pointers.
-/
theorem parseTypeMD_embedType (source : TypeSource) (embedded : List AlaskaType) {t : AlaskaType}
    (built : Built source t) :
    parseTypeMD source (t.embedType (embedAll embedded)).1 = some (some t) ↔
      ∀ wrapped, t.pointee ≠ .primitive wrapped := by
  rw [(embedType_spec (consistent_embedAll embedded) t).1]
  exact parseTypeMD_metadata built

/-- A context with the structure of a node that holds a count. -/
def nodeSource : TypeSource where
  getTypeByName name :=
    if name = "struct.node" then some (.struct "struct.node" [.primitive "i64"]) else none
  parseType _ := none
  freshVar := .var 0

theorem parseTypeMD_embedType_node :
    parseTypeMD nodeSource
        ((pointer (.struct "struct.node" [.primitive "i64"])).embedType (embedAll [])).1 =
      some (some (.pointer (.struct "struct.node" [.primitive "i64"]))) :=
  (parseTypeMD_embedType nodeSource [] (.pointer (.struct rfl))).mpr (by simp [pointee])

/-- The integer type comes back as the null pointer, and a pointer to it crashes the reader. -/
theorem parseTypeMD_embedType_primitive :
    Built nodeSource (.primitive "i32") ∧
    parseTypeMD nodeSource ((primitive "i32").embedType (embedAll [])).1 = some none ∧
    Built nodeSource (.pointer (.primitive "i32")) ∧
    parseTypeMD nodeSource ((pointer (.primitive "i32")).embedType (embedAll [])).1 = none :=
  ⟨.primitive _, by decide, .pointer (.primitive _), by decide⟩

end AlaskaType

end Alaska
