-- The values that the analyzer shares about a model (`pure-analyzer-model`,
-- `types.rs`), and what a name of a query was resolved to
-- (`pure-analyzer-resolve`): classes, members and locals.
import PureAnalyzer.Fragments

namespace analyzer.model

open fragments

/-- The bytes of an ASCII literal. -/
def ascii (s : String) : Text := s.toList.map Char.toUInt8

/-! ## Names -/

inductive NameError where
  | Empty
  | ControlCharacter (value : Text)
  | QualifiedSimpleName (value : Text)
  | EmptyPathSegment (value : Text)
deriving DecidableEq, Repr

/-- Some character of the text is a control character: a byte below the
space, the delete byte, or a character from U+0080 to U+009F. -/
def hasControl : Text → Bool
  | a :: b :: rest =>
    a < 0x20 || a == 0x7F || (a == 0xC2 && 0x80 ≤ b && b ≤ 0x9F) || hasControl (b :: rest)
  | [a] => a < 0x20 || a == 0x7F
  | [] => false

/-- The text has `::` in it. -/
def hasSeparator : Text → Bool
  | a :: b :: rest => (a == 58 && b == 58) || hasSeparator (b :: rest)
  | _ => false

/-- The segments of a path between its `::`, from the left. -/
def splitPath : Text → List Text
  | a :: b :: rest =>
    if a = 58 ∧ b = 58 then [] :: splitPath rest
    else
      match splitPath (b :: rest) with
      | segment :: segments => (a :: segment) :: segments
      | [] => [[a]]
  | text => [text]

def validateNameText (value : Text) : Except NameError Unit :=
  if value.isEmpty then .error .Empty
  else if hasControl value then .error (.ControlCharacter value)
  else .ok ()

def Name.validate (value : Text) : Except NameError Unit :=
  match validateNameText value with
  | .error e => .error e
  | .ok () => if hasSeparator value then .error (.QualifiedSimpleName value) else .ok ()

def QName.validate (value : Text) : Except NameError Unit :=
  match validateNameText value with
  | .error e => .error e
  | .ok () =>
    if (splitPath value).any List.isEmpty then .error (.EmptyPathSegment value) else .ok ()

/-- A simple name, such as that of a property or of a column. -/
structure Name where
  text : Text
  valid : (Name.validate text).isOk = true
deriving DecidableEq

/-- A qualified name, such as the path of a class. -/
structure QName where
  text : Text
  valid : (QName.validate text).isOk = true
deriving DecidableEq

def Name.new (value : Text) : Except NameError Name :=
  match h : Name.validate value with
  | .error e => .error e
  | .ok () => .ok ⟨value, by rw [h]; rfl⟩

def QName.new (value : Text) : Except NameError QName :=
  match h : QName.validate value with
  | .error e => .error e
  | .ok () => .ok ⟨value, by rw [h]; rfl⟩

theorem Name.ext_text {m n : Name} (h : m.text = n.text) : m = n := by
  cases m
  cases n
  cases h
  rfl

theorem QName.ext_text {p q : QName} (h : p.text = q.text) : p = q := by
  cases p
  cases q
  cases h
  rfl

/-! ## Types and multiplicities -/

structure MultiplicityError where
  lower : Nat
  upper : Nat
deriving DecidableEq, Repr

/-- Bounds on how many values there are. No upper bound is `*`. -/
structure Multiplicity where
  lower : Nat
  upper : Option Nat
  ordered : upper.all (lower ≤ ·) = true
deriving DecidableEq

namespace Multiplicity

def new (lower : Nat) (upper : Option Nat) : Except MultiplicityError Multiplicity :=
  match upper with
  | none => .ok ⟨lower, none, rfl⟩
  | some upper =>
    if h : lower ≤ upper then .ok ⟨lower, some upper, by simpa using h⟩
    else .error ⟨lower, upper⟩

def isToOne (m : Multiplicity) : Bool := m.upper == some 0 || m.upper == some 1

end Multiplicity

/-- A named type with its type arguments. -/
inductive TypeRef where
  | new (raw_type : QName) (type_arguments : List TypeRef)

namespace TypeRef

def rawType : TypeRef → QName
  | new raw_type _ => raw_type

def typeArguments : TypeRef → List TypeRef
  | new _ type_arguments => type_arguments

mutual

def decEq : (t u : TypeRef) → Decidable (t = u)
  | new p ts, new q us =>
    if h : p = q then
      match decEqList ts us with
      | .isTrue hts => .isTrue (by rw [h, hts])
      | .isFalse hts => .isFalse fun heq => hts (TypeRef.new.inj heq).2
    else .isFalse fun heq => h (TypeRef.new.inj heq).1

def decEqList : (ts us : List TypeRef) → Decidable (ts = us)
  | [], [] => .isTrue rfl
  | [], _ :: _ => .isFalse nofun
  | _ :: _, [] => .isFalse nofun
  | t :: ts, u :: us =>
    match decEq t u with
    | .isTrue h =>
      match decEqList ts us with
      | .isTrue hts => .isTrue (by rw [h, hts])
      | .isFalse hts => .isFalse fun heq => hts (List.cons.inj heq).2
    | .isFalse h => .isFalse fun heq => h (List.cons.inj heq).1

end

instance : DecidableEq TypeRef := decEq

end TypeRef

inductive Temporal where
  | Bitemporal
  | BusinessTemporal
  | ProcessingTemporal
deriving DecidableEq, Repr

inductive QpKind where
  | UserQualified
  | MilestonedPoint
  | AllVersions
  | AllVersionsInRange
deriving DecidableEq, Repr

/-- Where a fact of the model comes from, in the order of the source. -/
inductive Provenance where
  | Pmcd
  | PureFile
deriving DecidableEq, Repr

/-- A range of bytes of a document. -/
structure TextRange where
  start : Nat
  stop : Nat
  ordered : start ≤ stop
deriving DecidableEq

theorem TextRange.ext_ends {r s : TextRange} (h : r.start = s.start) (k : r.stop = s.stop) :
    r = s := by
  cases r
  cases s
  cases h
  cases k
  rfl

end analyzer.model

namespace analyzer.resolve

open model

/-- The place of a definition: the index of its source, and its range there
when the source keeps ranges. -/
structure DefinitionAnchor where
  source : Nat
  span : Option TextRange
deriving DecidableEq

/-- A class as a resolver found it. Its id is its place among the classes of the
model. -/
structure ResolvedClass where
  id : Nat
  path : QName
  temporal : Option Temporal
  provenance : Provenance
  definition : DefinitionAnchor
deriving DecidableEq

inductive ResolvedMemberKind where
  | Qualified (kind : QpKind)
  | Property
  | AssociationEnd (association : QName)
deriving DecidableEq

/-- A member found on the class that declares it. -/
structure ResolvedMember where
  owner : ResolvedClass
  name : Name
  target : TypeRef
  multiplicity : Multiplicity
  kind : ResolvedMemberKind
  signature : Option (List TypeRef)
  target_temporal_arity : Option Nat
  provenance : Provenance
  definition : DefinitionAnchor
deriving DecidableEq

/-- Why the model cannot say what a name is. -/
inductive UnderResolution where
  | MissingSupertype (owner missing : QName)
  | OpenWorld (cls : QName)
  | GraphInvariant (cls : QName)
  | GeneralizationDepth (cls : QName) (limit : Nat)
deriving DecidableEq

inductive UnknownValue where
  | HigherOrder
  | UnmodeledType (type_ref : TypeRef)
  | Model (reason : UnderResolution)
deriving DecidableEq

structure RelationColumn where
  id : Nat
  name : Name
  type_ref : TypeRef
  multiplicity : Multiplicity
  span : TextRange
deriving DecidableEq

/-- The columns of a row have different ids and different names. -/
structure RelationRow where
  columns : List RelationColumn
  ids : (columns.map RelationColumn.id).Nodup
  names : (columns.map RelationColumn.name).Nodup
deriving DecidableEq

inductive LocalValueKind where
  | Class (cls : ResolvedClass)
  | Scalar (scalar : TypeRef)
  | RelationRow (row : RelationRow)
  | Unknown (value : UnknownValue)
deriving DecidableEq

structure LocalValue where
  kind : LocalValueKind
  multiplicity : Multiplicity
deriving DecidableEq

end analyzer.resolve
