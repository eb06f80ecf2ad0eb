-- The resolution of members in one model (`pure-analyzer-resolve`, `lib.rs`):
-- the walk over the supertypes of a class, depth first to check them and level
-- by level to order them, and the member that the nearest level declares.
import PureAnalyzer.ModelGraph
import PureAnalyzer.SortedSets
import Mathlib.Data.List.Dedup

namespace analyzer.resolve

open fragments model sortedsets

/-- The longest chain of supertypes that the resolver walks. -/
def MAX_GENERALIZATION_DEPTH : Nat := 256

/-! ## Outcomes -/

inductive Resolution (T : Type) where
  | Found (result : T)
  | Missing
  | UnderResolved (reason : UnderResolution)
  | Ambiguous (results : List T)
  | Cycle (path : List QName)
deriving DecidableEq

inductive HierarchyFault where
  | UnderResolved (reason : UnderResolution)
  | Cycle (cycle : List QName)
deriving DecidableEq

def HierarchyFault.intoResolution {T : Type} : HierarchyFault → Resolution T
  | UnderResolved reason => .UnderResolved reason
  | Cycle cycle => .Cycle cycle

inductive MemberPriority where
  | GeneratedQualified
  | UserQualified
  | Property
  | AssociationEnd
deriving DecidableEq

/-- The priorities in their order, the best one first. -/
def MemberPriority.rank : MemberPriority → Nat
  | GeneratedQualified => 0
  | UserQualified => 1
  | Property => 2
  | AssociationEnd => 3

/-- A member as its class declares it. -/
structure DirectMember where
  priority : MemberPriority
  member : ResolvedMember
  association : Option QName
deriving DecidableEq

def sortedSupertypes (cls : ClassInfo) : List QName := sortDedup cls.supertypes

namespace Resolver

variable (graph : ModelGraph)

/-! ## The check of a hierarchy -/

/-- Follows the supertypes of a class, with the classes that were visited and
the path to this one. `room` is how many classes the path can still take. -/
def validateNode : Nat → QName → List QName → List QName → Except HierarchyFault (List QName)
  | 0, current, _, _ =>
    .error (.UnderResolved (.GeneralizationDepth current MAX_GENERALIZATION_DEPTH))
  | room + 1, current, visited, stack =>
    match stack.findIdx? (· = current) with
    | some start => .error (.Cycle (stack.drop start ++ [current]))
    | none =>
      if current ∈ visited then .ok visited
      else
        match graph.cls current with
        | none => .error (.UnderResolved (.GraphInvariant current))
        | some cls =>
          (sortedSupertypes cls).foldlM
            (fun visited parent =>
              if (graph.cls parent).isNone then
                .error (.UnderResolved (.MissingSupertype current parent))
              else validateNode room parent visited (stack ++ [current]))
            (current :: visited)

def validateHierarchy (origin : QName) : Except HierarchyFault Unit :=
  match validateNode graph MAX_GENERALIZATION_DEPTH origin [] [] with
  | .error fault => .error fault
  | .ok _ => .ok ()

/-! ## The levels of a hierarchy -/

/-- The supertypes that are new, with the classes seen before them. -/
def meet (parents : List QName) (sets : List QName × List QName) : List QName × List QName :=
  parents.foldl
    (fun sets parent =>
      if parent ∈ sets.1 then sets else (parent :: sets.1, parent :: sets.2))
    sets

/-- One turn over a level: the classes seen after it, and the new ones. -/
def expand : List QName → List QName × List QName →
    Except HierarchyFault (List QName × List QName)
  | [], sets => .ok sets
  | path :: rest, sets =>
    match graph.cls path with
    | none => .error (.UnderResolved (.GraphInvariant path))
    | some cls => expand rest (meet (sortedSupertypes cls) sets)

/-- The turns over the levels. Every turn but the last one finds a new class, so
there are as many turns as the model has classes, at most. -/
def levelsFrom : Nat → List QName → List QName → List (List QName) →
    Except HierarchyFault (List (List QName))
  | 0, _, _, levels => .ok levels
  | turns + 1, seen, current, levels =>
    match expand graph current (seen, []) with
    | .error fault => .error fault
    | .ok (seen, next) =>
      let current := sortDedup next
      if current.isEmpty then .ok levels
      else levelsFrom turns seen current (levels ++ [current])

def hierarchyLevels (origin : QName) : Except HierarchyFault (List (List QName)) :=
  match validateHierarchy graph origin with
  | .error fault => .error fault
  | .ok () => levelsFrom graph graph.classes.len [origin] [origin] [[origin]]

/-! ## The members of one class -/

/-- The facts of a class, which is to have an id. -/
def resolvedClass (path : QName) (cls : ClassInfo) : Except UnderResolution ResolvedClass :=
  match graph.classId path with
  | none => .error (.GraphInvariant path)
  | some id =>
    .ok
      { id
        path
        temporal := cls.temporal
        provenance := cls.provenance
        definition := ⟨cls.source, cls.declaration_span⟩ }

def qualifiedMember (owner : ResolvedClass) (name : Name) (cls : ClassInfo) (property : QpInfo) :
    ResolvedMember where
  owner
  name
  target := property.target
  multiplicity := property.multiplicity
  kind := .Qualified property.kind
  signature := property.signature
  target_temporal_arity := none
  provenance := cls.provenance
  definition := ⟨cls.source, property.declaration_span⟩

def propertyMember (owner : ResolvedClass) (name : Name) (cls : ClassInfo) (property : PropInfo) :
    DirectMember :=
  let member : ResolvedMember :=
    { owner
      name
      target := property.target
      multiplicity := property.multiplicity
      kind := .Property
      signature := none
      target_temporal_arity := none
      provenance := cls.provenance
      definition := ⟨cls.source, property.declaration_span⟩ }
  match property.association with
  | none => { priority := .Property, member, association := none }
  | some association =>
    let member := { member with kind := .AssociationEnd association }
    -- the association tells where the end comes from, when the model has it
    match graph.associations.find? (·.path = association) with
    | none => { priority := .AssociationEnd, member, association := some association }
    | some item =>
      { priority := .AssociationEnd
        member :=
          { member with
            provenance := item.provenance
            definition := ⟨item.source, property.declaration_span⟩ }
        association := some association }

/-- What a class itself declares under a name. A qualified property comes before
a plain one. -/
def directMember (path : QName) (cls : ClassInfo) (name : Name) :
    Except HierarchyFault (Option DirectMember) :=
  match resolvedClass graph path cls with
  | .error reason => .error (.UnderResolved reason)
  | .ok owner =>
    match cls.qualified_properties.get name with
    | some property =>
      .ok (some
        { priority :=
            if property.kind = .UserQualified then .UserQualified else .GeneratedQualified
          member := qualifiedMember owner name cls property
          association := none })
    | none => .ok ((cls.properties.get name).map (propertyMember graph owner name cls))

/-! ## The dates that a target takes -/

def arityOfLevels : List (List QName) → Option Nat
  | [] => some 0
  | level :: rest =>
    let classes := level.filterMap graph.cls
    if classes.any ClassInfo.coverage_gap then none
    else
      match (classes.filterMap ClassInfo.temporal).dedup with
      | [] => arityOfLevels rest
      | [temporal] => some temporal.arity
      | _ => none

def effectiveTemporalArity (target : QName) : Except HierarchyFault (Option Nat) :=
  if (graph.cls target).isNone then .ok none
  else
    match hierarchyLevels graph target with
    | .error fault => .error fault
    | .ok levels => .ok (arityOfLevels graph levels)

/-- The stereotype of the association, if it has one. -/
def associationArity (association : Option QName) : Option Nat :=
  association.bind fun path =>
    (graph.associations.find? (·.path = path)).bind fun item => item.temporal.map Temporal.arity

def targetTemporalArity (target : TypeRef) (association : Option QName) :
    Except HierarchyFault (Option Nat) :=
  match associationArity graph association with
  | some arity => .ok (some arity)
  | none => effectiveTemporalArity graph target.rawType

def completeMember (candidate : DirectMember) : Except HierarchyFault ResolvedMember :=
  match targetTemporalArity graph candidate.member.target candidate.association with
  | .error fault => .error fault
  | .ok arity => .ok { candidate.member with target_temporal_arity := arity }

/-! ## The member of a hierarchy -/

/-- What the classes of one level declare, and the first one that is open. -/
def inspectLevel (name : Name) : List QName → List DirectMember → Option UnderResolution →
    Except HierarchyFault (List DirectMember × Option UnderResolution)
  | [], candidates, open_world => .ok (candidates, open_world)
  | path :: rest, candidates, open_world =>
    match graph.cls path with
    | none => .error (.UnderResolved (.GraphInvariant path))
    | some cls =>
      let open_world :=
        if cls.coverage_gap then open_world.or (some (.OpenWorld path)) else open_world
      match directMember graph path cls name with
      | .error fault => .error fault
      | .ok none => inspectLevel name rest candidates open_world
      | .ok (some candidate) => inspectLevel name rest (candidates ++ [candidate]) open_world

def sortByOwner (members : List ResolvedMember) : List ResolvedMember :=
  members.insertionSort fun left right => left.owner.path ≤ right.owner.path

/-- The members of the best priority, if there is any member. -/
def selectBest (candidates : List DirectMember) : Option (Resolution ResolvedMember) :=
  match (candidates.map fun candidate => candidate.priority.rank).min? with
  | none => none
  | some best_priority =>
    let best := candidates.filter fun candidate => candidate.priority.rank = best_priority
    match best.mapM (completeMember graph) with
    | .error fault => some fault.intoResolution
    | .ok best =>
      match sortByOwner best with
      | [member] => some (.Found member)
      | members => some (.Ambiguous members)

def searchLevels (name : Name) : List (List QName) → Resolution ResolvedMember
  | [] => .Missing
  | level :: rest =>
    match inspectLevel graph name level [] none with
    | .error fault => fault.intoResolution
    | .ok (_, some reason) => .UnderResolved reason
    | .ok (candidates, none) =>
      match selectBest graph candidates with
      | some resolution => resolution
      | none => searchLevels name rest

def resolveMember (origin : QName) (name : Name) : Resolution ResolvedMember :=
  match graph.cls origin with
  | none => .Missing
  | some origin_class =>
    if origin_class.coverage_gap then .UnderResolved (.OpenWorld origin)
    else
      match directMember graph origin origin_class name with
      | .error fault => fault.intoResolution
      | .ok (some candidate) =>
        match completeMember graph candidate with
        | .error fault => fault.intoResolution
        | .ok member => .Found member
      | .ok none =>
        match hierarchyLevels graph origin with
        | .error fault => fault.intoResolution
        | .ok levels => searchLevels graph name (levels.drop 1)

end Resolver

end analyzer.resolve
