-- What a complete class of a Domain source says (`pure.rs`): it is the reading of
-- one declaration, every part of which is known, in a file whose declarations are
-- all known and have different paths.
import PureAnalyzer.PureSource
import Mathlib.Data.List.Pairwise

namespace analyzer.pure_source

open fragments model cst diagnostics loader domain

/-! ## Members -/

section

variable {ν : Type} {context : LoweringContext} {cls : QName} {kind : MemberDeclarationKind}

/-- A declaration of a member, and what it says. -/
abbrev Item (ν : Type) := GreenNode × Option ν

/-- The member is known from its declaration alone. -/
def Fit (context : LoweringContext) (item : Item ν) : Prop :=
  context.malformedAt item.1 = false ∧ context.diagnosed item.1.textRange = false ∧
    (directName item.1).isSome = true ∧ item.2.isSome = true

/-- The map has what the declarations say, each under its name, and nothing else. -/
structure Known (items : List (Item ν)) (m : SortedMap Name ν) : Prop where
  each : ∀ item ∈ items, ∃ name v, directName item.1 = some name ∧ item.2 = some v ∧
    m.get name = some v
  only : ∀ name v, m.get name = some v →
    ∃ item ∈ items, directName item.1 = some name ∧ item.2 = some v
  once : (items.map fun item => directName item.1).Nodup

/-- The members after some declarations, all of them known. -/
structure Tracks (items : List (Item ν)) (members : Members ν) : Prop where
  known : Known items members.lowered
  declared : ∀ name, (members.declarations.get name).isSome = true ↔
    ∃ item ∈ items, directName item.1 = some name

theorem Tracks.empty : Tracks [] (Members.empty : Members ν) := by
  refine ⟨⟨by simp, fun name v h => ?_, .nil⟩, fun name => ?_⟩
  · cases h
  · simp [Members.empty, SortedMap.get_empty]

/-- One more declaration with a name of its own. -/
theorem Known.snoc {items : List (Item ν)} {m : SortedMap Name ν} (h : Known items m)
    {node : GreenNode} {name : Name} {v : ν} (hname : directName node = some name)
    (hnew : ∀ item ∈ items, directName item.1 ≠ some name) :
    Known (items ++ [(node, some v)]) (m.insert name v) where
  each := by
    intro item hitem
    rcases List.mem_append.mp hitem with hitem | hitem
    · obtain ⟨other, w, hother, hw, hget⟩ := h.each item hitem
      refine ⟨other, w, hother, hw, ?_⟩
      have hne : other ≠ name := by
        rintro rfl
        exact hnew item hitem hother
      rw [SortedMap.get_insert, if_neg hne]
      exact hget
    · obtain rfl := List.mem_singleton.mp hitem
      refine ⟨name, v, hname, rfl, ?_⟩
      rw [SortedMap.get_insert, if_pos rfl]
  only := by
    intro other w hget
    rw [SortedMap.get_insert] at hget
    split_ifs at hget with heq
    · refine ⟨_, List.mem_append_right _ (List.mem_singleton_self _), ?_, hget⟩
      rw [heq]
      exact hname
    · obtain ⟨item, hitem, hother, hw⟩ := h.only other w hget
      exact ⟨item, List.mem_append_left _ hitem, hother, hw⟩
  once := by
    rw [List.map_append, List.nodup_append]
    refine ⟨h.once, List.nodup_singleton _, ?_⟩
    intro a ha b hb hab
    obtain ⟨item, hitem, rfl⟩ := List.mem_map.mp ha
    obtain rfl := List.mem_singleton.mp hb
    exact hnew item hitem (hab.trans hname)

/-- A declaration is taken exactly when it is known and its name is new. -/
theorem insertMember_iff {items : List (Item ν)} {members : Members ν} (h : Tracks items members)
    (item : Item ν) :
    ((insertMember context cls kind item.1 item.2 members).2.2 = true ↔
      Fit context item ∧ ∀ earlier ∈ items, directName earlier.1 ≠ directName item.1) ∧
    ((insertMember context cls kind item.1 item.2 members).2.2 = true →
      Tracks (items ++ [item]) (insertMember context cls kind item.1 item.2 members).1) := by
  obtain ⟨node, member⟩ := item
  cases hname : directName node with
  | none => simp [insertMember, Fit, hname]
  | some name =>
    have hdeclared := h.declared name
    cases hfirst : members.declarations.get name with
    | some first =>
      rw [hfirst] at hdeclared
      obtain ⟨earlier, hearlier, hsame⟩ := hdeclared.mp rfl
      simp only [insertMember, hname, hfirst]
      refine ⟨⟨fun hno => (by cases hno), fun hnew => ?_⟩, fun hno => (by cases hno)⟩
      exact absurd hsame (hnew.2 earlier hearlier)
    | none =>
      rw [hfirst] at hdeclared
      have hnew : ∀ earlier ∈ items, directName earlier.1 ≠ some name := by
        intro earlier hearlier hsame
        have hsome := hdeclared.mpr ⟨earlier, hearlier, hsame⟩
        cases hsome
      simp only [insertMember, Fit, hname, hfirst]
      cases hmalformed : context.malformedAt node with
      | true => simp
      | false =>
        cases hdiagnosed : context.diagnosed node.textRange with
        | true => simp
        | false =>
          cases member with
          | none => simp
          | some v =>
            have hfree : members.lowered.get name = none := by
              cases hget : members.lowered.get name with
              | none => rfl
              | some w =>
                obtain ⟨earlier, hearlier, hsame, -⟩ := h.known.only name w hget
                exact absurd hsame (hnew earlier hearlier)
            simp only [hfree, Bool.false_eq_true, if_false]
            refine ⟨⟨fun _ => ⟨⟨trivial, trivial, rfl, rfl⟩, hnew⟩, fun _ => rfl⟩, fun _ => ?_⟩
            refine ⟨h.known.snoc hname hnew, fun other => ?_⟩
            rw [SortedMap.get_insert]
            by_cases heq : other = name
            · subst heq
              simp [hname]
            · rw [if_neg heq, h.declared other]
              constructor
              · rintro ⟨earlier, hearlier, hsame⟩
                exact ⟨earlier, List.mem_append_left _ hearlier, hsame⟩
              · rintro ⟨earlier, hearlier, hsame⟩
                rcases List.mem_append.mp hearlier with hearlier | hearlier
                · exact ⟨earlier, hearlier, hsame⟩
                · obtain rfl := List.mem_singleton.mp hearlier
                  exact absurd (Option.some.inj (hsame.symm.trans hname)) heq

/-- All the declarations of one sort, from the first one on. Says whether each of
them was taken. -/
def insertAll (context : LoweringContext) (cls : QName) (kind : MemberDeclarationKind) :
    List (Item ν) → Members ν → Members ν × Bool
  | [], members => (members, true)
  | item :: rest, members =>
    let (members, _, inserted) := insertMember context cls kind item.1 item.2 members
    let (members, all) := insertAll context cls kind rest members
    (members, inserted && all)

theorem insertAll_iff {before : List (Item ν)} {members : Members ν} (h : Tracks before members)
    (items : List (Item ν)) :
    ((insertAll context cls kind items members).2 = true ↔
      (∀ item ∈ items, Fit context item) ∧
        ((before ++ items).map fun item => directName item.1).Nodup) ∧
    ((insertAll context cls kind items members).2 = true →
      Tracks (before ++ items) (insertAll context cls kind items members).1) := by
  induction items generalizing before members with
  | nil =>
    rw [List.append_nil]
    exact ⟨⟨fun _ => ⟨by simp, h.known.once⟩, fun _ => rfl⟩, fun _ => h⟩
  | cons item rest ih =>
    obtain ⟨htaken, htracks⟩ := @insertMember_iff ν context cls kind _ _ h item
    simp only [insertAll, Bool.and_eq_true]
    rw [htaken]
    have hmove : before ++ item :: rest = (before ++ [item]) ++ rest := by simp
    constructor
    · constructor
      · rintro ⟨⟨hfit, hnew⟩, hall⟩
        obtain ⟨hrest, hnodup⟩ := (ih (htracks (htaken.mpr ⟨hfit, hnew⟩))).1.mp hall
        rw [hmove]
        exact ⟨List.forall_mem_cons.mpr ⟨hfit, hrest⟩, hnodup⟩
      · rintro ⟨hfits, hnodup⟩
        obtain ⟨hfit, hrest⟩ := List.forall_mem_cons.mp hfits
        have hnew : ∀ earlier ∈ before, directName earlier.1 ≠ directName item.1 := by
          intro earlier hearlier
          rw [List.map_append, List.nodup_append] at hnodup
          exact hnodup.2.2 _ (List.mem_map_of_mem hearlier) _ (by simp)
        rw [hmove] at hnodup
        exact ⟨⟨hfit, hnew⟩, (ih (htracks (htaken.mpr ⟨hfit, hnew⟩))).1.mpr ⟨hrest, hnodup⟩⟩
    · rintro ⟨hone, hall⟩
      rw [hmove]
      exact (ih (htracks (htaken.mpr hone))).2 hall

end

/-! ## The members of a class -/

def Opaque (member : GreenNode) : Prop :=
  member.kind = .Node .DomainOpaqueNode ∨ member.kind = .Node .ErrorNode

/-- The annotations that wait behind a member. -/
def annotationsBehind (pending : AnnotationFacts) (member : GreenNode) : AnnotationFacts :=
  if member.kind = .Node .DomainStereotypeApplications then pending.merge (annotationFacts member)
  else if member.kind = .Node .DomainOpaqueNode ∨ member.kind = .Node .ErrorNode ∨
      member.kind = .Node .DomainPropertyDecl ∨ member.kind = .Node .DomainQualifiedPropertyDecl then
    .default
  else pending

def propertyItems (members : List GreenNode) : List (Item PropInfo) :=
  (members.filter (·.kind = .Node .DomainPropertyDecl)).map fun node => (node, lowerProperty node)

/-- The qualified properties, each with the annotations that stand before it. -/
def qualifiedItems (context : LoweringContext) (pending : AnnotationFacts) :
    List GreenNode → List (Item QpInfo)
  | [] => []
  | member :: rest =>
    let items := qualifiedItems context (annotationsBehind pending member) rest
    if member.kind = .Node .DomainQualifiedPropertyDecl then
      (member, lowerQualifiedProperty context pending member) :: items
    else items

/-- The two sorts of members do not get in each other's way. -/
theorem memberTurns_eq (context : LoweringContext) (cls : QName) (members : List GreenNode)
    (s : MemberState) :
    let s' := members.foldl (memberTurn context cls) s
    let properties := insertAll context cls .Property (propertyItems members) s.members.properties
    let qualified_properties := insertAll context cls .QualifiedProperty
      (qualifiedItems context s.pending_annotations members) s.members.qualified_properties
    s'.members.properties = properties.1 ∧
      s'.members.qualified_properties = qualified_properties.1 ∧
      (s'.coverage_gap = false ↔ s.coverage_gap = false ∧ (∀ member ∈ members, ¬Opaque member) ∧
        properties.2 = true ∧ qualified_properties.2 = true) := by
  induction members generalizing s with
  | nil => simp [propertyItems, qualifiedItems, insertAll]
  | cons member rest ih =>
    obtain ⟨hproperties, hqualified, hgap⟩ := ih (memberTurn context cls s member)
    simp only [List.foldl_cons, hproperties, hqualified, hgap, List.forall_mem_cons]
    by_cases hopaque : Opaque member
    · have hturn : memberTurn context cls s member =
          { s with coverage_gap := true, pending_annotations := .default } := if_pos hopaque
      rcases hopaque with hkind | hkind
      · simp [hturn, propertyItems, qualifiedItems, annotationsBehind, Opaque, hkind]
      · simp [hturn, propertyItems, qualifiedItems, annotationsBehind, Opaque, hkind]
    · by_cases hstereotypes : member.kind = .Node .DomainStereotypeApplications
      · simp [memberTurn, propertyItems, qualifiedItems, annotationsBehind, Opaque, hstereotypes]
      · by_cases hproperty : member.kind = .Node .DomainPropertyDecl
        · simp [memberTurn, insertProperty, propertyItems, qualifiedItems, annotationsBehind, Opaque,
            insertAll, hproperty]
          tauto
        · by_cases hqualified : member.kind = .Node .DomainQualifiedPropertyDecl
          · simp [memberTurn, insertQualifiedProperty, propertyItems, qualifiedItems,
              annotationsBehind, Opaque, insertAll, hqualified]
            tauto
          · obtain ⟨hnode, herror⟩ := not_or.mp hopaque
            simp [memberTurn, propertyItems, qualifiedItems, annotationsBehind, Opaque, hnode, herror,
              hstereotypes, hproperty, hqualified]

/-! ## Ranges -/

theorem touches_outer {x inner outer : TextRange} (hstart : outer.start ≤ inner.start)
    (hstop : inner.stop ≤ outer.stop) (h : rangesTouchOrOverlap x inner = true) :
    rangesTouchOrOverlap x outer = true := by
  simp only [rangesTouchOrOverlap, Bool.and_eq_true, decide_eq_true_eq] at h ⊢
  omega

theorem untouched_iff (context : LoweringContext) (node : GreenNode) :
    context.nodeHasCoverageGap node = false ↔
      (∀ gap ∈ context.gaps, rangesTouchOrOverlap gap.span node.textRange = false) ∧
        ∀ d ∈ context.parser_diagnostics,
          rangesTouchOrOverlap d.primary.span node.textRange = false := by
  simp [LoweringContext.nodeHasCoverageGap, LoweringContext.diagnosed]

/-- What nothing touches has nothing against its parts. -/
theorem untouched_inner {context : LoweringContext} {node inner : GreenNode}
    (h : context.nodeHasCoverageGap node = false)
    (hin : node.textRange.start ≤ inner.textRange.start ∧
      inner.textRange.stop ≤ node.textRange.stop) :
    context.nodeHasCoverageGap inner = false ∧ context.malformedAt inner = false ∧
      context.diagnosed inner.textRange = false := by
  obtain ⟨hgaps, hdiagnostics⟩ := (untouched_iff context node).mp h
  have hgaps' : ∀ gap ∈ context.gaps, rangesTouchOrOverlap gap.span inner.textRange = false :=
    fun gap hgap => Bool.eq_false_iff.mpr fun htouch =>
      Bool.eq_false_iff.mp (hgaps gap hgap) (touches_outer hin.1 hin.2 htouch)
  have hdiagnostics' : ∀ d ∈ context.parser_diagnostics,
      rangesTouchOrOverlap d.primary.span inner.textRange = false :=
    fun d hd => Bool.eq_false_iff.mpr fun htouch =>
      Bool.eq_false_iff.mp (hdiagnostics d hd) (touches_outer hin.1 hin.2 htouch)
  refine ⟨(untouched_iff context inner).mpr ⟨hgaps', hdiagnostics'⟩, ?_, ?_⟩
  · refine Bool.eq_false_iff.mpr fun hmalformed => ?_
    obtain ⟨gap, hgap, hstart⟩ := List.any_eq_true.mp hmalformed
    simp only [Bool.and_eq_true, decide_eq_true_eq] at hstart
    refine Bool.eq_false_iff.mp (hgaps' gap hgap) ?_
    have hordered := gap.span.ordered
    have hordered' := inner.textRange.ordered
    simp only [rangesTouchOrOverlap, Bool.and_eq_true, decide_eq_true_eq]
    omega
  · simpa [LoweringContext.diagnosed] using hdiagnostics'

/-- What stands below a child stands below its node. -/
theorem below_childNodes {node child : GreenNode} (h : child ∈ node.childNodes) :
    (∀ inner ∈ child.nodes, inner ∈ nodesOf node.children) ∧
      ∀ token ∈ child.tokens, token ∈ tokensOf node.children := by
  obtain ⟨kind, children, range⟩ := node
  obtain ⟨element, helement, hchild⟩ := List.mem_filterMap.mp h
  replace helement : element ∈ children := helement
  show (∀ inner ∈ child.nodes, inner ∈ nodesOf children) ∧
    ∀ token ∈ child.tokens, token ∈ tokensOf children
  clear h
  induction children with
  | nil => cases helement
  | cons first rest ih =>
    rcases List.mem_cons.mp helement with rfl | hrest
    · cases element with
      | Token token => cases hchild
      | Node node =>
        obtain rfl := Option.some.inj hchild
        exact ⟨fun inner hinner => List.mem_append_left _ hinner,
          fun token htoken => List.mem_append_left _ htoken⟩
    · obtain ⟨hnodes, htokens⟩ := ih hrest
      cases first with
      | Token token => exact ⟨hnodes, fun token htoken => List.mem_cons_of_mem _ (htokens token htoken)⟩
      | Node node =>
        exact ⟨fun inner hinner => List.mem_append_right _ (hnodes inner hinner),
          fun token htoken => List.mem_append_right _ (htokens token htoken)⟩

theorem mem_nodes_self (node : GreenNode) : node ∈ node.nodes := by
  obtain ⟨kind, children, range⟩ := node
  exact List.mem_cons_self

theorem mem_childNodes {node child : GreenNode} (h : child ∈ node.childNodes) :
    child ∈ node.nodes := by
  have hbelow := (below_childNodes h).1 child (mem_nodes_self child)
  obtain ⟨kind, children, range⟩ := node
  exact List.mem_cons_of_mem _ hbelow

theorem directNodes_child {node child : GreenNode} {kind : NodeKind}
    (h : child ∈ directNodes node kind) : child ∈ node.childNodes := List.mem_of_mem_filter h

theorem memberNodes_child {node member : GreenNode} {name_index : Nat}
    (h : member ∈ memberNodes node name_index) : member ∈ node.childNodes := by
  obtain ⟨element, helement, hmember⟩ := List.mem_filterMap.mp h
  exact List.mem_filterMap.mpr ⟨element, List.mem_of_mem_drop helement, hmember⟩

/-! ## The reading of a class -/

/-- The supertypes that a declaration names. -/
def NamesSupertypes (decl : GreenNode) (supertypes : List QName) : Prop :=
  ((directNodes decl .DomainExtendsClause).head? = none ∧ supertypes = []) ∨
    ∃ clause, (directNodes decl .DomainExtendsClause).head? = some clause ∧ supertypes ≠ [] ∧
      (directNodes clause .DomainQualifiedName).mapM qnameFromNode = some supertypes

/-- The class says what its declaration says, and every part of it is known. -/
structure Reads (context : LoweringContext) (decl : GreenNode) (name_index : Nat)
    (cls : ClassInfo) : Prop where
  path : declarationPath decl = some (cls.path, name_index)
  untouched : context.nodeHasCoverageGap decl = false
  supertypes : NamesSupertypes decl cls.supertypes
  temporal : (annotationsBefore decl name_index).temporal = cls.temporal ∧
    (annotationsBefore decl name_index).temporal_uncertain = false
  understood : ∀ member ∈ memberNodes decl name_index, ¬Opaque member
  properties : Known (propertyItems (memberNodes decl name_index)) cls.properties
  qualified_properties : Known (qualifiedItems context .default (memberNodes decl name_index))
    cls.qualified_properties
  provenance : cls.provenance = .PureFile
  source : cls.source = context.source
  span : cls.declaration_span = some decl.textRange
  complete : cls.coverage_gap = false

theorem lowerSupertypes_iff {context : LoweringContext} {decl : GreenNode}
    (hencloses : Encloses decl) (huntouched : context.nodeHasCoverageGap decl = false)
    (supertypes : List QName) :
    lowerSupertypes context decl = (supertypes, false) ↔ NamesSupertypes decl supertypes := by
  unfold lowerSupertypes NamesSupertypes
  cases hclause : (directNodes decl .DomainExtendsClause).head? with
  | none => simp [eq_comm]
  | some clause =>
    have hchild := directNodes_child (List.mem_of_head? hclause)
    have hfree := (untouched_inner huntouched (hencloses.nodes _ (mem_childNodes hchild))).1
    simp only [hfree]
    cases hnames : (directNodes clause .DomainQualifiedName).mapM qnameFromNode with
    | none => simp [hnames]
    | some names =>
      simp only [Option.some.injEq, Bool.false_eq_true, if_false]
      constructor
      · intro h
        obtain ⟨rfl, hempty⟩ := Prod.mk.inj h
        refine .inr ⟨clause, rfl, fun hnil => ?_, hnames⟩
        rw [hnil] at hempty
        cases hempty
      · rintro (⟨hno, -⟩ | ⟨_, rfl, hne, hsome⟩)
        · cases hno
        · obtain rfl := Option.some.inj (hnames.symm.trans hsome)
          cases names with
          | nil => exact absurd rfl hne
          | cons name names => rfl

/-- What the declarations say is one map. -/
theorem Known.unique {ν : Type} {items : List (Item ν)} {m m' : SortedMap Name ν}
    (h : Known items m) (h' : Known items m') : m = m' := by
  have hsub {m m' : SortedMap Name ν} (h : Known items m) (h' : Known items m') (name : Name)
      (v : ν) (hget : m.get name = some v) : m'.get name = some v := by
    obtain ⟨item, hitem, hname, hv⟩ := h.only name v hget
    obtain ⟨other, w, hother, hw, hget'⟩ := h'.each item hitem
    obtain rfl := Option.some.inj (hname.symm.trans hother)
    obtain rfl := Option.some.inj (hv.symm.trans hw)
    exact hget'
  exact SortedMap.ext_get fun name v => ⟨hsub h h' name v, hsub h' h name v⟩

theorem propertyItems_child {members : List GreenNode} {item : Item PropInfo}
    (h : item ∈ propertyItems members) : item.1 ∈ members := by
  obtain ⟨node, hnode, rfl⟩ := List.mem_map.mp h
  exact List.mem_of_mem_filter hnode

theorem qualifiedItems_child {context : LoweringContext} {pending : AnnotationFacts}
    {members : List GreenNode} {item : Item QpInfo}
    (h : item ∈ qualifiedItems context pending members) : item.1 ∈ members := by
  induction members generalizing pending with
  | nil => cases h
  | cons member rest ih =>
    rw [qualifiedItems] at h
    split_ifs at h
    · rcases List.mem_cons.mp h with rfl | h
      · exact List.mem_cons_self
      · exact List.mem_cons_of_mem _ (ih h)
    · exact List.mem_cons_of_mem _ (ih h)

/-- All the declarations of one sort are taken exactly when they are known, and then
the map has what they say. -/
theorem insertAll_known {ν : Type} {context : LoweringContext} {cls : QName}
    {kind : MemberDeclarationKind} {items : List (Item ν)}
    (hfree : ∀ item ∈ items, context.malformedAt item.1 = false ∧
      context.diagnosed item.1.textRange = false) (m : SortedMap Name ν) :
    ((insertAll context cls kind items .empty).2 = true ∧
      (insertAll context cls kind items .empty).1.lowered = m) ↔ Known items m := by
  obtain ⟨htaken, htracks⟩ := @insertAll_iff ν context cls kind _ _ Tracks.empty items
  rw [List.nil_append] at htaken htracks
  constructor
  · rintro ⟨hall, rfl⟩
    exact (htracks hall).known
  · intro hknown
    have hall : (insertAll context cls kind items .empty).2 = true := by
      refine htaken.mpr ⟨fun item hitem => ?_, hknown.once⟩
      obtain ⟨name, v, hname, hv, -⟩ := hknown.each item hitem
      refine ⟨(hfree item hitem).1, (hfree item hitem).2, ?_, ?_⟩
      · rw [hname]
        rfl
      · rw [hv]
        rfl
    exact ⟨hall, (htracks hall).known.unique hknown⟩

theorem classInfo_ext {c d : ClassInfo} (path : c.path = d.path)
    (supertypes : c.supertypes = d.supertypes) (temporal : c.temporal = d.temporal)
    (properties : c.properties = d.properties)
    (qualified_properties : c.qualified_properties = d.qualified_properties)
    (provenance : c.provenance = d.provenance) (source : c.source = d.source)
    (span : c.declaration_span = d.declaration_span) (gap : c.coverage_gap = d.coverage_gap) :
    c = d := by
  cases c
  cases d
  cases path
  cases supertypes
  cases temporal
  cases properties
  cases qualified_properties
  cases provenance
  cases source
  cases span
  cases gap
  rfl

/-- A class without a gap is the reading of its declaration. -/
theorem lowerClass_iff {context : LoweringContext} {decl : GreenNode} (hencloses : Encloses decl)
    (cls : DeclaredClass) :
    ((∃ diagnostics, lowerClass context decl = some (cls, diagnostics)) ∧
      cls.1.coverage_gap = false) ↔ ∃ name_index, Reads context decl name_index cls.1 := by
  have hfree {inner : GreenNode} (huntouched : context.nodeHasCoverageGap decl = false)
      (name_index : Nat) (h : inner ∈ memberNodes decl name_index) :
      context.malformedAt inner = false ∧ context.diagnosed inner.textRange = false :=
    (untouched_inner huntouched (hencloses.nodes _ (mem_childNodes (memberNodes_child h)))).2
  have hmembers (path : QName) (name_index : Nat) :=
    memberTurns_eq context path (memberNodes decl name_index) ⟨⟨.empty, .empty, []⟩, .default, false⟩
  constructor
  · rintro ⟨⟨diagnostics, hlowered⟩, hcomplete⟩
    obtain ⟨⟨path, name_index⟩, hpath, hlowered⟩ := Option.map_eq_some_iff.mp hlowered
    obtain ⟨rfl, -⟩ := Prod.mk.inj hlowered
    obtain ⟨hproperties, hqualified, hgap⟩ := hmembers path name_index
    simp only [Bool.or_eq_false_iff] at hcomplete
    obtain ⟨⟨⟨huntouched, huncertain⟩, hsupertypes⟩, hmember⟩ := hcomplete
    obtain ⟨-, hopaque, hall, hall'⟩ := hgap.mp hmember
    refine ⟨name_index, hpath, huntouched, ?_, ⟨rfl, huncertain⟩, hopaque, ?_, ?_, rfl, rfl, rfl, ?_⟩
    · exact (lowerSupertypes_iff hencloses huntouched _).mp (Prod.ext rfl hsupertypes)
    · refine (insertAll_known (fun item hitem =>
        hfree huntouched name_index (propertyItems_child hitem)) _).mp ⟨hall, ?_⟩
      exact (congrArg Members.lowered hproperties).symm
    · refine (insertAll_known (fun item hitem =>
        hfree huntouched name_index (qualifiedItems_child hitem)) _).mp ⟨hall', ?_⟩
      exact (congrArg Members.lowered hqualified).symm
    · simp only [Bool.or_eq_false_iff]
      exact ⟨⟨⟨huntouched, huncertain⟩, hsupertypes⟩, hmember⟩
  · rintro ⟨name_index, h⟩
    refine ⟨?_, h.complete⟩
    obtain ⟨hproperties, hqualified, hgap⟩ := hmembers cls.1.path name_index
    obtain ⟨hall, hmap⟩ := (@insertAll_known _ context cls.1.path .Property _
      (fun item hitem => hfree h.untouched name_index (propertyItems_child hitem)) _).mpr
        h.properties
    obtain ⟨hall', hmap'⟩ := (@insertAll_known _ context cls.1.path .QualifiedProperty _
      (fun item hitem => hfree h.untouched name_index (qualifiedItems_child hitem)) _).mpr
        h.qualified_properties
    have hmember := hgap.mpr ⟨rfl, h.understood, hall, hall'⟩
    have hsupertypes := (lowerSupertypes_iff hencloses h.untouched _).mpr h.supertypes
    refine ⟨_, Option.map_eq_some_iff.mpr ⟨_, h.path, Prod.ext (Subtype.ext ?_) rfl⟩⟩
    have hgaps : (context.nodeHasCoverageGap decl ||
        (annotationsBefore decl name_index).temporal_uncertain ||
        (lowerSupertypes context decl).2 ||
        (lowerClassMembers context cls.1.path name_index decl).coverage_gap) = false := by
      simp only [Bool.or_eq_false_iff]
      exact ⟨⟨⟨h.untouched, h.temporal.2⟩, congrArg Prod.snd hsupertypes⟩, hmember⟩
    rw [← hproperties] at hmap
    rw [← hqualified] at hmap'
    exact classInfo_ext rfl (congrArg Prod.fst hsupertypes) h.temporal.1 hmap hmap' h.provenance.symm
      h.source.symm h.span.symm (hgaps.trans h.complete.symm)

theorem Reads.declared {context : LoweringContext} {decl : GreenNode} {name_index : Nat}
    {cls : ClassInfo} (h : Reads context decl name_index cls) :
    (FragmentElement.Class cls).Declared := by
  intro name p hget
  obtain ⟨item, hitem, -, hp⟩ := h.properties.only name p hget
  obtain ⟨node, -, rfl⟩ := List.mem_map.mp hitem
  exact lowerProperty_declared hp

/-! ## The declarations of a file -/

/-- What a node of the file declares. -/
def declared (node : GreenNode) : Option TopLevelDeclaration :=
  if node.kind = .Node .DomainClassDecl then topLevelDeclaration .Class node
  else if node.kind = .Node .DomainAssociationDecl then topLevelDeclaration .Association node
  else none

def classesOf (context : LoweringContext) (nodes : List GreenNode) : List DeclaredClass :=
  (nodes.filter (·.kind = .Node .DomainClassDecl)).filterMap fun node =>
    (lowerClass context node).map Prod.fst

def associationsOf (context : LoweringContext) (nodes : List GreenNode) : List AssocDraft :=
  (nodes.filter (·.kind = .Node .DomainAssociationDecl)).filterMap (lowerAssociation context)

/-- Every declaration among the nodes is known as far as the source goes. -/
def Lowered (context : LoweringContext) (nodes : List GreenNode) : Prop :=
  (∀ node ∈ nodes, node.kind = .Node .DomainClassDecl → (declarationPath node).isSome = true) ∧
    ∀ node ∈ nodes, node.kind = .Node .DomainAssociationDecl →
      (lowerAssociation context node).isSome = true

theorem lowered_cons {context : LoweringContext} {node : GreenNode} {nodes : List GreenNode} :
    Lowered context (node :: nodes) ↔
      ((node.kind = .Node .DomainClassDecl → (declarationPath node).isSome = true) ∧
        (node.kind = .Node .DomainAssociationDecl →
          (lowerAssociation context node).isSome = true)) ∧ Lowered context nodes := by
  simp only [Lowered, List.forall_mem_cons]
  tauto

theorem declarationTurns_eq (context : LoweringContext) (nodes : List GreenNode) (s : DomainFacts) :
    let s' := nodes.foldl (declarationTurn context) s
    s'.class_entries = s.class_entries ++ classesOf context nodes ∧
      s'.association_entries = s.association_entries ++ associationsOf context nodes ∧
      s'.top_level_declarations = s.top_level_declarations ++ nodes.filterMap declared ∧
      (s'.source_wide_gap = false ↔ s.source_wide_gap = false ∧ Lowered context nodes) := by
  induction nodes generalizing s with
  | nil => simp [classesOf, associationsOf, Lowered]
  | cons node nodes ih =>
    obtain ⟨hclasses, hassociations, hdeclarations, hgap⟩ := ih (declarationTurn context s node)
    rw [List.foldl_cons, lowered_cons]
    simp only [hclasses, hassociations, hdeclarations, hgap]
    by_cases hclass : node.kind = .Node .DomainClassDecl
    · have hdeclared : declared node = topLevelDeclaration .Class node := if_pos hclass
      cases hlowered : lowerClass context node with
      | none =>
        have hpath : declarationPath node = none := by simpa [lowerClass] using hlowered
        simp [declarationTurn, classesOf, associationsOf, hclass, hlowered, hpath, hdeclared,
          topLevelDeclaration]
      | some entry =>
        obtain ⟨found, hpath, -⟩ := Option.map_eq_some_iff.mp hlowered
        simp [declarationTurn, classesOf, associationsOf, hclass, hlowered, hpath, hdeclared,
          topLevelDeclaration]
    · by_cases hassociation : node.kind = .Node .DomainAssociationDecl
      · have hdeclared : declared node = topLevelDeclaration .Association node := by
          simp [declared, hassociation]
        have hfront : (topLevelDeclaration .Association node).toList ++ nodes.filterMap declared =
            (node :: nodes).filterMap declared := by
          rw [List.filterMap_cons, hdeclared]
          cases topLevelDeclaration .Association node with
          | none => rfl
          | some declaration => rfl
        cases hlowered : lowerAssociation context node with
        | none =>
          simp [declarationTurn, classesOf, associationsOf, hassociation, hlowered, ← hfront]
        | some association =>
          simp [declarationTurn, classesOf, associationsOf, hassociation, hlowered, ← hfront]
      · have hdeclared : declared node = none := by simp [declared, hclass, hassociation]
        simp [declarationTurn, classesOf, associationsOf, hclass, hassociation, hdeclared]

/-! ## Paths that stand twice -/

theorem duplicates_grow (source : Nat) (declarations : List TopLevelDeclaration) (s : Duplicates) :
    ∃ more, (declarations.foldl (duplicateTurn source) s).duplicates = s.duplicates ++ more := by
  induction declarations generalizing s with
  | nil => exact ⟨[], (List.append_nil _).symm⟩
  | cons declaration declarations ih =>
    obtain ⟨more, hmore⟩ := ih (duplicateTurn source s declaration)
    rw [List.foldl_cons, hmore, duplicateTurn]
    cases s.first_declarations.get declaration.path with
    | none => exact ⟨more, rfl⟩
    | some first => exact ⟨declaration.path :: more, by simp⟩

/-- No path is a duplicate exactly when the paths are different. -/
theorem duplicates_nil_iff (source : Nat) {declarations : List TopLevelDeclaration}
    {seen : List QName} {s : Duplicates} (hseen : seen.Nodup)
    (hfirst : ∀ path, (s.first_declarations.get path).isSome = true ↔ path ∈ seen) :
    (declarations.foldl (duplicateTurn source) s).duplicates = [] ↔
      s.duplicates = [] ∧ (seen ++ declarations.map TopLevelDeclaration.path).Nodup := by
  induction declarations generalizing seen s with
  | nil => simp [hseen]
  | cons declaration declarations ih =>
    rw [List.foldl_cons, List.map_cons]
    by_cases hmem : declaration.path ∈ seen
    · obtain ⟨first, hget⟩ := Option.isSome_iff_exists.mp ((hfirst _).mpr hmem)
      obtain ⟨more, hmore⟩ := duplicates_grow source declarations (duplicateTurn source s declaration)
      have hne : (duplicateTurn source s declaration).duplicates ≠ [] := by
        rw [duplicateTurn, hget]
        simp
      rw [hmore, List.append_eq_nil_iff]
      constructor
      · rintro ⟨hnil, -⟩
        exact absurd hnil hne
      · rintro ⟨-, hnodup⟩
        rw [List.nodup_append] at hnodup
        exact absurd rfl (hnodup.2.2 _ hmem _ List.mem_cons_self)
    · have hget : s.first_declarations.get declaration.path = none := by
        cases hget : s.first_declarations.get declaration.path with
        | none => rfl
        | some first => exact absurd ((hfirst _).mp (by rw [hget]; rfl)) hmem
      have hturn : duplicateTurn source s declaration =
          { s with first_declarations :=
              s.first_declarations.insert declaration.path declaration } := by
        rw [duplicateTurn, hget]
      have hseen' : (seen ++ [declaration.path]).Nodup := by
        rw [List.nodup_append]
        refine ⟨hseen, List.nodup_singleton _, fun a ha b hb hab => hmem ?_⟩
        obtain rfl := List.mem_singleton.mp hb
        rwa [← hab]
      rw [hturn, ih hseen']
      · simp
      · intro path
        rw [SortedMap.get_insert, List.mem_append, List.mem_singleton]
        by_cases hpath : path = declaration.path
        · simp [hpath]
        · simp [hpath, hfirst path]

theorem duplicateTopLevelPaths_nil (declarations : List TopLevelDeclaration) (source : Nat) :
    (duplicateTopLevelPaths declarations source).1 = [] ↔
      (declarations.map TopLevelDeclaration.path).Nodup := by
  have h := @duplicates_nil_iff source declarations [] ⟨SortedMap.empty, [], []⟩ .nil
    fun path => by simp [SortedMap.get_empty]
  simpa [duplicateTopLevelPaths] using h

/-! ## The elements of a file -/

theorem get_insert (elements : Elements) (element : FragmentElement) (h : element.Declared)
    (path : QName) : (elements.insert element h).map.get path =
      if path = element.path then some element else elements.map.get path :=
  SortedMap.get_insert _ _ _ _

/-- A complete class among the elements was put in as it is, and nothing speaks
against the source as a whole. -/
theorem insertClasses_origin {duplicate_paths : List QName} {source_wide_gap : Bool}
    {classes : List DeclaredClass} {path : QName} {cls : ClassInfo}
    (hget : (classes.foldl (insertClass duplicate_paths source_wide_gap)
      Elements.empty).map.get path = some (.Class cls)) (hcomplete : cls.coverage_gap = false) :
    source_wide_gap = false ∧ ∃ entry ∈ classes, entry.1 = cls := by
  have hfold (classes : List DeclaredClass) (elements : Elements) (seen : List DeclaredClass)
      (h : ∀ path cls, elements.map.get path = some (.Class cls) → cls.coverage_gap = false →
        source_wide_gap = false ∧ ∃ entry ∈ seen, entry.1 = cls) :
      ∀ path cls, (classes.foldl (insertClass duplicate_paths source_wide_gap) elements).map.get
        path = some (.Class cls) → cls.coverage_gap = false →
          source_wide_gap = false ∧ ∃ entry ∈ seen ++ classes, entry.1 = cls := by
    induction classes generalizing elements seen with
    | nil => simpa using h
    | cons entry classes ih =>
      intro path cls hget hcomplete
      have hnext := ih (insertClass duplicate_paths source_wide_gap elements entry)
        (seen ++ [entry]) ?_ path cls hget hcomplete
      · simpa using hnext
      · intro path cls hget hcomplete
        have hkept (hold : elements.map.get path = some (.Class cls)) :
            source_wide_gap = false ∧ ∃ entry' ∈ seen ++ [entry], entry'.1 = cls := by
          obtain ⟨hgap, entry', hmem, heq⟩ := h path cls hold hcomplete
          exact ⟨hgap, entry', List.mem_append_left _ hmem, heq⟩
        unfold insertClass at hget
        split_ifs at hget with hduplicate hgap
        · exact hkept hget
        · rw [get_insert] at hget
          split_ifs at hget with hpath
          · obtain rfl : entry.1.markCoverageGap = cls :=
              FragmentElement.Class.inj (Option.some.inj hget)
            cases hcomplete
          · exact hkept hget
        · rw [get_insert] at hget
          split_ifs at hget with hpath
          · exact ⟨Bool.eq_false_iff.mpr hgap, entry, by simp,
              FragmentElement.Class.inj (Option.some.inj hget)⟩
          · exact hkept hget
  have hstart := hfold classes Elements.empty [] (fun path cls hget => by cases hget) path cls hget
    hcomplete
  rwa [List.nil_append] at hstart

theorem insertAssociations_class {duplicate_paths : List QName} {associations : List AssocDraft}
    {elements : Elements} {path : QName} {cls : ClassInfo}
    (hget : (associations.foldl (insertAssociation duplicate_paths) elements).map.get path =
      some (.Class cls)) : elements.map.get path = some (.Class cls) := by
  induction associations generalizing elements with
  | nil => exact hget
  | cons association associations ih =>
    have hbefore := ih hget
    unfold insertAssociation at hbefore
    split_ifs at hbefore
    · exact hbefore
    · rw [get_insert] at hbefore
      split_ifs at hbefore
      · cases hbefore
      · exact hbefore

/-- Elements with other paths do not get in the way. -/
theorem insertClasses_frame {classes : List DeclaredClass} {elements : Elements} {path : QName}
    (h : ∀ entry ∈ classes, entry.1.path ≠ path) :
    (classes.foldl (insertClass [] false) elements).map.get path = elements.map.get path := by
  induction classes generalizing elements with
  | nil => rfl
  | cons entry classes ih =>
    obtain ⟨hentry, hclasses⟩ := List.forall_mem_cons.mp h
    rw [List.foldl_cons, ih hclasses]
    exact (get_insert elements (.Class entry.1) entry.2 path).trans (if_neg (Ne.symm hentry))

theorem insertAssociations_frame {associations : List AssocDraft} {elements : Elements}
    {path : QName} (h : ∀ association ∈ associations, association.path ≠ path) :
    (associations.foldl (insertAssociation []) elements).map.get path = elements.map.get path := by
  induction associations generalizing elements with
  | nil => rfl
  | cons association associations ih =>
    obtain ⟨hassociation, hassociations⟩ := List.forall_mem_cons.mp h
    rw [List.foldl_cons, ih hassociations]
    exact (get_insert elements (.Association association) (declared_association association)
      path).trans (if_neg (Ne.symm hassociation))

/-! ## Complete classes -/

/-- Every declaration of the file is known, and the paths are different. -/
structure Understood (context : LoweringContext) (file : GreenNode) : Prop where
  supported : ¬HasGap context.gaps .UnsupportedTopLevel
  lowered : Lowered context file.childNodes
  once : ((file.childNodes.filterMap declared).map TopLevelDeclaration.path).Nodup

theorem mem_classesOf {context : LoweringContext} {nodes : List GreenNode} {entry : DeclaredClass} :
    entry ∈ classesOf context nodes ↔ ∃ node ∈ nodes, node.kind = .Node .DomainClassDecl ∧
      ∃ diagnostics, lowerClass context node = some (entry, diagnostics) := by
  simp [classesOf, and_assoc]

theorem declared_of_class {context : LoweringContext} {node : GreenNode} {entry : DeclaredClass}
    {diagnostics : List Diagnostic} (hkind : node.kind = .Node .DomainClassDecl)
    (h : lowerClass context node = some (entry, diagnostics)) :
    declared node = some ⟨entry.1.path, .Class, node.textRange⟩ := by
  obtain ⟨⟨path, name_index⟩, hpath, hentry⟩ := Option.map_eq_some_iff.mp h
  obtain ⟨rfl, -⟩ := Prod.mk.inj hentry
  rw [declared, if_pos hkind, topLevelDeclaration, hpath]
  rfl

theorem declared_of_association {context : LoweringContext} {node : GreenNode}
    {association : AssocDraft} (hkind : node.kind = .Node .DomainAssociationDecl)
    (h : lowerAssociation context node = some association) :
    declared node = some ⟨association.path, .Association, node.textRange⟩ := by
  have hclass : node.kind ≠ .Node .DomainClassDecl := by simp [hkind]
  unfold lowerAssociation at h
  split_ifs at h
  obtain ⟨⟨path, name_index⟩, hpath, h⟩ := Option.bind_eq_some_iff.mp h
  dsimp only at h
  split_ifs at h
  split at h
  · obtain rfl := Option.some.inj h
    rw [declared, if_neg hclass, if_pos hkind, topLevelDeclaration, hpath]
    rfl
  · cases h

/-- Two nodes declare different paths, if they declare any. -/
def Apart (a b : GreenNode) : Prop :=
  ∀ da, declared a = some da → ∀ db, declared b = some db → da.path ≠ db.path

instance : Std.Symm Apart := ⟨fun _ _ hab da hda db hdb => (hab db hdb da hda).symm⟩

theorem Understood.apart {context : LoweringContext} {file : GreenNode}
    (h : Understood context file) : file.childNodes.Pairwise Apart := by
  have honce := h.once
  rw [List.Nodup, List.pairwise_map, List.pairwise_filterMap] at honce
  exact honce

/-- The class of one declaration is among the elements when the file is understood. -/
theorem Understood.get {context : LoweringContext} {file node : GreenNode}
    (h : Understood context file) (hnode : node ∈ file.childNodes)
    (hkind : node.kind = .Node .DomainClassDecl) {entry : DeclaredClass}
    {diagnostics : List Diagnostic}
    (hlowered : lowerClass context node = some (entry, diagnostics)) :
    ((associationsOf context file.childNodes).foldl (insertAssociation [])
      ((classesOf context file.childNodes).foldl (insertClass [] false) Elements.empty)).map.get
        entry.1.path = some (.Class entry.1) := by
  have hdeclared := declared_of_class hkind hlowered
  rw [insertAssociations_frame]
  · obtain ⟨front, back, hsplit⟩ := List.append_of_mem
      (mem_classesOf.mpr ⟨node, hnode, hkind, diagnostics, hlowered⟩)
    have hpairs : (classesOf context file.childNodes).Pairwise fun a b => a.1.path ≠ b.1.path := by
      rw [classesOf, List.pairwise_filterMap]
      refine (h.apart.filter _).imp_of_mem fun {a b} ha hb hab c hc d hd => ?_
      obtain ⟨_, hone, rfl⟩ := Option.map_eq_some_iff.mp hc
      obtain ⟨_, htwo, rfl⟩ := Option.map_eq_some_iff.mp hd
      exact hab _ (declared_of_class (of_decide_eq_true (List.mem_filter.mp ha).2) hone) _
        (declared_of_class (of_decide_eq_true (List.mem_filter.mp hb).2) htwo)
    rw [hsplit, List.pairwise_append, List.pairwise_cons] at hpairs
    rw [hsplit, List.foldl_append, List.foldl_cons,
      insertClasses_frame fun other hother => (hpairs.2.1.1 other hother).symm]
    exact (get_insert _ (.Class entry.1) entry.2 entry.1.path).trans (if_pos rfl)
  · intro association hassociation hpath
    obtain ⟨other, hother, hlowered'⟩ := List.mem_filterMap.mp hassociation
    obtain ⟨hother, hkind'⟩ := List.mem_filter.mp hother
    have hkind' : other.kind = .Node .DomainAssociationDecl := of_decide_eq_true hkind'
    have hne : node ≠ other := by
      rintro rfl
      simp [hkind] at hkind'
    exact h.apart.forall hnode hother hne _ hdeclared _
      (declared_of_association hkind' hlowered') hpath.symm

/-- The elements have a complete class under a path exactly when the file is understood
and one of its declarations reads as this class. -/
theorem complete_class_iff {context : LoweringContext} {root : GreenNode}
    (hencloses : ∀ file, findDomainFile root = some file → ∀ decl ∈ file.childNodes, Encloses decl)
    (path : QName) (cls : ClassInfo) :
    ((lowerDomain context root).1.map.get path = some (.Class cls) ∧ cls.coverage_gap = false) ↔
      ∃ file, findDomainFile root = some file ∧ Understood context file ∧
        ∃ decl ∈ directNodes file .DomainClassDecl, cls.path = path ∧
          ∃ name_index, Reads context decl name_index cls := by
  unfold lowerDomain
  cases hfile : findDomainFile root with
  | none =>
    constructor
    · rintro ⟨hget, -⟩
      cases hget
    · rintro ⟨file, hno, -⟩
      cases hno
  | some file =>
    obtain ⟨hclasses, hassociations, hdeclarations, hgap⟩ :=
      declarationTurns_eq context file.childNodes
        ⟨context.gaps.any fun gap => gap.kind = .UnsupportedTopLevel, [], [], [], []⟩
    simp only [List.nil_append] at hclasses hassociations hdeclarations
    have hunsupported : (context.gaps.any fun gap => gap.kind = .UnsupportedTopLevel) = false ↔
        ¬HasGap context.gaps .UnsupportedTopLevel := by
      simp [HasGap]
    have hduplicates := duplicateTopLevelPaths_nil (file.childNodes.filterMap declared)
      context.source
    simp only [hclasses, hassociations, hdeclarations]
    constructor
    · rintro ⟨hget, hcomplete⟩
      obtain ⟨hwide, entry, hentry, rfl⟩ :=
        insertClasses_origin (insertAssociations_class hget) hcomplete
      simp only [Bool.or_eq_false_iff, Bool.not_eq_false', List.isEmpty_iff] at hwide
      obtain ⟨hsupported, hlowered⟩ := hgap.mp hwide.1
      obtain ⟨node, hnode, hkind, hlower⟩ := mem_classesOf.mp hentry
      have hreads := (lowerClass_iff (hencloses file hfile node hnode) entry).mp ⟨hlower, hcomplete⟩
      refine ⟨file, rfl, ⟨hunsupported.mp hsupported, hlowered, hduplicates.mp hwide.2⟩, node,
        List.mem_filter.mpr ⟨hnode, decide_eq_true hkind⟩, Elements.keyed _ _ _ hget, hreads⟩
    · rintro ⟨_, hfound, hunderstood, node, hnode, rfl, hreads⟩
      obtain rfl := Option.some.inj hfound
      obtain ⟨hnode, hkind⟩ := List.mem_filter.mp hnode
      have hkind := of_decide_eq_true hkind
      have hwide := hgap.mpr ⟨hunsupported.mpr hunderstood.supported, hunderstood.lowered⟩
      have hnone := hduplicates.mpr hunderstood.once
      obtain ⟨name_index, hread⟩ := hreads
      obtain ⟨⟨diagnostics, hlower⟩, hcomplete⟩ :=
        (lowerClass_iff (hencloses _ hfile node hnode) ⟨cls, hread.declared⟩).mpr ⟨name_index, hread⟩
      simp only [hwide, hnone, List.isEmpty_nil, Bool.not_true, Bool.or_self]
      exact ⟨hunderstood.get hnode hkind hlower, hcomplete⟩

end analyzer.pure_source
