-- The two loaders read stereotypes alike: what a Pure source says between angle
-- brackets and what a PMCD document says in a list comes to the same temporal kind
-- and the same mark of a generated property, or is refused by both.
import PureAnalyzer.PmcdSource

namespace analyzer.loader_parity

open fragments model cst loader pure_source pmcd_source attempts
open domain (spannedToken)

/-! ## Written stereotypes -/

/-- No separator stands in the names. -/
structure Plain (stereotype : RawStereotype) : Prop where
  profile_dot : 46 ∉ stereotype.profile
  profile_comma : 44 ∉ stereotype.profile
  value_comma : 44 ∉ stereotype.value

def writtenAtom (stereotype : RawStereotype) : Text := stereotype.profile ++ 46 :: stereotype.value

/-- Applications between angle brackets, without white space. -/
def written (stereotypes : List RawStereotype) : Text :=
  [60, 60] ++ [44].intercalate (stereotypes.map writtenAtom) ++ [62, 62]

theorem stripPrefix_iff {front text rest : Text} :
    stripPrefix front text = some rest ↔ text = front ++ rest := by
  unfold stripPrefix
  constructor
  · intro h
    split_ifs at h with hfront
    obtain ⟨tail, rfl⟩ := List.isPrefixOf_iff_prefix.mp hfront
    rw [List.drop_left] at h
    rw [Option.some.inj h]
  · rintro rfl
    rw [if_pos (List.isPrefixOf_iff_prefix.mpr (List.prefix_append _ _)), List.drop_left]

theorem stripSuffix_append (back text : Text) : stripSuffix back (text ++ back) = some text := by
  unfold stripSuffix
  rw [if_pos (List.isSuffixOf_iff_suffix.mpr (List.suffix_append _ _)), List.length_append,
    Nat.add_sub_cancel, List.take_left]

theorem stereotypeAtoms_written {stereotypes : List RawStereotype}
    (h : ∀ stereotype ∈ stereotypes, Plain stereotype) :
    stereotypeAtoms (written stereotypes) = stereotypes.map writtenAtom := by
  have hcontents : (stripPrefix [60, 60] (written stereotypes)).bind (stripSuffix [62, 62]) =
      some ([44].intercalate (stereotypes.map writtenAtom)) := by
    unfold written
    rw [List.append_assoc, stripPrefix_iff.mpr rfl, Option.bind_some, stripSuffix_append]
  unfold stereotypeAtoms
  rw [hcontents]
  cases stereotypes with
  | nil => rfl
  | cons first rest =>
    have hcomma : ∀ atom ∈ (first :: rest).map writtenAtom, (44 : UInt8) ∉ atom := by
      intro atom hatom
      obtain ⟨stereotype, hmem, rfl⟩ := List.mem_map.mp hatom
      have hplain := h stereotype hmem
      intro hin
      rcases List.mem_append.mp hin with hin | hin
      · exact hplain.profile_comma hin
      · rcases List.mem_cons.mp hin with hdot | hin
        · cases hdot
        · exact hplain.value_comma hin
    show (([44].intercalate ((first :: rest).map writtenAtom)).splitOn 44).filter _ = _
    rw [List.splitOn_intercalate 44 hcomma (by simp), List.filter_eq_self]
    intro atom hatom
    obtain ⟨stereotype, -, rfl⟩ := List.mem_map.mp hatom
    unfold writtenAtom
    cases stereotype.profile with
    | nil => rfl
    | cons byte rest => rfl

/-! ## Profiles -/

theorem split_at_dot {a b c d : Text} (ha : 46 ∉ a) (hc : 46 ∉ c) :
    a ++ 46 :: b = c ++ 46 :: d ↔ a = c ∧ b = d := by
  constructor
  · intro h
    induction a generalizing c with
    | nil =>
      cases c with
      | nil => exact ⟨rfl, (List.cons.inj h).2⟩
      | cons x c =>
        obtain ⟨rfl, -⟩ := List.cons.inj h
        exact absurd List.mem_cons_self hc
    | cons x a ih =>
      cases c with
      | nil =>
        obtain ⟨rfl, -⟩ := List.cons.inj h
        exact absurd List.mem_cons_self ha
      | cons y c =>
        obtain ⟨rfl, htail⟩ := List.cons.inj h
        obtain ⟨rfl, hb⟩ := ih (fun hmem => ha (List.mem_cons_of_mem _ hmem))
          (fun hmem => hc (List.mem_cons_of_mem _ hmem)) htail
        exact ⟨rfl, hb⟩
  · rintro ⟨rfl, rfl⟩
    rfl

/-- Two spellings of a profile, neither of which starts with the other. -/
structure Spellings (protocol qualified : Text) : Prop where
  protocol_dot : 46 ∉ protocol
  qualified_dot : 46 ∉ qualified
  apart : ¬protocol <+: qualified ∧ ¬qualified <+: protocol

theorem Spellings.not_front {protocol qualified : Text} (h : Spellings protocol qualified)
    (rest other : Text) : qualified ++ rest ≠ protocol ++ other := by
  intro heq
  have hprotocol : protocol <+: qualified ++ rest := ⟨other, heq.symm⟩
  rcases List.prefix_or_prefix_of_prefix hprotocol (List.prefix_append qualified rest) with hp | hp
  · exact h.apart.1 hp
  · exact h.apart.2 hp

/-- An atom of the profile, in one of its two spellings, is stripped to its value. -/
theorem stripProfilePrefix_written {protocol qualified : Text} (h : Spellings protocol qualified)
    {stereotype : RawStereotype} (hplain : Plain stereotype) :
    stripProfilePrefix (writtenAtom stereotype) protocol qualified =
      if stereotype.profile = qualified ∨ stereotype.profile = protocol then some stereotype.value
      else none := by
  have hstripped {profile rest : Text} (hdot : 46 ∉ profile)
      (hatom : writtenAtom stereotype = profile ++ rest) (value : Text) :
      stripPrefix [46] rest = some value ↔
        stereotype.profile = profile ∧ stereotype.value = value := by
    rw [stripPrefix_iff, List.singleton_append, ← split_at_dot hplain.profile_dot hdot]
    show rest = 46 :: value ↔ writtenAtom stereotype = profile ++ 46 :: value
    rw [hatom, List.append_cancel_left_eq]
  refine Option.ext fun value => ?_
  unfold stripProfilePrefix
  cases hprotocol : stripPrefix protocol (writtenAtom stereotype) with
  | some rest =>
    have hatom := stripPrefix_iff.mp hprotocol
    have hother : stereotype.profile ≠ qualified := by
      intro hprofile
      unfold writtenAtom at hatom
      rw [hprofile] at hatom
      exact h.not_front _ _ hatom
    rw [Option.some_or, Option.bind_some, hstripped h.protocol_dot hatom]
    simp [hother]
  | none =>
    have hother : stereotype.profile ≠ protocol := by
      intro hprofile
      have hfront : stripPrefix protocol (writtenAtom stereotype) = some (46 :: stereotype.value) :=
        stripPrefix_iff.mpr (by rw [← hprofile]; rfl)
      rw [hprotocol] at hfront
      cases hfront
    rw [Option.none_or]
    cases hqualified : stripPrefix qualified (writtenAtom stereotype) with
    | some rest =>
      rw [Option.bind_some, hstripped h.qualified_dot (stripPrefix_iff.mp hqualified)]
      simp [hother]
    | none =>
      have hneither : stereotype.profile ≠ qualified := by
        intro hprofile
        have hfront : stripPrefix qualified (writtenAtom stereotype) =
            some (46 :: stereotype.value) := stripPrefix_iff.mpr (by rw [← hprofile]; rfl)
        rw [hqualified] at hfront
        cases hfront
      simp [hother, hneither]

theorem temporal_spellings : Spellings TEMPORAL_PROFILE_PROTOCOL TEMPORAL_PROFILE :=
  ⟨by decide, by decide, by decide⟩

theorem milestoning_spellings : Spellings MILESTONING_PROFILE_PROTOCOL MILESTONING_PROFILE :=
  ⟨by decide, by decide, by decide⟩

/-! ## What some stereotypes come to -/

/-- The values that are said of the temporal profile. -/
def temporalValues (stereotypes : List RawStereotype) : List Text :=
  (stereotypes.filter fun stereotype => isTemporalProfile stereotype.profile).map
    RawStereotype.value

/-- Only one value of the temporal profile says a temporal kind. -/
def summary (values : List Text) (generated : Bool) : AnnotationFacts :=
  match values with
  | [] => ⟨none, false, generated⟩
  | [value] => ⟨temporalOf value, (temporalOf value).isNone, generated⟩
  | _ :: _ :: _ => ⟨none, true, generated⟩

def factsOf (stereotypes : List RawStereotype) : AnnotationFacts :=
  summary (temporalValues stereotypes) (isGeneratedMilestoningProperty stereotypes)

theorem merge_summary (values more : List Text) (generated generated' : Bool) :
    (summary values generated).merge (summary more generated') =
      summary (values ++ more) (generated || generated') := by
  rcases values with _ | ⟨value, _ | ⟨value', values⟩⟩
  · rcases more with _ | ⟨first, _ | ⟨second, more⟩⟩
    · rfl
    · cases hfirst : temporalOf first <;> simp [summary, AnnotationFacts.merge,
        AnnotationFacts.noteTemporal, hfirst]
    · rfl
  · rcases more with _ | ⟨first, _ | ⟨second, more⟩⟩
    · rfl
    · cases hvalue : temporalOf value <;> cases hfirst : temporalOf first <;>
        simp [summary, AnnotationFacts.merge, AnnotationFacts.noteTemporal, hvalue, hfirst]
    · rfl
  · rcases more with _ | ⟨first, _ | ⟨second, more⟩⟩
    · rfl
    · cases hfirst : temporalOf first <;> simp [summary, AnnotationFacts.merge,
        AnnotationFacts.noteTemporal, hfirst]
    · rfl

theorem merge_factsOf (stereotypes more : List RawStereotype) :
    (factsOf stereotypes).merge (factsOf more) = factsOf (stereotypes ++ more) := by
  unfold factsOf
  rw [merge_summary, temporalValues, temporalValues, temporalValues, List.filter_append,
    List.map_append, isGeneratedMilestoningProperty, isGeneratedMilestoningProperty,
    isGeneratedMilestoningProperty, List.any_append]

/-- The facts behind one more value of the temporal profile. -/
def noteValue (facts : AnnotationFacts) (value : Text) : AnnotationFacts :=
  match temporalOf value with
  | some temporal => facts.noteTemporal temporal
  | none => { facts with temporal := none, temporal_uncertain := true }

theorem merge_value (facts : AnnotationFacts) (value : Text) (generated : Bool) :
    facts.merge (summary [value] generated) =
      { noteValue facts value with
        generated := (noteValue facts value).generated || generated } := by
  unfold noteValue
  cases hvalue : temporalOf value with
  | none => simp [summary, AnnotationFacts.merge, hvalue]
  | some temporal =>
    simp only [summary, AnnotationFacts.merge, hvalue, AnnotationFacts.noteTemporal]
    cases hfound : facts.temporal with
    | some found => simp
    | none => cases huncertain : facts.temporal_uncertain <;> simp

/-- One more atom. -/
theorem noteAtom_written {stereotype : RawStereotype} (hplain : Plain stereotype)
    (before : List RawStereotype) :
    noteAtom (factsOf before) (writtenAtom stereotype) = factsOf (before ++ [stereotype]) := by
  have htemporal : temporalValue (writtenAtom stereotype) =
      if isTemporalProfile stereotype.profile then some stereotype.value else none := by
    unfold temporalValue isTemporalProfile
    rw [stripProfilePrefix_written temporal_spellings hplain]
    simp
  have hmilestoning : milestoningValue (writtenAtom stereotype) =
      if isMilestoningProfile stereotype.profile then some stereotype.value else none := by
    unfold milestoningValue isMilestoningProfile
    rw [stripProfilePrefix_written milestoning_spellings hplain]
    simp
  rw [← merge_factsOf]
  unfold noteAtom
  rw [htemporal, hmilestoning]
  generalize factsOf before = facts
  unfold factsOf temporalValues isGeneratedMilestoningProperty
  rw [List.filter_singleton, List.any_cons, List.any_nil, Bool.or_false]
  have hmark (marked : AnnotationFacts) :
      (if (if isMilestoningProfile stereotype.profile = true then some stereotype.value else none) =
          some GENERATED_MILESTONING_PROPERTY then { marked with generated := true } else marked) =
        { marked with generated := marked.generated ||
          (isMilestoningProfile stereotype.profile &&
            decide (stereotype.value = GENERATED_MILESTONING_PROPERTY)) } := by
    cases isMilestoningProfile stereotype.profile with
    | false => simp
    | true =>
      by_cases hvalue : stereotype.value = GENERATED_MILESTONING_PROPERTY
      · simp [hvalue]
      · simp [hvalue]
  rw [hmark]
  cases isTemporalProfile stereotype.profile with
  | false => simp [summary, AnnotationFacts.merge]
  | true => exact (merge_value _ _ _).symm

theorem annotationFacts_written {stereotypes : List RawStereotype} {node : GreenNode}
    (h : ∀ stereotype ∈ stereotypes, Plain stereotype)
    (hnode : compactText node = written stereotypes) :
    annotationFacts node = factsOf stereotypes := by
  have hfold (before : List RawStereotype) :
      (stereotypes.map writtenAtom).foldl noteAtom (factsOf before) =
        factsOf (before ++ stereotypes) := by
    clear hnode
    induction stereotypes generalizing before with
    | nil => rw [List.append_nil]; rfl
    | cons first rest ih =>
      obtain ⟨hfirst, hrest⟩ := List.forall_mem_cons.mp h
      rw [List.map_cons, List.foldl_cons, noteAtom_written hfirst, ih hrest, List.append_assoc,
        List.singleton_append]
  unfold annotationFacts
  rw [hnode, stereotypeAtoms_written h]
  exact hfold []

/-! ## The two loaders -/

/-- A list of stereotypes of the temporal profile is read when at most one stands there,
and it says a temporal kind. -/
theorem lowerTemporal_iff {element : QName} {stereotypes : List RawStereotype}
    {temporal : Option Temporal} :
    lowerTemporal element stereotypes = .ok temporal ↔
      (factsOf stereotypes).temporal = temporal ∧
        (factsOf stereotypes).temporal_uncertain = false := by
  have hturn (found : Option Temporal) (stereotype : RawStereotype) {temporal : Option Temporal} :
      temporalTurn element found stereotype = .ok temporal ↔
        found = none ∧ temporal ≠ none ∧ temporalOf stereotype.value = temporal := by
    unfold temporalTurn
    cases temporalOf stereotype.value with
    | none => cases temporal <;> simp
    | some current => cases found <;> cases temporal <;> simp
  unfold lowerTemporal factsOf temporalValues
  generalize stereotypes.filter (fun stereotype => isTemporalProfile stereotype.profile) = ours
  rcases ours with _ | ⟨first, _ | ⟨second, rest⟩⟩
  · show Except.ok none = Except.ok temporal ↔ none = temporal ∧ false = false
    simp
  · rw [List.foldlM_cons, bind_ok_iff]
    show (∃ found, _ ∧ Except.ok found = Except.ok temporal) ↔
      temporalOf first.value = temporal ∧ (temporalOf first.value).isNone = false
    constructor
    · rintro ⟨found, hfirst, hfound⟩
      obtain rfl := Except.ok.inj hfound
      obtain ⟨-, hsome, htime⟩ := (hturn none first).mp hfirst
      refine ⟨htime, ?_⟩
      rw [htime]
      exact Option.isNone_eq_false_iff.mpr (Option.isSome_iff_ne_none.mpr hsome)
    · rintro ⟨htime, hsome⟩
      rw [htime] at hsome
      exact ⟨temporal, (hturn none first).mpr
        ⟨rfl, Option.isSome_iff_ne_none.mp (Option.isNone_eq_false_iff.mp hsome), htime⟩, rfl⟩
  · rw [List.foldlM_cons, bind_ok_iff]
    constructor
    · rintro ⟨found, hfirst, hrest⟩
      obtain ⟨-, hsome, -⟩ := (hturn none first).mp hfirst
      rw [List.foldlM_cons] at hrest
      obtain ⟨found', hsecond, -⟩ := bind_ok hrest
      exact absurd ((hturn found second).mp hsecond).1 hsome
    · rintro ⟨-, huncertain⟩
      cases huncertain

/-- The applications of stereotypes among the first children. -/
def applicationsBefore (node : GreenNode) (stop : Nat) : List GreenNode :=
  ((node.children.take stop).filterMap GreenElement.asNode).filter
    (·.kind = .Node .DomainStereotypeApplications)

/-- The nodes are these applications, one after the other. -/
def Applies (nodes : List GreenNode) (applications : List (List RawStereotype)) : Prop :=
  List.Forall₂ (fun node stereotypes => compactText node = written stereotypes) nodes applications

theorem merges_written {nodes : List GreenNode} {applications : List (List RawStereotype)}
    (hplain : ∀ stereotypes ∈ applications, ∀ stereotype ∈ stereotypes, Plain stereotype)
    (h : Applies nodes applications) (before : List RawStereotype) :
    nodes.foldl (fun facts node => facts.merge (annotationFacts node)) (factsOf before) =
      factsOf (before ++ applications.flatten) := by
  induction h generalizing before with
  | nil => rw [List.flatten_nil, List.append_nil]; rfl
  | cons hfirst _ ih =>
    obtain ⟨hplain, hrest⟩ := List.forall_mem_cons.mp hplain
    rw [List.foldl_cons, annotationFacts_written hplain hfirst, merge_factsOf, ih hrest,
      List.flatten_cons, List.append_assoc]

theorem factsOf_generated (stereotypes : List RawStereotype) :
    (factsOf stereotypes).generated = isGeneratedMilestoningProperty stereotypes := by
  unfold factsOf summary
  rcases temporalValues stereotypes with _ | ⟨value, _ | ⟨value', values⟩⟩
  · rfl
  · rfl
  · rfl

/-- Members that leave the annotations waiting: applications of stereotypes, and what
the loader passes over. -/
def Waiting (members : List GreenNode) : Prop :=
  ∀ member ∈ members, member.kind ∉ [SyntaxKind.Node .DomainOpaqueNode, .Node .ErrorNode,
    .Node .DomainPropertyDecl, .Node .DomainQualifiedPropertyDecl]

/-- The annotations that wait for the next member are those of the applications. -/
theorem pending_fold (context : LoweringContext) (cls : QName) {members : List GreenNode}
    (h : Waiting members) (s : MemberState) :
    (members.foldl (memberTurn context cls) s).pending_annotations =
      (members.filter (·.kind = .Node .DomainStereotypeApplications)).foldl
        (fun facts node => facts.merge (annotationFacts node)) s.pending_annotations := by
  induction members generalizing s with
  | nil => rfl
  | cons member members ih =>
    obtain ⟨hmember, hmembers⟩ := List.forall_mem_cons.mp h
    simp only [List.mem_cons, List.not_mem_nil, or_false, not_or] at hmember
    obtain ⟨hunread, herror, hproperty, hqualified⟩ := hmember
    rw [List.foldl_cons, ih hmembers]
    unfold memberTurn
    rw [if_neg (not_or.mpr ⟨hunread, herror⟩)]
    by_cases happlies : member.kind = .Node .DomainStereotypeApplications
    · rw [if_pos happlies, List.filter_cons_of_pos (by simpa using happlies), List.foldl_cons]
    · rw [if_neg happlies, if_neg hproperty, if_neg hqualified,
        List.filter_cons_of_neg (by simpa using happlies)]

/-- What is not certain is not said. -/
theorem factsOf_uncertain {stereotypes : List RawStereotype}
    (h : (factsOf stereotypes).temporal_uncertain = true) :
    (factsOf stereotypes).temporal = none := by
  unfold factsOf at h ⊢
  revert h
  rcases temporalValues stereotypes with _ | ⟨value, _ | ⟨value', values⟩⟩
  · exact fun _ => rfl
  · exact Option.isNone_iff_eq_none.mp
  · exact fun _ => rfl

/-- Stereotypes that stand before a declaration of a Pure source, in any number of
applications, say the temporal kind that the same stereotypes say in the list of a PMCD
record. Where the record is refused for them, the Pure source is left uncertain and says
none. Both loaders find the same mark of a generated property, before a declaration and
among the members that stand before a qualified property. -/
theorem loaders_agree_on_stereotypes (element : QName) (node : GreenNode) (stop : Nat)
    (applications : List (List RawStereotype))
    (hplain : ∀ stereotypes ∈ applications, ∀ stereotype ∈ stereotypes, Plain stereotype)
    (h : Applies (applicationsBefore node stop) applications) :
    (∀ temporal, lowerTemporal element applications.flatten = .ok temporal ↔
      (annotationsBefore node stop).temporal = temporal ∧
        (annotationsBefore node stop).temporal_uncertain = false) ∧
    ((∃ kind, lowerTemporal element applications.flatten = .error kind) ↔
      (annotationsBefore node stop).temporal_uncertain = true) ∧
    ((annotationsBefore node stop).temporal_uncertain = true →
      (annotationsBefore node stop).temporal = none) ∧
    (annotationsBefore node stop).generated =
      isGeneratedMilestoningProperty applications.flatten ∧
    ∀ (context : LoweringContext) (cls : QName) (members : List GreenNode) (s : MemberState),
      s.pending_annotations = .default → Waiting members →
      Applies (members.filter (·.kind = .Node .DomainStereotypeApplications)) applications →
      (members.foldl (memberTurn context cls) s).pending_annotations.generated =
        isGeneratedMilestoningProperty applications.flatten := by
  have hfacts : annotationsBefore node stop = factsOf applications.flatten :=
    merges_written hplain h []
  rw [hfacts]
  refine ⟨fun temporal => lowerTemporal_iff, ?_, factsOf_uncertain, factsOf_generated _,
    fun context cls members s hstart hwaiting happlies => ?_⟩
  · cases hlowered : lowerTemporal element applications.flatten with
    | ok temporal =>
      rw [(lowerTemporal_iff.mp hlowered).2]
      simp
    | error kind =>
      have huncertain : (factsOf applications.flatten).temporal_uncertain = true := by
        by_contra hcertain
        have hok : lowerTemporal element applications.flatten = .ok _ :=
          lowerTemporal_iff.mpr ⟨rfl, Bool.eq_false_iff.mpr hcertain⟩
        rw [hlowered] at hok
        cases hok
      simp [huncertain]
  · have hpending := merges_written hplain happlies []
    rw [pending_fold context cls hwaiting, hstart]
    exact (congrArg AnnotationFacts.generated hpending).trans (factsOf_generated _)

/-- Two applications before a class. -/
def sampleStereotypes : Text :=
  ascii "<<temporal.bitemporal>><<milestoning.generatedmilestoningproperty>>"

def sampleApplication (tokens : List cst.Token) (range : TextRange) : GreenElement :=
  .Node (.new (.Node .DomainStereotypeApplications)
    (tokens.map fun token => .Token (m3.greenToken sampleStereotypes token)) range)

def firstApplication : GreenElement :=
  sampleApplication [spannedToken .Lt 0 1, spannedToken .Lt 1 1, spannedToken .Ident 2 8,
    spannedToken .Dot 10 1, spannedToken .Ident 11 10, spannedToken .Gt 21 1,
    spannedToken .Gt 22 1] ⟨0, 23, Nat.zero_le 23⟩

theorem secondApplication_bounds : 23 ≤ 67 := by omega

def secondApplication : GreenElement :=
  sampleApplication [spannedToken .Lt 23 1, spannedToken .Lt 24 1,
    spannedToken .Ident 25 11, spannedToken .Dot 36 1, spannedToken .Ident 37 28,
    spannedToken .Gt 65 1, spannedToken .Gt 66 1] ⟨23, 67, secondApplication_bounds⟩

def sampleDeclaration : GreenNode :=
  .new (.Node .DomainClassDecl) [firstApplication, secondApplication] ⟨0, 67, Nat.zero_le 67⟩

/-- Both loaders read a temporal kind from the first one, and the mark of a generated
property from the second. -/
theorem both_read_two_applications :
    (annotationsBefore sampleDeclaration 2).temporal = some .Bitemporal ∧
      (annotationsBefore sampleDeclaration 2).generated = true := by
  have hplain : ∀ stereotypes ∈ [[RawStereotype.mk (ascii "temporal") (ascii "bitemporal")],
      [⟨ascii "milestoning", ascii "generatedmilestoningproperty"⟩]],
      ∀ stereotype ∈ stereotypes, Plain stereotype := by
    intro stereotypes hstereotypes stereotype hmem
    rcases List.mem_cons.mp hstereotypes with rfl | hstereotypes
    · obtain rfl := List.mem_singleton.mp hmem
      exact ⟨by decide, by decide, by decide⟩
    · obtain rfl := List.mem_singleton.mp hstereotypes
      obtain rfl := List.mem_singleton.mp hmem
      exact ⟨by decide, by decide, by decide⟩
  obtain ⟨htemporal, -, -, hgenerated, -⟩ :=
    loaders_agree_on_stereotypes ⟨ascii "m::A", by decide⟩ sampleDeclaration 2 _ hplain
      (.cons (by decide) (.cons (by decide) .nil))
  exact ⟨((htemporal (some .Bitemporal)).mp (by decide)).1, hgenerated.trans (by decide)⟩

end analyzer.loader_parity
