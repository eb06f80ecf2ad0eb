-- The laws of the inheritance walks: the names that a class offers are the
-- ones that resolve in it, and both walks end on every schema, cycles and
-- undeclared classes included.
import PureAnalyzer.Schema
import Mathlib.Data.List.Basic
import Mathlib.Data.List.Induction

namespace purecard.model

/-! ## Classes still to visit -/

/-- The declared classes that a walk has not visited yet. -/
def Schema.unvisited (s : Schema) (visited : List Text) : List Text :=
  (s.classes.map Prod.fst).filter fun cls => !visited.contains cls

theorem Schema.unvisited_mono (s : Schema) {visited seen : List Text} (h : visited ⊆ seen) :
    (s.unvisited seen).length ≤ (s.unvisited visited).length := by
  unfold unvisited
  rw [← List.countP_eq_length_filter, ← List.countP_eq_length_filter]
  apply List.countP_mono_left
  intro cls _ hcls
  simp only [List.contains_eq_mem, Bool.not_eq_true', decide_eq_false_iff_not] at hcls ⊢
  exact fun hv => hcls (h hv)

theorem Schema.lookup_mem (s : Schema) {cls : Text} {info : ClassInfo}
    (h : s.classes.lookup cls = some info) : cls ∈ s.classes.map Prod.fst := by
  obtain ⟨before, after, heq, -⟩ := List.lookup_eq_some_iff.mp h
  rw [heq]
  simp

/-- Visiting a declared class for the first time leaves fewer to visit. -/
theorem Schema.unvisited_visit (s : Schema) {cls : Text} {visited : List Text}
    (hcls : cls ∈ s.classes.map Prod.fst) (hnew : visited.contains cls = false) :
    (s.unvisited (visited ++ [cls])).length < (s.unvisited visited).length := by
  have hsplit : s.unvisited (visited ++ [cls]) =
      (s.unvisited visited).filter fun c => c != cls := by
    unfold unvisited
    rw [List.filter_filter]
    congr 1
    funext c
    by_cases hc : c = cls
    · simp [hc]
    · simp [hc]
  rw [hsplit]
  apply List.length_filter_lt_length_iff_exists.mpr
  refine ⟨cls, List.mem_filter.mpr ⟨hcls, ?_⟩, by simp⟩
  rw [hnew]
  rfl

theorem Schema.unvisited_nil (s : Schema) : (s.unvisited []).length < s.depthLimit := by
  have h := List.length_filter_le (fun cls => !([] : List Text).contains cls)
    (s.classes.map Prod.fst)
  rw [List.length_map] at h
  unfold unvisited depthLimit
  omega

/-- What each parent only adds to, the walk of all of them only adds to. -/
theorem foldl_grows {α : Type} {f : α → Text → α} (grows : α → α → Prop)
    (hrefl : ∀ acc, grows acc acc)
    (htrans : ∀ {acc next last}, grows acc next → grows next last → grows acc last)
    (hstep : ∀ acc parent, grows acc (f acc parent)) (parents : List Text) (acc : α) :
    grows acc (parents.foldl f acc) := by
  induction parents generalizing acc with
  | nil => exact hrefl acc
  | cons parent parents ih => exact htrans (hstep acc parent) (ih (f acc parent))

/-! ## The walk that resolves -/

/-- What the walk does at one parent, once nothing was found before it. -/
def Schema.resolveParent (s : Schema) (ident : Text) (depth : Nat)
    (acc : Option Resolved × List Text) (parent : Text) : Option Resolved × List Text :=
  match acc with
  | (some found, seen) => (some found, seen)
  | (none, seen) => s.resolveIn ident depth parent seen

/-- The member of the class itself after the parents offered none. -/
def Schema.orNav (s : Schema) (cls ident : Text) (acc : Option Resolved × List Text) :
    Option Resolved × List Text :=
  match acc with
  | (some found, seen) => (some found, seen)
  | (none, seen) => (s.navMember cls ident, seen)

theorem Schema.resolveIn_visited (s : Schema) (ident : Text) (depth : Nat) {cls : Text}
    {visited : List Text} (h : visited.contains cls = true) :
    s.resolveIn ident depth cls visited = (none, visited) := by
  cases depth with
  | zero => rfl
  | succ depth =>
    unfold resolveIn
    rw [if_pos h]

theorem Schema.resolveIn_undeclared (s : Schema) (ident : Text) (depth : Nat) {cls : Text}
    {visited : List Text} (h : visited.contains cls = false) (hcls : s.classes.lookup cls = none) :
    s.resolveIn ident (depth + 1) cls visited = (s.navMember cls ident, visited ++ [cls]) := by
  rw [resolveIn, h, if_neg (by simp), hcls]

theorem Schema.resolveIn_own (s : Schema) (ident : Text) (depth : Nat) {cls : Text}
    {visited : List Text} {info : ClassInfo} {found : Resolved}
    (h : visited.contains cls = false) (hcls : s.classes.lookup cls = some info)
    (hown : ownMember info ident = some found) :
    s.resolveIn ident (depth + 1) cls visited = (some found, visited ++ [cls]) := by
  rw [resolveIn, h, if_neg (by simp), hcls]
  simp only [hown]

theorem Schema.resolveIn_parents (s : Schema) (ident : Text) (depth : Nat) {cls : Text}
    {visited : List Text} {info : ClassInfo}
    (h : visited.contains cls = false) (hcls : s.classes.lookup cls = some info)
    (hown : ownMember info ident = none) :
    s.resolveIn ident (depth + 1) cls visited =
      s.orNav cls ident
        (info.super_types.foldl (s.resolveParent ident depth) (none, visited ++ [cls])) := by
  rw [resolveIn, h, if_neg (by simp), hcls]
  simp only [hown]
  rfl

theorem Schema.orNav_seen (s : Schema) (cls ident : Text) (acc : Option Resolved × List Text) :
    (s.orNav cls ident acc).2 = acc.2 := by
  rcases acc with ⟨_ | found, seen⟩ <;> rfl

theorem Schema.resolveParent_found (s : Schema) (ident : Text) (depth : Nat) (found : Resolved)
    (seen : List Text) (parents : List Text) :
    parents.foldl (s.resolveParent ident depth) (some found, seen) = (some found, seen) := by
  induction parents with
  | nil => rfl
  | cons parent parents ih => exact ih

/-- The walk only adds to the classes it has visited. -/
theorem Schema.resolveIn_subset (s : Schema) (ident : Text) (depth : Nat) (cls : Text)
    (visited : List Text) : visited ⊆ (s.resolveIn ident depth cls visited).2 := by
  induction depth generalizing cls visited with
  | zero => exact List.Subset.refl visited
  | succ depth ih =>
    cases hv : visited.contains cls with
    | true =>
      rw [s.resolveIn_visited ident _ hv]
      exact List.Subset.refl visited
    | false =>
      have hadd : visited ⊆ visited ++ [cls] := List.subset_append_left visited [cls]
      cases hcls : s.classes.lookup cls with
      | none =>
        rw [s.resolveIn_undeclared ident depth hv hcls]
        exact hadd
      | some info =>
        cases hown : ownMember info ident with
        | some found =>
          rw [s.resolveIn_own ident depth hv hcls hown]
          exact hadd
        | none =>
          rw [s.resolveIn_parents ident depth hv hcls hown, orNav_seen]
          have hstep : ∀ (acc : Option Resolved × List Text) (parent : Text),
              acc.2 ⊆ (s.resolveParent ident depth acc parent).2 := by
            rintro ⟨_ | found, seen⟩ parent
            · exact ih parent seen
            · exact List.Subset.refl seen
          have hfold := foldl_grows (fun acc next => acc.2 ⊆ next.2)
            (fun acc => List.Subset.refl acc.2) List.Subset.trans hstep info.super_types
            (none, visited ++ [cls])
          exact List.Subset.trans hadd hfold

/-- Two depths that both exceed the classes still to visit give one result. -/
theorem Schema.resolveIn_stable (s : Schema) (ident : Text) (depth more : Nat) (cls : Text)
    (visited : List Text) (hdepth : (s.unvisited visited).length < depth)
    (hmore : (s.unvisited visited).length < more) :
    s.resolveIn ident depth cls visited = s.resolveIn ident more cls visited := by
  induction depth generalizing more cls visited with
  | zero => omega
  | succ depth ih =>
    obtain ⟨more, rfl⟩ : ∃ m, more = m + 1 := ⟨more - 1, by omega⟩
    cases hv : visited.contains cls with
    | true => rw [s.resolveIn_visited ident _ hv, s.resolveIn_visited ident _ hv]
    | false =>
      cases hcls : s.classes.lookup cls with
      | none =>
        rw [s.resolveIn_undeclared ident depth hv hcls, s.resolveIn_undeclared ident more hv hcls]
      | some info =>
        cases hown : ownMember info ident with
        | some found =>
          rw [s.resolveIn_own ident depth hv hcls hown, s.resolveIn_own ident more hv hcls hown]
        | none =>
          rw [s.resolveIn_parents ident depth hv hcls hown,
            s.resolveIn_parents ident more hv hcls hown]
          congr 1
          have hfewer := s.unvisited_visit (s.lookup_mem hcls) hv
          -- the parents are walked with what the earlier ones have visited
          have hfold : ∀ (parents : List Text) (acc : Option Resolved × List Text),
              visited ++ [cls] ⊆ acc.2 →
              parents.foldl (s.resolveParent ident depth) acc =
                parents.foldl (s.resolveParent ident more) acc := by
            intro parents
            induction parents with
            | nil => exact fun acc _ => rfl
            | cons parent parents ihp =>
              rintro ⟨_ | found, seen⟩ hseen
              · have hleft : (s.unvisited seen).length ≤ _ := s.unvisited_mono hseen
                have hone := ih more parent seen (by omega) (by omega)
                have hgrow := s.resolveIn_subset ident more parent seen
                rw [List.foldl_cons, List.foldl_cons]
                simp only [resolveParent]
                rw [hone]
                exact ihp _ (List.Subset.trans hseen hgrow)
              · rw [s.resolveParent_found, s.resolveParent_found]
          exact hfold info.super_types (none, visited ++ [cls]) (List.Subset.refl _)

/-! ## The walk that collects -/

/-- The names and the visited classes after the parents of a class. -/
def Schema.inherit (s : Schema) (depth : Nat) (cls : Text) (acc : List Text × List Text) :
    List Text × List Text :=
  match s.classes.lookup cls with
  | none => (acc.1, acc.2 ++ [cls])
  | some info =>
    info.super_types.foldl (fun acc parent => s.collectMembers depth parent acc)
      (acc.1 ++ info.properties.map PropertySpec.name ++
        info.qualified_properties.map QualifiedPropertySpec.name, acc.2 ++ [cls])

/-- The names of the steps that leave a class. -/
def Schema.navNames (s : Schema) (cls : Text) : List Text :=
  ((s.navigable.lookup cls).getD []).map NavStep.prop

theorem Schema.collectMembers_visited (s : Schema) (depth : Nat) {cls : Text}
    {acc : List Text × List Text} (h : acc.2.contains cls = true) :
    s.collectMembers depth cls acc = acc := by
  cases depth with
  | zero => rfl
  | succ depth =>
    rcases acc with ⟨names, visited⟩
    unfold collectMembers
    rw [if_pos h]

theorem Schema.collectMembers_new (s : Schema) (depth : Nat) {cls : Text}
    {acc : List Text × List Text} (h : acc.2.contains cls = false) :
    s.collectMembers (depth + 1) cls acc =
      ((s.inherit depth cls acc).1 ++ s.navNames cls, (s.inherit depth cls acc).2) := by
  rcases acc with ⟨names, visited⟩
  rw [collectMembers, h, if_neg (by simp)]
  rfl

/-- More names and more visited classes. -/
def Gathers (acc next : List Text × List Text) : Prop := acc.1 ⊆ next.1 ∧ acc.2 ⊆ next.2

theorem Gathers.refl (acc : List Text × List Text) : Gathers acc acc :=
  ⟨List.Subset.refl acc.1, List.Subset.refl acc.2⟩

theorem Gathers.trans {acc next last : List Text × List Text} (h : Gathers acc next)
    (h' : Gathers next last) : Gathers acc last :=
  ⟨List.Subset.trans h.1 h'.1, List.Subset.trans h.2 h'.2⟩

/-- The walk only adds to the names and to the classes it has visited. -/
theorem Schema.collectMembers_gathers (s : Schema) (depth : Nat) (cls : Text)
    (acc : List Text × List Text) : Gathers acc (s.collectMembers depth cls acc) := by
  induction depth generalizing cls acc with
  | zero => exact .refl acc
  | succ depth ih =>
    cases hv : acc.2.contains cls with
    | true =>
      rw [s.collectMembers_visited _ hv]
      exact .refl acc
    | false =>
      have hinherit : Gathers acc (s.inherit depth cls acc) := by
        unfold inherit
        cases s.classes.lookup cls with
        | none => exact ⟨List.Subset.refl _, List.subset_append_left _ _⟩
        | some info =>
          have hown : Gathers acc (acc.1 ++ info.properties.map PropertySpec.name ++
              info.qualified_properties.map QualifiedPropertySpec.name, acc.2 ++ [cls]) := by
            refine ⟨?_, List.subset_append_left _ _⟩
            rw [List.append_assoc]
            exact List.subset_append_left _ _
          exact hown.trans
            (foldl_grows Gathers .refl .trans (fun acc parent => ih parent acc) _ _)
      rw [s.collectMembers_new depth hv]
      exact ⟨List.Subset.trans hinherit.1 (List.subset_append_left _ _), hinherit.2⟩

theorem Schema.parents_gather (s : Schema) (depth : Nat) (parents : List Text)
    (acc : List Text × List Text) :
    Gathers acc (parents.foldl (fun acc parent => s.collectMembers depth parent acc) acc) :=
  foldl_grows Gathers .refl .trans (fun acc parent => s.collectMembers_gathers depth parent acc) parents acc

/-- Two depths that both exceed the classes still to visit collect the same. -/
theorem Schema.collectMembers_stable (s : Schema) (depth more : Nat) (cls : Text)
    (acc : List Text × List Text) (hdepth : (s.unvisited acc.2).length < depth)
    (hmore : (s.unvisited acc.2).length < more) :
    s.collectMembers depth cls acc = s.collectMembers more cls acc := by
  induction depth generalizing more cls acc with
  | zero => omega
  | succ depth ih =>
    obtain ⟨more, rfl⟩ : ∃ m, more = m + 1 := ⟨more - 1, by omega⟩
    cases hv : acc.2.contains cls with
    | true => rw [s.collectMembers_visited _ hv, s.collectMembers_visited _ hv]
    | false =>
      have hinherit : s.inherit depth cls acc = s.inherit more cls acc := by
        unfold inherit
        cases hcls : s.classes.lookup cls with
        | none => rfl
        | some info =>
          have hfewer := s.unvisited_visit (s.lookup_mem hcls) hv
          have hfold : ∀ (parents : List Text) (start : List Text × List Text),
              acc.2 ++ [cls] ⊆ start.2 →
              parents.foldl (fun acc parent => s.collectMembers depth parent acc) start =
                parents.foldl (fun acc parent => s.collectMembers more parent acc) start := by
            intro parents
            induction parents with
            | nil => exact fun start _ => rfl
            | cons parent parents ihp =>
              intro start hstart
              have hleft := s.unvisited_mono hstart
              have hone := ih more parent start (by omega) (by omega)
              have hgrow := (s.collectMembers_gathers more parent start).2
              rw [List.foldl_cons, List.foldl_cons, hone]
              exact ihp _ (List.Subset.trans hstart hgrow)
          exact hfold info.super_types _ (List.Subset.refl _)
      rw [s.collectMembers_new depth hv, s.collectMembers_new more hv, hinherit]

/-! ## The steps of the associations -/

/-- An association leads from the class of either end over the property of the
other one. -/
def Leads (ends : AssociationEnd × AssociationEnd) (cls : Text) (step : NavStep) : Prop :=
  (ends.1.target_class = cls ∧
    step = ⟨ends.2.property_name, ends.2.target_class, ends.2.mult⟩) ∨
  (ends.2.target_class = cls ∧
    step = ⟨ends.1.property_name, ends.1.target_class, ends.1.mult⟩)

theorem mem_addNavStep {navigable : List (Text × List NavStep)} {cls other : Text}
    {step added : NavStep} :
    step ∈ ((addNavStep navigable other added).lookup cls).getD [] ↔
      step ∈ (navigable.lookup cls).getD [] ∨ (other = cls ∧ step = added) := by
  induction navigable with
  | nil =>
    rw [addNavStep, List.lookup_cons]
    by_cases heq : cls = other
    · subst heq
      simp
    · rw [beq_false_of_ne heq]
      simp [Ne.symm heq]
  | cons entry rest ih =>
    obtain ⟨c, steps⟩ := entry
    rw [addNavStep]
    split_ifs with hc
    · rw [List.lookup_cons, List.lookup_cons]
      by_cases heq : cls = c
      · subst heq
        simp [← hc]
      · rw [beq_false_of_ne heq]
        simp [← hc, Ne.symm heq]
    · rw [List.lookup_cons, List.lookup_cons]
      by_cases heq : cls = c
      · subst heq
        simp [Ne.symm hc]
      · rw [beq_false_of_ne heq]
        exact ih

/-- The steps from a class are those that the associations lead over. -/
theorem mem_buildNavigable {associations : List (AssociationEnd × AssociationEnd)} {cls : Text}
    {step : NavStep} :
    step ∈ ((buildNavigable associations).lookup cls).getD [] ↔
      ∃ ends ∈ associations, Leads ends cls step := by
  induction associations using List.reverseRecOn with
  | nil => simp [buildNavigable]
  | append_singleton associations ends ih =>
    obtain ⟨e0, e1⟩ := ends
    unfold buildNavigable at ih ⊢
    rw [List.foldl_append, List.foldl_cons, List.foldl_nil, mem_addNavStep, mem_addNavStep, ih]
    simp only [List.mem_append, List.mem_singleton, or_and_right, exists_or, exists_eq_left, Leads]
    rw [or_assoc]

/-- A schema offers both ends of its associations. -/
theorem associations_are_offered {s : Schema}
    {associations : List (AssociationEnd × AssociationEnd)}
    (h : s.navigable = buildNavigable associations) {ends : AssociationEnd × AssociationEnd}
    (hends : ends ∈ associations) {cls : Text} {step : NavStep} (hleads : Leads ends cls step) :
    step.prop ∈ s.memberNames cls := by
  have hstep : step ∈ (s.navigable.lookup cls).getD [] := by
    rw [h]
    exact mem_buildNavigable.mpr ⟨ends, hends, hleads⟩
  unfold Schema.memberNames Schema.depthLimit
  rw [s.collectMembers_new _ rfl]
  exact List.mem_append_right _ (List.mem_map_of_mem hstep)

/-! ## The two walks together -/

theorem mem_names_find (ident : Text) {α : Type} (name : α → Text) (xs : List α) :
    ident ∈ xs.map name ↔ (xs.find? fun x => name x = ident).isSome := by
  rw [List.find?_isSome, List.mem_map]
  constructor
  · rintro ⟨x, hx, rfl⟩
    exact ⟨x, hx, by simp⟩
  · rintro ⟨x, hx, heq⟩
    exact ⟨x, hx, by simpa using heq⟩

theorem Schema.ownMember_isSome (info : ClassInfo) (ident : Text) :
    (Schema.ownMember info ident).isSome ↔ ident ∈ info.properties.map PropertySpec.name ∨
      ident ∈ info.qualified_properties.map QualifiedPropertySpec.name := by
  rw [mem_names_find ident PropertySpec.name, mem_names_find ident QualifiedPropertySpec.name]
  unfold Schema.ownMember
  cases info.properties.find? fun prop => prop.name = ident with
  | some prop => simp
  | none => simp

theorem Schema.navMember_isSome (s : Schema) (cls ident : Text) :
    (s.navMember cls ident).isSome ↔ ident ∈ s.navNames cls := by
  unfold navMember navNames
  rw [mem_names_find ident NavStep.prop, Option.isSome_map]

/-- Where the walk that resolves finds nothing, the walk that collects has
visited the same classes and gathered no such name. Where it finds a member,
the name has been gathered. -/
def Matches (ident : Text) (names : List Text) (resolved : Option Resolved × List Text)
    (collected : List Text × List Text) : Prop :=
  match resolved with
  | (none, seen) => collected.2 = seen ∧ (ident ∈ collected.1 ↔ ident ∈ names)
  | (some _, _) => ident ∈ collected.1

theorem Matches.found {ident : Text} {names : List Text} {resolved : Option Resolved × List Text}
    {collected : List Text × List Text} (h : Matches ident names resolved collected)
    (hfound : resolved.1.isSome) : ident ∈ collected.1 := by
  rcases resolved with ⟨_ | found, seen⟩
  · cases hfound
  · exact h

theorem Matches.renames {ident : Text} {names names' : List Text}
    {resolved : Option Resolved × List Text} {collected : List Text × List Text}
    (h : Matches ident names resolved collected) (hnames : ident ∈ names ↔ ident ∈ names') :
    Matches ident names' resolved collected := by
  rcases resolved with ⟨_ | found, seen⟩
  · exact ⟨h.1, h.2.trans hnames⟩
  · exact h

/-- The last names of a class close the walk of its parents. -/
theorem Matches.orNav (s : Schema) {cls ident : Text} {names : List Text}
    {resolved : Option Resolved × List Text} {collected : List Text × List Text}
    (h : Matches ident names resolved collected) :
    Matches ident names (s.orNav cls ident resolved)
      (collected.1 ++ s.navNames cls, collected.2) := by
  rcases resolved with ⟨_ | found, seen⟩
  · obtain ⟨hseen, hnames⟩ := h
    have hnav := s.navMember_isSome cls ident
    simp only [Schema.orNav]
    cases hmember : s.navMember cls ident with
    | none =>
      rw [hmember] at hnav
      refine ⟨hseen, ?_⟩
      rw [List.mem_append, hnames]
      simp only [Option.isSome_none, Bool.false_eq_true, false_iff] at hnav
      exact or_iff_left hnav
    | some found =>
      rw [hmember] at hnav
      exact List.mem_append_right _ (hnav.mp rfl)
  · exact List.mem_append_left _ h

/-- The two walks match at every class, from the same visited classes. -/
theorem Schema.walks_match (s : Schema) (ident : Text) (depth : Nat) (cls : Text)
    (names visited : List Text) :
    Matches ident names (s.resolveIn ident depth cls visited)
      (s.collectMembers depth cls (names, visited)) := by
  induction depth generalizing cls names visited with
  | zero => exact ⟨rfl, Iff.rfl⟩
  | succ depth ih =>
    cases hv : visited.contains cls with
    | true =>
      rw [s.resolveIn_visited ident _ hv, s.collectMembers_visited _ hv]
      exact ⟨rfl, Iff.rfl⟩
    | false =>
      have hfold : ∀ (parents names seen : List Text),
          Matches ident names (parents.foldl (s.resolveParent ident depth) (none, seen))
            (parents.foldl (fun acc parent => s.collectMembers depth parent acc)
              (names, seen)) := by
        intro parents
        induction parents with
        | nil => exact fun names seen => ⟨rfl, Iff.rfl⟩
        | cons parent parents ihp =>
          intro names seen
          have hone := ih parent names seen
          rw [List.foldl_cons, List.foldl_cons]
          simp only [resolveParent]
          cases hparent : s.resolveIn ident depth parent seen with
          | mk found after =>
            rw [hparent] at hone
            cases found with
            | none =>
              have hrest := ihp (s.collectMembers depth parent (names, seen)).1 after
              rw [← hone.1] at hrest ⊢
              exact hrest.renames hone.2
            | some member =>
              -- the parents that come later keep the name that was gathered
              rw [s.resolveParent_found]
              exact (s.parents_gather depth parents _).1 hone
      rw [s.collectMembers_new depth hv]
      unfold inherit
      cases hcls : s.classes.lookup cls with
      | none =>
        rw [s.resolveIn_undeclared ident depth hv hcls]
        have hfirst : Matches ident names (none, visited ++ [cls]) (names, visited ++ [cls]) :=
          ⟨rfl, Iff.rfl⟩
        exact hfirst.orNav s
      | some info =>
        have hown := Schema.ownMember_isSome info ident
        have hparents := hfold info.super_types
          (names ++ info.properties.map PropertySpec.name ++
            info.qualified_properties.map QualifiedPropertySpec.name) (visited ++ [cls])
        cases hmember : Schema.ownMember info ident with
        | some found =>
          rw [s.resolveIn_own ident depth hv hcls hmember]
          rw [hmember] at hown
          have hgathered : ident ∈ names ++ info.properties.map PropertySpec.name ++
              info.qualified_properties.map QualifiedPropertySpec.name := by
            rw [List.append_assoc, List.mem_append, List.mem_append]
            exact .inr (hown.mp rfl)
          exact List.mem_append_left _ ((s.parents_gather depth info.super_types _).1 hgathered)
        | none =>
          rw [s.resolveIn_parents ident depth hv hcls hmember]
          rw [hmember] at hown
          simp only [Option.isSome_none, Bool.false_eq_true, false_iff, not_or] at hown
          have hnames : ident ∈ names ++ info.properties.map PropertySpec.name ++
              info.qualified_properties.map QualifiedPropertySpec.name ↔ ident ∈ names := by
            rw [List.append_assoc, List.mem_append, List.mem_append]
            exact or_iff_left (not_or.mpr hown)
          exact (hparents.renames hnames).orNav s

/-- The names that a class offers are the ones that resolve in it, and no
more depth changes either answer. -/
theorem Schema.a_class_offers_what_it_resolves (s : Schema) (cls ident : Text) :
    (ident ∈ s.memberNames cls ↔ ∃ found, s.resolve cls ident = some found) ∧
    (∀ depth, s.depthLimit ≤ depth →
      s.resolveIn ident depth cls [] = s.resolveIn ident s.depthLimit cls [] ∧
      s.collectMembers depth cls ([], []) = s.collectMembers s.depthLimit cls ([], [])) := by
  constructor
  · have hmatch := s.walks_match ident s.depthLimit cls [] []
    rw [← Option.isSome_iff_exists]
    unfold memberNames resolve
    constructor
    · intro hmem
      cases hresolved : s.resolveIn ident s.depthLimit cls [] with
      | mk found seen =>
        cases found with
        | some found => rfl
        | none =>
          rw [hresolved] at hmatch
          exact absurd (hmatch.2.mp hmem) List.not_mem_nil
    · exact hmatch.found
  · intro depth hdepth
    have hlimit := s.unvisited_nil
    have henough : (s.unvisited []).length < depth := Nat.lt_of_lt_of_le hlimit hdepth
    exact ⟨s.resolveIn_stable ident depth s.depthLimit cls [] henough hlimit,
      s.collectMembers_stable depth s.depthLimit cls ([], []) henough hlimit⟩

end purecard.model
