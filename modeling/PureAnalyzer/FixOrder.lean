-- Fix plans and the order of the diagnostics. Fixes are sorted by their first
-- edit and their title, and two fixes that share both always clash. So the order
-- reaches the result only through such a pair.
import Mathlib.Data.List.Perm.Basic
import PureAnalyzer.FixPlanLaws
import PureAnalyzer.TiedRuns

namespace analyzer.fix_plan

open document model attempts

/-! ## The edits of one fix -/

/-- No two edits of one file overlap. -/
def Apart (edits : List TextEdit) : Prop :=
  edits.Pairwise fun a b => a.file = b.file → editsOverlap a b = false

/-- The first of two edits ends before the second starts, and they are not the
same empty span. -/
def Follows (a b : TextEdit) : Prop :=
  a.span.stop ≤ b.span.start ∧ ¬ (b.span = a.span ∧ isEmptySpan b.span = true)

theorem Follows.trans {a b c : TextEdit} (hab : Follows a b) (hbc : Follows b c) : Follows a c := by
  have hb := b.span.ordered
  refine ⟨by have := hab.1; have := hbc.1; omega, ?_⟩
  rintro ⟨hsame, hempty⟩
  have hc : c.span.start = c.span.stop := of_decide_eq_true hempty
  have hstart : a.span.start = c.span.start := by rw [hsame]
  have hstop : a.span.stop = c.span.stop := by rw [hsame]
  have hfirst := hab.1
  have hsecond := hbc.1
  refine hab.2 ⟨TextRange.ext_ends (by omega) (by omega), decide_eq_true (by omega)⟩

theorem Follows.apart {a b : TextEdit} (h : Follows a b) : editsOverlap a b = false := by
  have hfirst := h.1
  simp only [editsOverlap, Bool.or_eq_false_iff, Bool.and_eq_false_iff, decide_eq_false_iff_not]
  refine ⟨.inr (by omega), ?_⟩
  by_cases hspan : a.span = b.span
  · refine .inr ?_
    rw [hspan]
    exact Bool.eq_false_iff.mpr fun hempty => h.2 ⟨hspan.symm, hempty⟩
  · exact .inl hspan

theorem validateOrder_follows {title : String} {file : FileId} {edits : List TextEdit}
    {previous : Option TextEdit} (h : validateOrder title file previous edits = .ok ()) :
    (∀ prior, previous = some prior → ∀ e ∈ edits, Follows prior e) ∧ edits.Pairwise Follows := by
  induction edits generalizing previous with
  | nil => exact ⟨fun _ _ => List.forall_mem_nil _, .nil⟩
  | cons edit edits ih =>
    rw [validateOrder] at h
    split at h
    · cases h
    · next hfine =>
      obtain ⟨hlater, hrest⟩ := ih h
      have hfirst : ∀ prior, previous = some prior → Follows prior edit := by
        rintro prior rfl
        simp only [Option.any_some, Bool.or_eq_true, Bool.and_eq_true, decide_eq_true_eq,
          not_or] at hfine
        exact ⟨Nat.le_of_not_lt hfine.1, hfine.2⟩
      refine ⟨fun prior hprior e he => ?_, List.pairwise_cons.mpr ⟨hlater edit rfl, hrest⟩⟩
      rcases List.mem_cons.mp he with rfl | he
      · exact hfirst prior hprior
      · exact (hfirst prior hprior).trans (hlater edit rfl e he)

theorem validateGroups_ok {title : String} {groups : List (FileId × List TextEdit)}
    (h : validateGroups title groups = .ok ()) :
    ∀ group ∈ groups, validateOrder title group.1 none group.2 = .ok () := by
  induction groups with
  | nil => exact List.forall_mem_nil _
  | cons group groups ih =>
    obtain ⟨file, edits⟩ := group
    rw [validateGroups] at h
    obtain ⟨_, hfirst, hrest⟩ := bind_ok h
    exact List.forall_mem_cons.mpr ⟨hfirst, ih hrest⟩

theorem groupEdits_get {title : String} {files : SortedMap FileId PlannedFile}
    {by_file out : SortedMap FileId (List TextEdit)} {edits : List TextEdit}
    (h : groupEdits title files by_file edits = .ok out) (file : FileId) :
    (out.get file).getD [] = (by_file.get file).getD [] ++ edits.filter fun e => e.file = file := by
  induction edits generalizing by_file with
  | nil =>
    obtain rfl := Except.ok.inj h
    exact (List.append_nil _).symm
  | cons edit edits ih =>
    rw [groupEdits] at h
    obtain ⟨_, -, h⟩ := bind_ok h
    rw [ih h, getD_pushTo]
    by_cases hfile : file = edit.file
    · rw [if_pos hfile, List.filter_cons_of_pos (by simp [hfile]), List.append_assoc]
      rfl
    · rw [if_neg hfile, List.filter_cons_of_neg (by simpa using Ne.symm hfile)]

/-- The edits of a valid fix are apart. -/
theorem validateFix_apart {title : String} {files : SortedMap FileId PlannedFile}
    {edits : List TextEdit} (h : validateFix title files edits = .ok ()) : Apart edits := by
  obtain ⟨by_file, hgroup, h⟩ := bind_ok h
  refine List.pairwise_iff_forall_sublist.mpr fun {a b} hsub hfile => ?_
  have hget := groupEdits_get hgroup a.file
  rw [SortedMap.get_empty, Option.getD_none, List.nil_append] at hget
  have hpair : List.Sublist [a, b] (edits.filter fun e => e.file = a.file) := by
    have hfilter := hsub.filter fun e => decide (e.file = a.file)
    rwa [List.filter_cons_of_pos (by simp), List.filter_cons_of_pos (by simpa using hfile.symm),
      List.filter_nil] at hfilter
  cases hentry : by_file.get a.file with
  | none =>
    rw [hentry] at hget
    rw [← hget] at hpair
    cases hpair
  | some group =>
    rw [hentry] at hget
    have hvalid := validateGroups_ok h _ (SortedMap.mem_of_get hentry)
    obtain rfl : group = _ := hget
    have hfollows := (validateOrder_follows hvalid).2
    exact (List.pairwise_iff_forall_sublist.mp hfollows hpair).apart

/-! ## What a fix clashes with -/

/-- The edits of a fix, with its title. -/
def Candidate.accepted (candidate : Candidate) : List AcceptedEdit :=
  candidate.edits.map fun edit => ⟨candidate.title, edit⟩

/-- The edit taken before that an edit overlaps. -/
def overlapped (history : List AcceptedEdit) (edit : TextEdit) : Option AcceptedEdit :=
  history.find? fun prior => prior.edit.file = edit.file && editsOverlap prior.edit edit

/-- The first edit that overlaps one taken before: its file, and the title of
the fix that took the other. -/
def firstClash (history : List AcceptedEdit) (edits : List TextEdit) : Option (FileId × String) :=
  edits.findSome? fun edit =>
    (overlapped history edit).map fun prior => (edit.file, prior.title)

/-- The map holds the edits of a history by their files. -/
def Holds (taken : Accepted) (history : List AcceptedEdit) : Prop :=
  ∀ file, (taken.accepted.get file).getD [] = history.filter fun e => e.edit.file = file

theorem acceptEdit_eq {taken : Accepted} {history : List AcceptedEdit} (h : Holds taken history)
    (title : String) (edit : TextEdit) :
    match overlapped history edit with
    | some prior => acceptEdit title taken edit = .error (.Conflict edit.file prior.title title)
    | none => ∃ out, acceptEdit title taken edit = .ok out ∧
      Holds out (history ++ [⟨title, edit⟩]) := by
  have hfind : ((taken.accepted.get edit.file).getD []).find?
      (fun prior => editsOverlap prior.edit edit) = overlapped history edit := by
    rw [h, List.find?_filter, overlapped]
    congr 1
    funext prior
    simp [Bool.decide_and]
  unfold acceptEdit
  rw [hfind]
  cases overlapped history edit with
  | some prior => rfl
  | none =>
    refine ⟨_, rfl, fun file => ?_⟩
    show ((pushTo taken.accepted edit.file ⟨title, edit⟩).get file).getD [] = _
    rw [getD_pushTo, h, List.filter_append]
    by_cases hfile : file = edit.file
    · rw [if_pos hfile, List.filter_cons_of_pos (by simp [hfile])]
      rfl
    · rw [if_neg hfile, List.filter_cons_of_neg (by simpa using Ne.symm hfile), List.filter_nil,
        List.append_nil]

theorem overlapped_none {history : List AcceptedEdit} {edit : TextEdit} :
    overlapped history edit = none ↔
      ∀ prior ∈ history, prior.edit.file = edit.file → editsOverlap prior.edit edit = false := by
  simp [overlapped, List.find?_eq_none]

/-- A fix with edits that are apart clashes with the edits taken before it or
with none. -/
theorem acceptEdits_eq {taken : Accepted} {history own : List AcceptedEdit} {title : String}
    {edits : List TextEdit} (h : Holds taken (history ++ own)) (hapart : Apart edits)
    (hown : ∀ edit ∈ edits, overlapped own edit = none) :
    match firstClash history edits with
    | some (file, prior) =>
      edits.foldlM (acceptEdit title) taken = .error (.Conflict file prior title)
    | none => ∃ out, edits.foldlM (acceptEdit title) taken = .ok out ∧
      Holds out (history ++ own ++ edits.map fun edit => ⟨title, edit⟩) := by
  induction edits generalizing taken own with
  | nil => exact ⟨taken, rfl, by rwa [List.map_nil, List.append_nil]⟩
  | cons edit edits ih =>
    obtain ⟨hfirst, hrest⟩ := List.pairwise_cons.mp hapart
    have hstep := acceptEdit_eq h title edit
    have hboth : overlapped (history ++ own) edit = overlapped history edit := by
      have hnone := hown edit List.mem_cons_self
      rw [overlapped] at hnone
      rw [overlapped, List.find?_append, hnone, Option.or_none]
      rfl
    rw [hboth] at hstep
    rw [firstClash, List.findSome?_cons]
    cases hclash : overlapped history edit with
    | some prior =>
      rw [hclash] at hstep
      simp only [Option.map_some]
      rw [List.foldlM_cons, hstep]
      rfl
    | none =>
      rw [hclash] at hstep
      obtain ⟨next, hnext, hholds⟩ := hstep
      have hown' : ∀ later ∈ edits, overlapped (own ++ [⟨title, edit⟩]) later = none := by
        intro later hlater
        refine overlapped_none.mpr fun prior hprior => ?_
        rcases List.mem_append.mp hprior with hprior | hprior
        · exact overlapped_none.mp (hown later (List.mem_cons_of_mem _ hlater)) prior hprior
        · obtain rfl := List.mem_singleton.mp hprior
          exact hfirst later hlater
      rw [List.append_assoc] at hholds
      have hlast := ih hholds hrest hown'
      rw [firstClash] at hlast
      simp only [Option.map_none]
      rw [List.foldlM_cons, hnext]
      cases hclash' : edits.findSome? fun edit =>
          (overlapped history edit).map fun prior => (edit.file, prior.title) with
      | some found =>
        rw [hclash'] at hlast
        exact hlast
      | none =>
        rw [hclash'] at hlast
        obtain ⟨out, hout, hholds'⟩ := hlast
        exact ⟨out, hout, by simpa using hholds'⟩

/-- A fix that can be selected: it has edits, and they are apart. -/
def Selectable (candidate : Candidate) : Prop := candidate.edits ≠ [] ∧ Apart candidate.edits

theorem acceptCandidate_eq {taken : Accepted} {history : List AcceptedEdit} {candidate : Candidate}
    (h : Holds taken history) (hfix : Selectable candidate) :
    match firstClash history candidate.edits with
    | some (file, prior) =>
      acceptCandidate taken candidate = .error (.Conflict file prior candidate.title)
    | none => ∃ out, acceptCandidate taken candidate = .ok out ∧
      Holds out (history ++ candidate.accepted) := by
  have hall := @acceptEdits_eq taken history [] candidate.title candidate.edits
    (by rwa [List.append_nil]) hfix.2 (fun _ _ => rfl)
  rwa [List.append_nil] at hall

/-! ### A run over fixes -/

theorem run_holds {candidates : List Candidate} (hfix : ∀ c ∈ candidates, Selectable c)
    {taken out : Accepted} {history : List AcceptedEdit} (h : Holds taken history)
    (hrun : candidates.foldlM acceptCandidate taken = .ok out) :
    Holds out (history ++ candidates.flatMap Candidate.accepted) := by
  induction candidates generalizing taken history with
  | nil =>
    obtain rfl := Except.ok.inj hrun
    rwa [List.flatMap_nil, List.append_nil]
  | cons candidate candidates ih =>
    obtain ⟨hfirst, hrest⟩ := List.forall_mem_cons.mp hfix
    rw [List.foldlM_cons] at hrun
    obtain ⟨next, hnext, hrun⟩ := bind_ok hrun
    have hstep := acceptCandidate_eq h hfirst
    rw [hnext] at hstep
    cases hclash : firstClash history candidate.edits with
    | some found =>
      rw [hclash] at hstep
      cases hstep
    | none =>
      rw [hclash] at hstep
      obtain ⟨next', hsame, hholds⟩ := hstep
      obtain rfl := Except.ok.inj hsame
      rw [List.flatMap_cons, ← List.append_assoc]
      exact ih hrest hholds hrun

theorem firstClash_none {history : List AcceptedEdit} {edits : List TextEdit} :
    firstClash history edits = none ↔ ∀ edit ∈ edits, overlapped history edit = none := by
  simp [firstClash, List.findSome?_eq_none_iff]

theorem run_through {candidates : List Candidate} (hfix : ∀ c ∈ candidates, Selectable c)
    {taken : Accepted} {history : List AcceptedEdit} (h : Holds taken history)
    (hapart : Apart (history.map AcceptedEdit.edit ++ candidates.flatMap Candidate.edits)) :
    ∃ out, candidates.foldlM acceptCandidate taken = .ok out := by
  induction candidates generalizing taken history with
  | nil => exact ⟨taken, rfl⟩
  | cons candidate candidates ih =>
    obtain ⟨hfirst, hrest⟩ := List.forall_mem_cons.mp hfix
    have hstep := acceptCandidate_eq h hfirst
    have hnone : firstClash history candidate.edits = none := by
      refine firstClash_none.mpr fun edit hedit => overlapped_none.mpr fun prior hprior => ?_
      refine (List.pairwise_append.mp hapart).2.2 prior.edit (List.mem_map_of_mem hprior) edit ?_
      exact List.mem_flatMap.mpr ⟨candidate, List.mem_cons_self, hedit⟩
    rw [hnone] at hstep
    obtain ⟨next, hnext, hholds⟩ := hstep
    have hown : candidate.accepted.map AcceptedEdit.edit = candidate.edits := by
      rw [Candidate.accepted, List.map_map]
      exact List.map_id _
    obtain ⟨out, hout⟩ := ih hrest hholds (by
      rwa [List.map_append, hown, List.append_assoc, ← List.flatMap_cons])
    exact ⟨out, by rw [List.foldlM_cons, hnext]; exact hout⟩

def nothingTaken : Accepted := ⟨.empty, .empty⟩

theorem nothingTaken_holds : Holds nothingTaken [] := fun _ => rfl

/-- Fixes are taken together exactly when all their edits are apart. -/
theorem run_apart_iff {candidates : List Candidate} (hfix : ∀ c ∈ candidates, Selectable c) :
    (∃ out, candidates.foldlM acceptCandidate nothingTaken = .ok out) ↔
      Apart (candidates.flatMap Candidate.edits) := by
  constructor
  · rintro ⟨out, hout⟩
    have hstart : Taken nothingTaken [] := ⟨fun _ => rfl, fun _ => rfl, .nil⟩
    exact (candidates_taken hstart hout).apart
  · intro hapart
    exact run_through hfix nothingTaken_holds hapart

/-! ### Fixes of one key -/

theorem firstKey_first {candidate : Candidate} (h : candidate.edits ≠ []) :
    ∃ first ∈ candidate.edits, firstKey candidate = WithBot.some (toLex (first.file,
      toLex (first.span.start, toLex (first.span.stop, candidate.title)))) := by
  unfold firstKey
  cases hfirst : candidate.edits.argmin editKey with
  | none => exact absurd (List.argmin_eq_none.mp hfirst) h
  | some first => exact ⟨first, List.argmin_mem hfirst, rfl⟩

/-- Fixes of one key have one title, and each has an edit at the same place. -/
theorem same_first {c d : Candidate} (hc : Selectable c) (hd : Selectable d)
    (hkey : firstKey c = firstKey d) :
    c.title = d.title ∧ ∃ a ∈ c.edits, ∃ b ∈ d.edits, a.file = b.file ∧
      editsOverlap a b = true := by
  obtain ⟨a, ha, hka⟩ := firstKey_first hc.1
  obtain ⟨b, hb, hkb⟩ := firstKey_first hd.1
  have hsame := WithBot.coe_injective (hka.symm.trans (hkey.trans hkb))
  obtain ⟨hfile, hsame⟩ := Prod.mk.inj (toLex.injective hsame)
  obtain ⟨hstart, hsame⟩ := Prod.mk.inj (toLex.injective hsame)
  obtain ⟨hstop, htitle⟩ := Prod.mk.inj (toLex.injective hsame)
  refine ⟨htitle, a, ha, b, hb, hfile, ?_⟩
  have hspan : a.span = b.span := TextRange.ext_ends hstart hstop
  rcases Nat.lt_or_eq_of_le b.span.ordered with hlt | hempty
  · simp [editsOverlap, hspan, hlt]
  · simp [editsOverlap, hspan, isEmptySpan, hempty]

theorem clash_of_taken {c d : Candidate} (hc : Selectable c) (hd : Selectable d)
    (hkey : firstKey c = firstKey d) {history : List AcceptedEdit}
    (htaken : ∀ e ∈ c.accepted, e ∈ history) :
    ∃ file prior, firstClash history d.edits = some (file, prior) := by
  obtain ⟨-, a, ha, b, hb, hfile, hoverlap⟩ := same_first hc hd hkey
  cases hclash : firstClash history d.edits with
  | some found => exact ⟨found.1, found.2, rfl⟩
  | none =>
    have hnone := firstClash_none.mp hclash b hb
    have hapart := overlapped_none.mp hnone ⟨c.title, a⟩ (htaken _ (List.mem_map_of_mem ha)) hfile
    rw [hoverlap] at hapart
    cases hapart

theorem fixes_clash : tied.Clashing firstKey acceptCandidate nothingTaken Selectable := by
  intro l s c d hl hrun hc hd hkey
  have hholds := run_holds hl nothingTaken_holds hrun
  rw [List.nil_append] at hholds
  obtain ⟨file, prior, hclash⟩ := clash_of_taken (hl c hc) hd hkey
    fun e he => List.mem_flatMap.mpr ⟨c, hc, he⟩
  have hstep := acceptCandidate_eq hholds hd
  rw [hclash] at hstep
  exact ⟨_, hstep⟩

/-- The first clash of two fixes that are taken one after the other. -/
def reported (history : List AcceptedEdit) (c d : Candidate) : Option (FileId × String) :=
  (firstClash history c.edits).or (firstClash (history ++ c.accepted) d.edits)

theorem pair_reported {s : Accepted} {history : List AcceptedEdit} (h : Holds s history)
    {c d : Candidate} (hc : Selectable c) (hd : Selectable d) (hkey : firstKey c = firstKey d) :
    ∃ file prior, reported history c d = some (file, prior) ∧
      [c, d].foldlM acceptCandidate s = .error (.Conflict file prior c.title) := by
  have hfirst := acceptCandidate_eq h hc
  unfold reported
  rw [List.foldlM_cons]
  cases hclash : firstClash history c.edits with
  | some found =>
    obtain ⟨file, prior⟩ := found
    rw [hclash] at hfirst
    exact ⟨file, prior, rfl, by rw [hfirst]; rfl⟩
  | none =>
    rw [hclash] at hfirst
    obtain ⟨next, hnext, hholds⟩ := hfirst
    obtain ⟨file, prior, hclash'⟩ := clash_of_taken hc hd hkey
      fun e he => List.mem_append_right history he
    have hsecond := acceptCandidate_eq hholds hd
    rw [hclash'] at hsecond ⊢
    refine ⟨file, prior, rfl, ?_⟩
    rw [hnext, (same_first hc hd hkey).1]
    show List.foldlM acceptCandidate next [d] = _
    rw [List.foldlM_cons, hsecond]
    rfl

/-- The fixes before a key. -/
def before (k : WithBot (FileId ×ₗ Nat ×ₗ Nat ×ₗ String)) (candidates : List Candidate) :
    List Candidate :=
  (sortCandidates candidates).filter fun candidate => firstKey candidate < k

/-- Of each key before which all edits are apart, every two fixes, in either
order, clash first in the same file with a fix of the same title. -/
def HarmlessTies (candidates : List Candidate) : Prop :=
  ∀ k, Apart ((before k candidates).flatMap Candidate.edits) →
    ∀ c d c' d', tied.Two candidates c d → tied.Two candidates c' d' →
      firstKey c = k → firstKey d = k → firstKey c' = k → firstKey d' = k →
        reported ((before k candidates).flatMap Candidate.accepted) c d =
          reported ((before k candidates).flatMap Candidate.accepted) c' d'

theorem harmless_iff {candidates : List Candidate} (hfix : ∀ c ∈ candidates, Selectable c) :
    (∀ others, others.Perm candidates →
      (sortCandidates others).foldlM acceptCandidate nothingTaken =
        (sortCandidates candidates).foldlM acceptCandidate nothingTaken) ↔
        HarmlessTies candidates := by
  have hbelow : ∀ k, ∀ c ∈ before k candidates, Selectable c := fun k c hc =>
    hfix c ((tied.sort_perm candidates).mem_iff.mp (List.mem_filter.mp hc).1)
  have htwo : ∀ {c d}, tied.Two candidates c d → Selectable c ∧ Selectable d := by
    rintro c d ⟨rest, hperm⟩
    exact ⟨hfix c (hperm.mem_iff.mpr (by simp)), hfix d (hperm.mem_iff.mpr (by simp))⟩
  have hpair : ∀ {k s}, (before k candidates).foldlM acceptCandidate nothingTaken = .ok s →
      ∀ {c d c' d'}, tied.Two candidates c d → tied.Two candidates c' d' →
        firstKey c = k → firstKey d = k → firstKey c' = k → firstKey d' = k →
        ([c, d].foldlM acceptCandidate s = [c', d'].foldlM acceptCandidate s ↔
          reported ((before k candidates).flatMap Candidate.accepted) c d =
            reported ((before k candidates).flatMap Candidate.accepted) c' d') := by
    intro k s hrun c d c' d' hcd hcd' hc hd hc' hd'
    have hholds := run_holds (hbelow k) nothingTaken_holds hrun
    rw [List.nil_append] at hholds
    obtain ⟨file, prior, hreported, herror⟩ :=
      pair_reported hholds (htwo hcd).1 (htwo hcd).2 (hc.trans hd.symm)
    obtain ⟨file', prior', hreported', herror'⟩ :=
      pair_reported hholds (htwo hcd').1 (htwo hcd').2 (hc'.trans hd'.symm)
    have htitle := (same_first (htwo hcd).1 (htwo hcd').1 (hc.trans hc'.symm)).1
    rw [herror, herror', hreported, hreported', htitle]
    simp
  refine (tied.run_perm_iff fixes_clash hfix).trans ?_
  constructor
  · intro h k hapart c d c' d' hcd hcd' hc hd hc' hd'
    obtain ⟨s, hs⟩ := (run_apart_iff (hbelow k)).mpr hapart
    exact (hpair hs hcd hcd' hc hd hc' hd').mp (h k s hs c d c' d' hcd hcd' hc hd hc' hd')
  · intro h k s hs c d c' d' hcd hcd' hc hd hc' hd'
    have hapart := (run_apart_iff (hbelow k)).mp ⟨s, hs⟩
    exact (hpair hs hcd hcd' hc hd hc' hd').mpr (h k hapart c d c' d' hcd hcd' hc hd hc' hd')

/-! ## Plans in another order -/

/-- The fix that a diagnostic puts up for selection. -/
def candidateOf (diagnostic : Diagnostic) : Option Candidate :=
  match diagnostic.fix with
  | none => none
  | some fix =>
    if fix.applicability = .MachineApplicable then some ⟨fix.title, fix.edits⟩ else none

def selected (diagnostics : List Diagnostic) : List Candidate := diagnostics.filterMap candidateOf

/-- Each machine-applicable fix passes the checks that are made of it alone. -/
def ValidFixes (files : List PlannedFile) (diagnostics : List Diagnostic) : Prop :=
  ∀ diagnostic ∈ diagnostics, ∀ fix, diagnostic.fix = some fix →
    fix.applicability = .MachineApplicable →
      fix.provenance.permitsMachineApplication = true ∧ fix.edits ≠ [] ∧
        ∀ files_by_id, filesById .empty files = .ok files_by_id →
          validateFix fix.title files_by_id fix.edits = .ok ()

/-- Both succeed with one plan, or both fail with one conflict. -/
def SameOutcome (left right : Except FixPlanError FixPlan) : Prop :=
  (∃ plan, left = .ok plan ∧ right = .ok plan) ∨
    ∃ file first second, left = .error (.Conflict file first second) ∧
      right = .error (.Conflict file first second)

theorem selectFixes_valid {files : List PlannedFile} {files_by_id : SortedMap FileId PlannedFile}
    (hfiles : filesById .empty files = .ok files_by_id) {diagnostics : List Diagnostic}
    (hvalid : ValidFixes files diagnostics) :
    selectFixes files_by_id diagnostics = .ok (selected diagnostics) ∧
      ∀ c ∈ selected diagnostics, Selectable c := by
  induction diagnostics with
  | nil => exact ⟨rfl, List.forall_mem_nil _⟩
  | cons diagnostic diagnostics ih =>
    obtain ⟨hselect, hfix⟩ := ih fun d hd => hvalid d (List.mem_cons_of_mem _ hd)
    have hone := hvalid diagnostic List.mem_cons_self
    rw [selectFixes, selected, List.filterMap_cons, candidateOf]
    cases hdiagnostic : diagnostic.fix with
    | none => exact ⟨hselect, hfix⟩
    | some fix =>
      by_cases happly : fix.applicability = .MachineApplicable
      · obtain ⟨hpermits, hedits, hchecked⟩ := hone fix hdiagnostic happly
        have hvalidated := hchecked files_by_id hfiles
        have hnonempty : fix.edits.isEmpty = false := by simpa using hedits
        simp only [happly, hpermits, hnonempty, hvalidated, hselect, ne_eq, not_true_eq_false,
          Bool.not_true, Bool.false_eq_true, if_false, if_true]
        refine ⟨rfl, List.forall_mem_cons.mpr ⟨⟨hedits, validateFix_apart hvalidated⟩, hfix⟩⟩
      · simp only [happly, ne_eq, not_false_eq_true, if_true, if_false]
        exact ⟨hselect, hfix⟩

theorem ValidFixes.perm {files : List PlannedFile} {diagnostics others : List Diagnostic}
    (h : ValidFixes files diagnostics) (hperm : others.Perm diagnostics) :
    ValidFixes files others := fun d hd => h d (hperm.mem_iff.mp hd)

/-- A build is the run over the sorted fixes. -/
theorem build_eq {files : List PlannedFile} {files_by_id : SortedMap FileId PlannedFile}
    (hfiles : filesById .empty files = .ok files_by_id) {diagnostics : List Diagnostic}
    (hvalid : ValidFixes files diagnostics) :
    FixPlan.build files diagnostics =
      ((sortCandidates (selected diagnostics)).foldlM acceptCandidate nothingTaken).map
        fun taken => ⟨files_by_id, taken.edits.mapValues sortEdits⟩ := by
  unfold FixPlan.build
  rw [hfiles]
  show (selectFixes files_by_id diagnostics >>= _) = _
  rw [(selectFixes_valid hfiles hvalid).1]
  show (((sortCandidates (selected diagnostics)).foldlM acceptCandidate nothingTaken) >>= _) = _
  cases (sortCandidates (selected diagnostics)).foldlM acceptCandidate nothingTaken <;> rfl

/-- A run ends with its edits, or with a conflict. -/
theorem run_result {candidates : List Candidate} (hfix : ∀ c ∈ candidates, Selectable c)
    {taken : Accepted} {history : List AcceptedEdit} (h : Holds taken history) :
    (∃ out, candidates.foldlM acceptCandidate taken = .ok out) ∨
      ∃ file first second,
        candidates.foldlM acceptCandidate taken = .error (.Conflict file first second) := by
  induction candidates generalizing taken history with
  | nil => exact .inl ⟨taken, rfl⟩
  | cons candidate candidates ih =>
    obtain ⟨hfirst, hrest⟩ := List.forall_mem_cons.mp hfix
    have hstep := acceptCandidate_eq h hfirst
    rw [List.foldlM_cons]
    cases hclash : firstClash history candidate.edits with
    | some found =>
      rw [hclash] at hstep
      refine .inr ⟨found.1, found.2, candidate.title, ?_⟩
      rw [hstep]
      rfl
    | none =>
      rw [hclash] at hstep
      obtain ⟨next, hnext, hholds⟩ := hstep
      rw [hnext]
      exact ih hrest hholds

theorem filesById_error {files_by_id : SortedMap FileId PlannedFile} {files : List PlannedFile}
    {e : FixPlanError} (h : filesById files_by_id files = .error e) :
    ∃ file, e = .DuplicateFile file := by
  induction files generalizing files_by_id with
  | nil => cases h
  | cons file files ih =>
    rw [filesById] at h
    split at h
    · exact ⟨file.file, (Except.error.inj h).symm⟩
    · exact ih h

/-- Every order of the selected fixes is that of some order of the diagnostics. -/
theorem selected_perm {diagnostics : List Diagnostic} {candidates : List Candidate}
    (h : candidates.Perm (selected diagnostics)) :
    ∃ others, others.Perm diagnostics ∧ selected others = candidates := by
  have hsplit := List.filter_append_perm (fun d => (candidateOf d).isSome) diagnostics
  have hfixed : ∀ l : List Diagnostic, List.Forall₂ (fun d c => candidateOf d = some c)
      (l.filter fun d => (candidateOf d).isSome) (selected l) := by
    intro l
    induction l with
    | nil => exact .nil
    | cons d l ih =>
      rw [selected, List.filterMap_cons]
      cases hd : candidateOf d with
      | none => rwa [List.filter_cons_of_neg (by simp [hd])]
      | some c =>
        rw [List.filter_cons_of_pos (by simp [hd])]
        exact .cons hd ih
  have hchosen : ∀ {l : List Diagnostic} {cs : List Candidate},
      List.Forall₂ (fun d c => candidateOf d = some c) l cs → selected l = cs := by
    intro l cs hall
    induction hall with
    | nil => rfl
    | cons hd _ ih => rw [selected, List.filterMap_cons, hd, ← ih]; rfl
  obtain ⟨others, hforall, hothers⟩ :=
    List.perm_comp_forall₂ h ((hfixed diagnostics).flip)
  refine ⟨others ++ diagnostics.filter (fun d => !(candidateOf d).isSome),
    ((hothers.append_right _).trans hsplit), ?_⟩
  have hrest : selected (diagnostics.filter fun d => !(candidateOf d).isSome) = [] := by
    simp [selected, List.filterMap_eq_nil_iff]
  rw [selected, List.filterMap_append]
  show selected others ++ selected _ = candidates
  rw [hchosen hforall.flip, hrest, List.append_nil]

/-- Every order of the diagnostics gives the same plan or the same conflict
exactly when no file is listed twice and the fixes of one key are harmless. -/
theorem the_order_is_harmless_iff (files : List PlannedFile) (diagnostics : List Diagnostic)
    (hvalid : ValidFixes files diagnostics) :
    (∀ others, others.Perm diagnostics →
      SameOutcome (FixPlan.build files others) (FixPlan.build files diagnostics)) ↔
        (∃ files_by_id, filesById .empty files = .ok files_by_id) ∧
          HarmlessTies (selected diagnostics) := by
  cases hfiles : filesById .empty files with
  | error e =>
    refine iff_of_false ?_ ?_
    · intro h
      obtain ⟨file, rfl⟩ := filesById_error hfiles
      have hbuild : FixPlan.build files diagnostics = .error (.DuplicateFile file) := by
        unfold FixPlan.build
        rw [hfiles]
        rfl
      rcases h diagnostics (List.Perm.refl _) with ⟨plan, hplan, -⟩ | ⟨_, _, _, herror, -⟩
      · rw [hbuild] at hplan
        cases hplan
      · rw [hbuild] at herror
        cases herror
    · rintro ⟨⟨files_by_id, h⟩, -⟩
      cases h
  | ok files_by_id =>
    have hfix := (selectFixes_valid hfiles hvalid).2
    have hsorted : ∀ c ∈ sortCandidates (selected diagnostics), Selectable c := fun c hc =>
      hfix c ((tied.sort_perm (selected diagnostics)).mem_iff.mp hc)
    rw [← harmless_iff hfix]
    constructor
    · intro h
      refine ⟨⟨files_by_id, rfl⟩, fun candidates hcandidates => ?_⟩
      obtain ⟨others, hothers, rfl⟩ := selected_perm hcandidates
      have hsame := h others hothers
      rw [build_eq hfiles (hvalid.perm hothers), build_eq hfiles hvalid] at hsame
      cases hrun : (sortCandidates (selected diagnostics)).foldlM acceptCandidate nothingTaken with
      | ok out =>
        have hkeys := tied.run_keys fixes_clash hsorted hrun
        have hsort : sortCandidates (selected diagnostics) = sortCandidates (selected others) :=
          tied.sorted_unique (tied.sort_sorted _) (tied.sort_sorted _)
            ((tied.sort_perm _).trans (hcandidates.symm.trans (tied.sort_perm _).symm)) hkeys
        rw [← hsort, hrun]
      | error e =>
        rw [hrun] at hsame
        rcases hsame with ⟨plan, -, hplan⟩ | ⟨file, first, second, herror, herror'⟩
        · cases hplan
        · have he : e = .Conflict file first second := Except.error.inj herror'
          cases hrun' : (sortCandidates (selected others)).foldlM acceptCandidate nothingTaken with
          | ok out =>
            rw [hrun'] at herror
            cases herror
          | error e' =>
            rw [hrun'] at herror
            rw [he, Except.error.inj herror]
    · rintro ⟨-, h⟩ others hothers
      have hsame := h (selected others) (hothers.filterMap _)
      rw [build_eq hfiles (hvalid.perm hothers), build_eq hfiles hvalid, hsame]
      rcases run_result hsorted nothingTaken_holds with ⟨out, hout⟩ | ⟨file, first, second, herror⟩
      · rw [hout]
        exact .inl ⟨_, rfl, rfl⟩
      · rw [herror]
        exact .inr ⟨file, first, second, rfl, rfl⟩

def crossedFiles : List PlannedFile := [⟨1, ['a']⟩, ⟨2, ['b']⟩]

theorem crossed_bounds : 0 ≤ 1 := Nat.zero_le 1

/-- Two fixes of one title that edit the same two places in opposite orders. -/
def crossed (first second : FileId) (text : Str) : Diagnostic :=
  ⟨some ⟨"Rename", .MachineApplicable, .SyntaxOnly,
    [⟨first, ⟨0, 1, crossed_bounds⟩, text⟩, ⟨second, ⟨0, 1, crossed_bounds⟩, text⟩]⟩⟩

theorem crossed_valid {diagnostics : List Diagnostic}
    (h : ∀ d ∈ diagnostics, ∃ text, d = crossed 1 2 text ∨ d = crossed 2 1 text) :
    ValidFixes crossedFiles diagnostics := by
  intro diagnostic hmem fix hfix _
  have hchecked : fix.provenance.permitsMachineApplication = true ∧ fix.edits ≠ [] ∧
      validateFix fix.title ⟨[(1, ⟨1, ['a']⟩), (2, ⟨2, ['b']⟩)], by decide⟩ fix.edits = .ok () := by
    obtain ⟨text, rfl | rfl⟩ := h diagnostic hmem
    · obtain rfl := Option.some.inj hfix
      exact ⟨rfl, List.cons_ne_nil _ _, rfl⟩
    · obtain rfl := Option.some.inj hfix
      exact ⟨rfl, List.cons_ne_nil _ _, rfl⟩
  refine ⟨hchecked.1, hchecked.2.1, fun files_by_id hfiles => ?_⟩
  obtain rfl := Except.ok.inj hfiles
  exact hchecked.2.2

/-- One of the two fixes names its places in the other order. -/
def oppositeFixes : List Diagnostic := [crossed 2 1 ['x'], crossed 1 2 ['y']]

theorem oppositeFixes_valid : ValidFixes crossedFiles oppositeFixes :=
  crossed_valid (List.forall_mem_cons.mpr
    ⟨⟨_, .inr rfl⟩, List.forall_mem_singleton.mpr ⟨_, .inl rfl⟩⟩)

theorem oppositeFixes_moved :
    ¬SameOutcome (FixPlan.build crossedFiles [crossed 1 2 ['y'], crossed 2 1 ['x']])
      (FixPlan.build crossedFiles oppositeFixes) := by
  intro hsame
  have hone : FixPlan.build crossedFiles oppositeFixes =
      .error (.Conflict 1 "Rename" "Rename") := rfl
  have hother : FixPlan.build crossedFiles [crossed 1 2 ['y'], crossed 2 1 ['x']] =
      .error (.Conflict 2 "Rename" "Rename") := rfl
  rw [hone, hother] at hsame
  rcases hsame with ⟨plan, hplan, -⟩ | ⟨file, first, second, hleft, hright⟩
  · cases hplan
  · have hboth := Except.error.inj (hleft.trans hright.symm)
    cases hboth

/-- Both fixes name their places in the same order. -/
def parallelFixes : List Diagnostic := [crossed 1 2 ['x'], crossed 1 2 ['y']]

theorem parallelFixes_valid : ValidFixes crossedFiles parallelFixes :=
  crossed_valid (List.forall_mem_cons.mpr
    ⟨⟨_, .inl rfl⟩, List.forall_mem_singleton.mpr ⟨_, .inl rfl⟩⟩)

/-- Whichever of them comes first, they clash in the first file. -/
theorem parallelFixes_harmless : HarmlessTies (selected parallelFixes) := by
  have hparallel : ∀ c ∈ selected parallelFixes, ∃ text,
      c = ⟨"Rename", [⟨1, ⟨0, 1, crossed_bounds⟩, text⟩, ⟨2, ⟨0, 1, crossed_bounds⟩, text⟩]⟩ := by
    intro c hc
    rcases List.mem_cons.mp hc with rfl | hc
    · exact ⟨_, rfl⟩
    · obtain rfl := List.mem_singleton.mp hc
      exact ⟨_, rfl⟩
  have hkey : ∀ c ∈ selected parallelFixes, ∀ d ∈ selected parallelFixes,
      firstKey c = firstKey d := by
    intro c hc d hd
    obtain ⟨text, rfl⟩ := hparallel c hc
    obtain ⟨text', rfl⟩ := hparallel d hd
    rfl
  have hreported : ∀ {k c d}, tied.Two (selected parallelFixes) c d → firstKey c = k →
      reported ((before k (selected parallelFixes)).flatMap Candidate.accepted) c d =
        some (1, "Rename") := by
    rintro k c d ⟨rest, hperm⟩ rfl
    have hc : c ∈ selected parallelFixes := hperm.mem_iff.mpr (by simp)
    have hbefore : before (firstKey c) (selected parallelFixes) = [] := by
      refine List.filter_eq_nil_iff.mpr fun other hother => ?_
      rw [hkey other ((tied.sort_perm _).mem_iff.mp hother) c hc, decide_eq_true_iff]
      exact lt_irrefl _
    rw [hbefore]
    obtain ⟨text, rfl⟩ := hparallel c hc
    obtain ⟨text', rfl⟩ := hparallel d (hperm.mem_iff.mpr (by simp))
    rfl
  intro k _ c d c' d' hcd hcd' hc _ hc' _
  rw [hreported hcd hc, hreported hcd' hc']

/-- The order of the fixes does not matter where both clash in one file, and it does
where the first clash depends on it. -/
theorem parallel_and_opposite_fixes :
    (∀ others, others.Perm parallelFixes → SameOutcome (FixPlan.build crossedFiles others)
      (FixPlan.build crossedFiles parallelFixes)) ∧
      ¬HarmlessTies (selected oppositeFixes) := by
  refine ⟨(the_order_is_harmless_iff crossedFiles _ parallelFixes_valid).mpr
    ⟨⟨_, rfl⟩, parallelFixes_harmless⟩, fun hharmless => ?_⟩
  exact oppositeFixes_moved ((the_order_is_harmless_iff crossedFiles _ oppositeFixes_valid).mpr
    ⟨⟨_, rfl⟩, hharmless⟩ _ (List.Perm.swap _ _ _))

/-- In one order the conflict is in the first file, in the other in the second. -/
theorem the_order_moves_the_conflict :
    ¬ ∀ files diagnostics, ValidFixes files diagnostics → ∀ others, others.Perm diagnostics →
      SameOutcome (FixPlan.build files others) (FixPlan.build files diagnostics) := fun h =>
  oppositeFixes_moved (h crossedFiles _ oppositeFixes_valid _ (List.Perm.swap _ _ _))

end analyzer.fix_plan
