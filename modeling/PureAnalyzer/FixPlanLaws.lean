-- The law of a fix plan: once it is built, its edits apply to the analysed
-- sources as one substitution of all their spans at once, without a panic.
-- The checks of the plan make the edits of a file lie one behind the other,
-- so the edits from the end leave the spans before them where they were.
import Mathlib.Data.List.Forall2
import PureAnalyzer.Attempts
import PureAnalyzer.FixPlan
import PureAnalyzer.TextPositions

namespace analyzer.fix_plan

open document model attempts

/-! ## Texts cut at an offset -/

theorem isCharBoundary_cut {text : Str} {offset : Nat} (h : isCharBoundary text offset = true) :
    ∃ a b, text = a ++ b ∧ len a = offset := by
  obtain ⟨⟨a, b⟩, hab⟩ := Option.isSome_iff_exists.mp h
  exact ⟨a, b, splitAtByte_some hab⟩

/-! ## Substitution -/

/-- All spans of a text, from an offset of it on, are replaced at once. The
edits come in the order of the text, and their spans count from its start. -/
inductive Substitutes : Nat → Str → List TextEdit → Str → Prop
  | done {offset text} : Substitutes offset text [] text
  | edit {offset kept removed rest e edits out} : offset + len kept = e.span.start →
      e.span.start + len removed = e.span.stop → Substitutes e.span.stop rest edits out →
      Substitutes offset (kept ++ removed ++ rest) (e :: edits) (kept ++ e.new_text ++ out)

theorem replaceRange_at {before removed after : Str} {span : TextRange} (new_text : Str)
    (hstart : len before = span.start) (hstop : span.start + len removed = span.stop) :
    FixPlan.replaceRange (before ++ removed ++ after) span new_text =
      some (before ++ new_text ++ after) := by
  have hlen : span.stop - span.start = len removed := by omega
  unfold FixPlan.replaceRange
  rw [← hstart, List.append_assoc, splitAtByte_len]
  simp only [Option.bind_eq_bind, Option.bind_some]
  rw [hstart, hlen, splitAtByte_len]
  rfl

/-- The span of an edit lies in the text, between its characters. -/
def Fits (text : Str) (edit : TextEdit) : Prop :=
  isCharBoundary text edit.span.start = true ∧ isCharBoundary text edit.span.stop = true

/-- Every edit ends before the later ones start. -/
def Ordered (edits : List TextEdit) : Prop :=
  edits.Pairwise fun earlier later => earlier.span.stop ≤ later.span.start

/-- Ordered edits that are applied from the last to the first are one
substitution. What stands before the first of them stays as it is. -/
theorem apply_ordered {edits : List TextEdit} (before text : Str) (hordered : Ordered edits)
    (hfits : ∀ e ∈ edits, Fits (before ++ text) e ∧ len before ≤ e.span.start) :
    ∃ out, edits.reverse.foldlM FixPlan.applyEdit (before ++ text) = some (before ++ out) ∧
      Substitutes (len before) text edits out := by
  induction edits generalizing before text with
  | nil => exact ⟨text, rfl, .done⟩
  | cons e edits ih =>
    obtain ⟨hlater, hrest⟩ := List.pairwise_cons.mp hordered
    obtain ⟨⟨hstart, hstop⟩, hle⟩ := hfits e List.mem_cons_self
    -- the text is cut at both ends of the first edit
    obtain ⟨a, b, hab, ha⟩ := isCharBoundary_cut hstart
    obtain ⟨c, d, hcd, hc⟩ := isCharBoundary_cut hstop
    obtain ⟨kept, rfl, rfl⟩ := later_cut hab (by rw [ha]; exact hle)
    have hspan := e.span.ordered
    obtain ⟨removed, rfl, rfl⟩ := later_cut (hab.symm.trans hcd) (by rw [ha, hc]; exact hspan)
    rw [len_append, ha] at hc
    rw [len_append] at ha
    have hbehind : ∀ x ∈ edits, Fits (before ++ kept ++ removed ++ d) x ∧
        len (before ++ kept ++ removed) ≤ x.span.start := by
      intro x hx
      have hfit := (hfits x (List.mem_cons_of_mem _ hx)).1
      have hafter := hlater x hx
      rw [len_append, len_append, ha, hc]
      exact ⟨by simpa using hfit, hafter⟩
    obtain ⟨out, hout, hsub⟩ := ih (before ++ kept ++ removed) d hrest hbehind
    rw [len_append, len_append, ha, hc] at hsub
    refine ⟨kept ++ e.new_text ++ out, ?_, ?_⟩
    · have htext : before ++ (kept ++ (removed ++ d)) = before ++ kept ++ removed ++ d := by simp
      rw [List.reverse_cons, List.foldlM_append, htext, hout]
      simp only [Option.bind_eq_bind, Option.bind_some, List.foldlM_cons, List.foldlM_nil]
      have hone : FixPlan.applyEdit (before ++ kept ++ removed ++ out) e =
          some (before ++ kept ++ e.new_text ++ out) :=
        replaceRange_at e.new_text (by rw [len_append, ha]) hc
      rw [hone]
      simp
    · rw [← List.append_assoc]
      exact .edit ha hc hsub

/-! ## Edits apart from each other -/

theorem editsOverlap_symm (a b : TextEdit) : editsOverlap a b = editsOverlap b a := by
  unfold editsOverlap
  by_cases h : a.span = b.span
  · rw [h]
  · have h' : ¬ b.span = a.span := fun heq => h heq.symm
    rw [decide_eq_false h, decide_eq_false h', Bool.false_and, Bool.false_and, Bool.and_comm]

/-- Of two edits that do not overlap the one with the smaller key ends before
the other starts. -/
theorem ends_before {a b : TextEdit} (hkey : spanKey a ≤ spanKey b)
    (hapart : editsOverlap a b = false) : a.span.stop ≤ b.span.start := by
  unfold spanKey at hkey
  rw [Prod.Lex.toLex_le_toLex] at hkey
  simp only [editsOverlap, Bool.or_eq_false_iff, Bool.and_eq_false_iff, decide_eq_false_iff_not]
    at hapart
  have ha := a.span.ordered
  have hb := b.span.ordered
  omega

theorem sortEdits_perm (edits : List TextEdit) : (sortEdits edits).Perm edits :=
  List.perm_insertionSort _ edits

theorem sortEdits_ordered {edits : List TextEdit}
    (h : edits.Pairwise fun a b => editsOverlap a b = false) : Ordered (sortEdits edits) := by
  have hsorted : (sortEdits edits).Pairwise fun a b => spanKey a ≤ spanKey b := by
    have htotal : Std.Total fun a b : TextEdit => spanKey a ≤ spanKey b :=
      ⟨fun a b => le_total (spanKey a) (spanKey b)⟩
    have htrans : IsTrans TextEdit fun a b => spanKey a ≤ spanKey b :=
      ⟨fun _ _ _ => le_trans⟩
    exact List.pairwise_insertionSort _ edits
  have hapart : (sortEdits edits).Pairwise fun a b => editsOverlap a b = false := by
    refine ((sortEdits_perm edits).pairwise_iff ?_).mpr h
    intro a b hab
    rw [editsOverlap_symm, hab]
  exact (hsorted.and hapart).imp fun hboth => ends_before hboth.1 hboth.2

/-! ## What a plan is built of -/

/-- The snapshots of a plan are the files that it was built from. -/
theorem filesById_get {files_by_id out : SortedMap FileId PlannedFile} {files : List PlannedFile}
    (h : filesById files_by_id files = .ok out) (k : FileId) (f : PlannedFile) :
    out.get k = some f ↔ files_by_id.get k = some f ∨ f ∈ files ∧ f.file = k := by
  induction files generalizing files_by_id with
  | nil =>
    obtain rfl := Except.ok.inj h
    simp
  | cons file rest ih =>
    unfold filesById at h
    split at h
    · cases h
    rename_i hnew
    have hnone : files_by_id.get file.file = none := by simpa using hnew
    rw [ih h, SortedMap.get_insert]
    by_cases hk : k = file.file
    · subst hk
      rw [if_pos rfl, hnone]
      constructor
      · rintro (heq | ⟨hmem, hfile⟩)
        · obtain rfl := Option.some.inj heq
          exact .inr ⟨List.mem_cons_self, rfl⟩
        · exact .inr ⟨List.mem_cons_of_mem _ hmem, hfile⟩
      · rintro (heq | ⟨hmem, hfile⟩)
        · cases heq
        · rcases List.mem_cons.mp hmem with rfl | hmem
          · exact .inl rfl
          · exact .inr ⟨hmem, hfile⟩
    · rw [if_neg hk]
      constructor
      · rintro (heq | ⟨hmem, hfile⟩)
        · exact .inl heq
        · exact .inr ⟨List.mem_cons_of_mem _ hmem, hfile⟩
      · rintro (heq | ⟨hmem, hfile⟩)
        · exact .inl heq
        · rcases List.mem_cons.mp hmem with rfl | hmem
          · exact absurd hfile.symm hk
          · exact .inr ⟨hmem, hfile⟩

/-- The edits of all fixes that are applied without review. -/
def selectedEdits (diagnostics : List Diagnostic) : List TextEdit :=
  diagnostics.flatMap fun diagnostic =>
    match diagnostic.fix with
    | none => []
    | some fix => if fix.applicability = .MachineApplicable then fix.edits else []

/-- The file of an edit is known, and its span lies in the source. -/
def Valid (files : SortedMap FileId PlannedFile) (edit : TextEdit) : Prop :=
  ∃ snapshot, files.get edit.file = some snapshot ∧ Fits snapshot.source edit

theorem validateEdit_ok {title : String} {files : SortedMap FileId PlannedFile} {edit : TextEdit}
    (h : validateEdit title files edit = .ok ()) : Valid files edit := by
  unfold validateEdit at h
  cases hfile : files.get edit.file with
  | none =>
    rw [hfile] at h
    cases h
  | some snapshot =>
    rw [hfile] at h
    dsimp only at h
    split at h
    · cases h
    · split at h
      · cases h
      · rename_i hcut
        simp only [Bool.or_eq_true, Bool.not_eq_true', not_or, Bool.not_eq_false] at hcut
        exact ⟨snapshot, hfile, hcut⟩

theorem groupEdits_ok {title : String} {files : SortedMap FileId PlannedFile}
    {by_file out : SortedMap FileId (List TextEdit)} {edits : List TextEdit}
    (h : groupEdits title files by_file edits = .ok out) : ∀ e ∈ edits, Valid files e := by
  induction edits generalizing by_file with
  | nil => nofun
  | cons first rest ih =>
    unfold groupEdits at h
    obtain ⟨_, hfirst, h⟩ := bind_ok h
    intro e he
    rcases List.mem_cons.mp he with rfl | he
    · exact validateEdit_ok hfirst
    · exact ih h e he

/-- The fixes that are selected hold the selected edits, all of them valid. -/
theorem selectFixes_edits {files : SortedMap FileId PlannedFile} {diagnostics : List Diagnostic}
    {candidates : List Candidate} (h : selectFixes files diagnostics = .ok candidates) :
    candidates.flatMap Candidate.edits = selectedEdits diagnostics ∧
      ∀ e ∈ selectedEdits diagnostics, Valid files e := by
  induction diagnostics generalizing candidates with
  | nil =>
    obtain rfl := Except.ok.inj h
    exact ⟨rfl, nofun⟩
  | cons diagnostic rest ih =>
    have hcons : selectedEdits (diagnostic :: rest) = (match diagnostic.fix with
        | none => []
        | some fix => if fix.applicability = .MachineApplicable then fix.edits else []) ++
        selectedEdits rest := rfl
    rw [hcons]
    unfold selectFixes at h
    cases hfix : diagnostic.fix with
    | none =>
      rw [hfix] at h
      exact ih h
    | some fix =>
      rw [hfix] at h
      dsimp only at h ⊢
      by_cases happly : fix.applicability = .MachineApplicable
      · rw [if_neg (not_not.mpr happly)] at h
        rw [if_pos happly]
        split at h
        · cases h
        split at h
        · cases h
        obtain ⟨_, hvalid, h⟩ := bind_ok h
        obtain ⟨later, hlater, h⟩ := bind_ok h
        obtain rfl := Except.ok.inj h
        obtain ⟨hedits, hrest⟩ := ih hlater
        obtain ⟨by_file, hgroup, -⟩ := bind_ok hvalid
        refine ⟨by rw [List.flatMap_cons, hedits], fun e he => ?_⟩
        rcases List.mem_append.mp he with he | he
        · exact groupEdits_ok hgroup e he
        · exact hrest e he
      · rw [if_pos happly] at h
        rw [if_neg happly]
        exact ih h

/-! ## Edits taken one after the other -/

/-- The two maps hold the edits of a history by their files, and those of one
file do not overlap. -/
structure Taken (taken : Accepted) (history : List TextEdit) : Prop where
  accepted : ∀ file, ((taken.accepted.get file).getD []).map AcceptedEdit.edit =
    history.filter fun e => e.file = file
  edits : ∀ file, (taken.edits.get file).getD [] = history.filter fun e => e.file = file
  apart : history.Pairwise fun a b => a.file = b.file → editsOverlap a b = false

theorem getD_pushTo {α : Type} (m : SortedMap FileId (List α)) (file : FileId) (x : α)
    (k : FileId) : ((pushTo m file x).get k).getD [] =
      if k = file then (m.get k).getD [] ++ [x] else (m.get k).getD [] := by
  unfold pushTo
  rw [SortedMap.get_insert]
  by_cases h : k = file
  · rw [if_pos h, if_pos h, h]
    rfl
  · rw [if_neg h, if_neg h]

theorem acceptEdit_taken {title : String} {taken out : Accepted} {history : List TextEdit}
    {edit : TextEdit} (ht : Taken taken history) (h : acceptEdit title taken edit = .ok out) :
    Taken out (history ++ [edit]) := by
  unfold acceptEdit at h
  cases hfind : ((taken.accepted.get edit.file).getD []).find?
      fun prior => editsOverlap prior.edit edit with
  | some prior =>
    rw [hfind] at h
    cases h
  | none =>
    rw [hfind] at h
    obtain rfl := Except.ok.inj h
    have hfilter : ∀ file, (history ++ [edit]).filter (fun e => e.file = file) =
        if file = edit.file then history.filter (fun e => e.file = file) ++ [edit]
        else history.filter fun e => e.file = file := by
      intro file
      rw [List.filter_append, List.filter_singleton]
      by_cases hfile : file = edit.file
      · simp [hfile]
      · simp [hfile, Ne.symm hfile]
    constructor
    · intro file
      rw [getD_pushTo, hfilter, ← ht.accepted]
      split
      · rw [List.map_append]
        rfl
      · rfl
    · intro file
      rw [getD_pushTo, hfilter, ht.edits]
    · refine List.pairwise_append.mpr ⟨ht.apart, List.pairwise_singleton _ _, ?_⟩
      intro a ha b hb hfile
      obtain rfl := List.mem_singleton.mp hb
      have hmem : a ∈ ((taken.accepted.get b.file).getD []).map AcceptedEdit.edit := by
        rw [ht.accepted]
        exact List.mem_filter.mpr ⟨ha, by simpa using hfile⟩
      obtain ⟨prior, hprior, rfl⟩ := List.mem_map.mp hmem
      simpa using List.find?_eq_none.mp hfind prior hprior

theorem acceptCandidate_taken {taken out : Accepted} {history : List TextEdit}
    {candidate : Candidate} (ht : Taken taken history)
    (h : acceptCandidate taken candidate = .ok out) : Taken out (history ++ candidate.edits) := by
  unfold acceptCandidate at h
  revert h ht
  generalize candidate.edits = edits
  induction edits generalizing taken history with
  | nil =>
    intro ht h
    obtain rfl := Except.ok.inj h
    rwa [List.append_nil]
  | cons edit edits ih =>
    intro ht h
    rw [List.foldlM_cons] at h
    obtain ⟨next, hnext, h⟩ := bind_ok h
    have hrest := ih (acceptEdit_taken ht hnext) h
    rwa [List.append_assoc] at hrest

theorem candidates_taken {taken out : Accepted} {history : List TextEdit}
    {candidates : List Candidate} (ht : Taken taken history)
    (h : candidates.foldlM acceptCandidate taken = .ok out) :
    Taken out (history ++ candidates.flatMap Candidate.edits) := by
  induction candidates generalizing taken history with
  | nil =>
    obtain rfl := Except.ok.inj h
    rwa [List.flatMap_nil, List.append_nil]
  | cons candidate candidates ih =>
    rw [List.foldlM_cons] at h
    obtain ⟨next, hnext, h⟩ := bind_ok h
    have hrest := ih (acceptCandidate_taken ht hnext) h
    rwa [List.append_assoc] at hrest

/-- The plan has the snapshots of its files. Its edits of a file are the
selected ones, in an order in which none reaches into the next. -/
structure Built (files : List PlannedFile) (diagnostics : List Diagnostic) (plan : FixPlan) :
    Prop where
  files : ∀ k f, plan.files.get k = some f ↔ f ∈ files ∧ f.file = k
  perm : ∀ file, ((plan.edits.get file).getD []).Perm
    ((selectedEdits diagnostics).filter fun e => e.file = file)
  ordered : ∀ file, Ordered ((plan.edits.get file).getD [])
  valid : ∀ e ∈ selectedEdits diagnostics, Valid plan.files e

theorem build_ok {files : List PlannedFile} {diagnostics : List Diagnostic} {plan : FixPlan}
    (h : FixPlan.build files diagnostics = .ok plan) : Built files diagnostics plan := by
  unfold FixPlan.build at h
  obtain ⟨files_by_id, hfiles, h⟩ := bind_ok h
  obtain ⟨candidates, hselect, h⟩ := bind_ok h
  obtain ⟨taken, htaken, h⟩ := bind_ok h
  obtain rfl := Except.ok.inj h
  obtain ⟨hedits, hvalid⟩ := selectFixes_edits hselect
  have hstart : Taken ⟨.empty, .empty⟩ [] := ⟨fun _ => rfl, fun _ => rfl, .nil⟩
  have hall := candidates_taken hstart htaken
  rw [List.nil_append] at hall
  have hsorted : ((sortCandidates candidates).flatMap Candidate.edits).Perm
      (selectedEdits diagnostics) := by
    rw [← hedits]
    exact (List.perm_insertionSort _ candidates).flatMap_right _
  have hget : ∀ file, ((taken.edits.mapValues sortEdits).get file).getD [] =
      sortEdits (((sortCandidates candidates).flatMap Candidate.edits).filter
        fun e => e.file = file) := by
    intro file
    rw [SortedMap.get_mapValues, ← hall.edits file]
    cases taken.edits.get file <;> rfl
  constructor
  · intro k f
    rw [filesById_get hfiles, SortedMap.get_empty]
    simp
  · intro file
    rw [hget]
    exact (sortEdits_perm _).trans (hsorted.filter _)
  · intro file
    rw [hget]
    refine sortEdits_ordered ?_
    have happly := hall.apart.filter fun e => e.file = file
    refine List.Pairwise.imp_of_mem ?_ happly
    intro a b ha hb hapart
    have hfa := (List.mem_filter.mp ha).2
    have hfb := (List.mem_filter.mp hb).2
    simp only [decide_eq_true_eq] at hfa hfb
    exact hapart (hfa.trans hfb.symm)
  · exact hvalid

/-! ## The plan applied -/

/-- The sources are those that were analysed. -/
def Exact (files : List PlannedFile) (sources : SortedMap FileId Str) : Prop :=
  ∀ file text, sources.get file = some text ↔ ⟨file, text⟩ ∈ files

/-- The text of a file after all selected edits of the file took effect at
once, in the coordinates of the source. -/
def Replaced (diagnostics : List Diagnostic) (f : PlannedFile) (after : Str) : Prop :=
  ∃ edits, edits.Perm ((selectedEdits diagnostics).filter fun e => e.file = f.file) ∧
    Substitutes 0 f.source edits after

theorem validateSources_exact {files : List PlannedFile} {diagnostics : List Diagnostic}
    {plan : FixPlan} {sources : SortedMap FileId Str} (hbuilt : Built files diagnostics plan)
    (hexact : Exact files sources) : plan.validateSources sources = .ok () := by
  unfold FixPlan.validateSources
  have hknown : sources.entries.find? (fun entry => (plan.files.get entry.1).isNone) = none := by
    apply List.find?_eq_none.mpr
    intro entry he
    have hfile := (hexact entry.1 entry.2).mp (SortedMap.get_of_mem he)
    have hget := (hbuilt.files entry.1 ⟨entry.1, entry.2⟩).mpr ⟨hfile, rfl⟩
    rw [hget]
    simp
  have hfresh : plan.files.entries.find?
      (fun entry => sources.get entry.1 ≠ some entry.2.source) = none := by
    apply List.find?_eq_none.mpr
    intro entry he
    obtain ⟨hfile, hid⟩ := (hbuilt.files entry.1 entry.2).mp (SortedMap.get_of_mem he)
    have hget : sources.get entry.1 = some entry.2.source := by
      apply (hexact entry.1 entry.2.source).mpr
      rw [← hid]
      exact hfile
    simpa using hget
  rw [hknown]
  dsimp only
  rw [hfresh]

/-- The edits of a snapshot apply without a panic. -/
theorem changeOf_built {files : List PlannedFile} {diagnostics : List Diagnostic}
    {plan : FixPlan} (hbuilt : Built files diagnostics plan) {entry : FileId × PlannedFile}
    (he : entry ∈ plan.files.entries) :
    ∃ after, plan.changeOf entry = some ⟨entry.1, entry.2.source, after⟩ ∧
      Replaced diagnostics entry.2 after := by
  have hget := SortedMap.get_of_mem he
  obtain ⟨-, hid⟩ := (hbuilt.files entry.1 entry.2).mp hget
  have hfits : ∀ e ∈ (plan.edits.get entry.1).getD [],
      Fits ([] ++ entry.2.source) e ∧ len [] ≤ e.span.start := by
    intro e hmem
    obtain ⟨hsel, hfile⟩ := List.mem_filter.mp ((hbuilt.perm entry.1).mem_iff.mp hmem)
    rw [decide_eq_true_eq] at hfile
    obtain ⟨snapshot, hsnap, hfit⟩ := hbuilt.valid e hsel
    rw [hfile, hget] at hsnap
    obtain rfl := Option.some.inj hsnap
    exact ⟨hfit, Nat.zero_le _⟩
  obtain ⟨after, happly, hsub⟩ := apply_ordered [] entry.2.source (hbuilt.ordered entry.1) hfits
  rw [List.nil_append] at happly
  refine ⟨after, ?_, (plan.edits.get entry.1).getD [], ?_, hsub⟩
  · unfold FixPlan.changeOf
    rw [happly]
    rfl
  · rw [hid]
    exact hbuilt.perm entry.1

theorem mapM_total {α β : Type} {f : α → Option β} {P : α → β → Prop} {l : List α}
    (h : ∀ a ∈ l, ∃ b, f a = some b ∧ P a b) : ∃ out, l.mapM f = some out ∧
      List.Forall₂ P l out := by
  induction l with
  | nil => exact ⟨[], rfl, .nil⟩
  | cons a l ih =>
    obtain ⟨b, hb, hab⟩ := h a List.mem_cons_self
    obtain ⟨out, hout, hall⟩ := ih fun x hx => h x (List.mem_cons_of_mem _ hx)
    refine ⟨b :: out, ?_, .cons hab hall⟩
    rw [List.mapM_cons, hb, hout]
    rfl

theorem forall₂_mem_right {α β : Type} {P : α → β → Prop} {l : List α} {out : List β}
    (h : List.Forall₂ P l out) {b : β} (hb : b ∈ out) : ∃ a ∈ l, P a b := by
  induction h with
  | nil => cases hb
  | cons hfirst _ ih =>
    rcases List.mem_cons.mp hb with rfl | hb
    · exact ⟨_, List.mem_cons_self, hfirst⟩
    · obtain ⟨a, ha, hab⟩ := ih hb
      exact ⟨a, List.mem_cons_of_mem _ ha, hab⟩

theorem forall₂_mem_left {α β : Type} {P : α → β → Prop} {l : List α} {out : List β}
    (h : List.Forall₂ P l out) {a : α} (ha : a ∈ l) : ∃ b ∈ out, P a b := by
  obtain ⟨b, hb, hab⟩ := forall₂_mem_right h.flip ha
  exact ⟨b, hb, hab⟩

/-- A change of a file replaces all its edits at once. -/
def ChangeOf (diagnostics : List Diagnostic) (entry : FileId × PlannedFile)
    (change : PlannedChange) : Prop :=
  change.file = entry.1 ∧ change.before = entry.2.source ∧
    Replaced diagnostics entry.2 change.after

theorem transformedChanges_built {files : List PlannedFile} {diagnostics : List Diagnostic}
    {plan : FixPlan} {sources : SortedMap FileId Str} (hbuilt : Built files diagnostics plan)
    (hexact : Exact files sources) :
    ∃ changes, plan.transformedChanges sources = some (.ok changes) ∧
      List.Forall₂ (ChangeOf diagnostics) plan.files.entries changes := by
  have heach : ∀ entry ∈ plan.files.entries, ∃ change, plan.changeOf entry = some change ∧
      ChangeOf diagnostics entry change := by
    intro entry he
    obtain ⟨after, hsome, hreplaced⟩ := changeOf_built hbuilt he
    exact ⟨_, hsome, rfl, rfl, hreplaced⟩
  obtain ⟨changes, hmap, hall⟩ := mapM_total heach
  refine ⟨changes, ?_, hall⟩
  unfold FixPlan.transformedChanges
  rw [validateSources_exact hbuilt hexact]
  dsimp only
  rw [hmap]
  rfl

/-- The changes stand in the order of the files. -/
theorem changes_sorted {diagnostics : List Diagnostic} {entries : List (FileId × PlannedFile)}
    {changes : List PlannedChange} (hall : List.Forall₂ (ChangeOf diagnostics) entries changes)
    (hsorted : entries.Pairwise fun a b => a.1 < b.1) :
    changes.Pairwise fun a b => a.file < b.file := by
  induction hall with
  | nil => exact .nil
  | cons hfirst hrest ih =>
    obtain ⟨hless, hsorted⟩ := List.pairwise_cons.mp hsorted
    refine List.pairwise_cons.mpr ⟨fun change hc => ?_, ih hsorted⟩
    obtain ⟨entry, he, hchange⟩ := forall₂_mem_right hrest hc
    rw [hfirst.1, hchange.1]
    exact hless entry he

/-- The texts that are left under the files after every change is put in. -/
theorem foldl_insert_get {changes : List PlannedChange}
    (hsorted : changes.Pairwise fun a b => a.file < b.file) (out : SortedMap FileId Str)
    (k : FileId) (v : Str) :
    (changes.foldl (fun out change => out.insert change.file change.after) out).get k = some v ↔
      (∃ change ∈ changes, change.file = k ∧ change.after = v) ∨
        (∀ change ∈ changes, change.file ≠ k) ∧ out.get k = some v := by
  induction changes generalizing out with
  | nil => simp
  | cons change changes ih =>
    obtain ⟨hless, hrest⟩ := List.pairwise_cons.mp hsorted
    rw [List.foldl_cons, ih hrest, SortedMap.get_insert]
    by_cases hk : k = change.file
    · subst hk
      have hlater : ∀ c ∈ changes, c.file ≠ change.file := fun c hc => (hless c hc).ne'
      rw [if_pos rfl]
      constructor
      · rintro (⟨c, hc, hfile, -⟩ | ⟨-, hafter⟩)
        · exact absurd hfile (hlater c hc)
        · exact .inl ⟨change, List.mem_cons_self, rfl, Option.some.inj hafter⟩
      · rintro (⟨c, hc, hfile, rfl⟩ | ⟨hnone, -⟩)
        · rcases List.mem_cons.mp hc with rfl | hc
          · exact .inr ⟨hlater, rfl⟩
          · exact absurd hfile (hlater c hc)
        · exact absurd rfl (hnone change List.mem_cons_self)
    · rw [if_neg hk]
      simp [Ne.symm hk]

/-- A plan that was built applies to the analysed sources without a panic. It
gives every file the text in which all selected edits of the file are replaced
at once. The preview has one change for each file whose text is another one,
in the order of the files, and the check tells whether there is any. -/
theorem a_plan_replaces_all_spans_at_once {files : List PlannedFile}
    {diagnostics : List Diagnostic} {plan : FixPlan} {sources : SortedMap FileId Str}
    (hbuild : FixPlan.build files diagnostics = .ok plan) (hexact : Exact files sources) :
    ∃ out changes, plan.apply sources = some (.ok out) ∧
      plan.preview sources = some (.ok changes) ∧
      plan.check sources = some (.ok (!changes.isEmpty)) ∧
      (∀ file, (out.get file).isSome ↔ ∃ f ∈ files, f.file = file) ∧
      (∀ f ∈ files, ∃ after, Replaced diagnostics f after ∧ out.get f.file = some after ∧
        ∀ change, change ∈ changes ∧ change.file = f.file ↔
          change = ⟨f.file, f.source, after⟩ ∧ f.source ≠ after) ∧
      (changes.Pairwise fun a b => a.file < b.file) ∧
      ∀ change ∈ changes, ∃ f ∈ files, f.file = change.file := by
  have hbuilt := build_ok hbuild
  obtain ⟨all, hall, hforall⟩ := transformedChanges_built hbuilt hexact
  have hsorted := changes_sorted hforall plan.files.sorted
  have hentry : ∀ change ∈ all, ∃ f ∈ files, f.file = change.file ∧ f.source = change.before ∧
      Replaced diagnostics f change.after := by
    intro change hc
    obtain ⟨entry, he, hfile, hbefore, hreplaced⟩ := forall₂_mem_right hforall hc
    obtain ⟨hmem, hid⟩ := (hbuilt.files entry.1 entry.2).mp (SortedMap.get_of_mem he)
    exact ⟨entry.2, hmem, hid.trans hfile.symm, hbefore.symm, hreplaced⟩
  have hchange : ∀ f ∈ files, ∃ change ∈ all, change.file = f.file ∧ change.before = f.source ∧
      Replaced diagnostics f change.after := by
    intro f hf
    have he := SortedMap.mem_of_get ((hbuilt.files f.file f).mpr ⟨hf, rfl⟩)
    obtain ⟨change, hc, hof⟩ := forall₂_mem_left hforall he
    exact ⟨change, hc, hof⟩
  -- no two changes are of one file
  have hunique : ∀ a ∈ all, ∀ b ∈ all, a.file = b.file → a = b := by
    have hnodup : (all.map PlannedChange.file).Nodup :=
      List.pairwise_map.mpr (hsorted.imp ne_of_lt)
    intro a ha b hb hfile
    exact List.inj_on_of_nodup_map hnodup ha hb hfile
  have hget := foldl_insert_get hsorted SortedMap.empty
  refine ⟨all.foldl (fun out change => out.insert change.file change.after) .empty,
    all.filter fun change => change.before ≠ change.after, ?_, ?_, ?_, ?_, ?_,
    hsorted.filter _, ?_⟩
  · unfold FixPlan.apply
    rw [hall]
    rfl
  · unfold FixPlan.preview
    rw [hall]
    rfl
  · unfold FixPlan.check FixPlan.preview
    rw [hall]
    rfl
  · intro file
    rw [Option.isSome_iff_exists]
    constructor
    · rintro ⟨text, htext⟩
      rcases (hget file text).mp htext with ⟨change, hc, rfl, -⟩ | ⟨-, hempty⟩
      · obtain ⟨f, hf, hfile, -⟩ := hentry change hc
        exact ⟨f, hf, hfile⟩
      · cases hempty
    · rintro ⟨f, hf, rfl⟩
      obtain ⟨change, hc, hfile, -⟩ := hchange f hf
      exact ⟨change.after, (hget _ _).mpr (.inl ⟨change, hc, hfile, rfl⟩)⟩
  · intro f hf
    obtain ⟨change, hc, hfile, hbefore, hreplaced⟩ := hchange f hf
    refine ⟨change.after, hreplaced, (hget _ _).mpr (.inl ⟨change, hc, hfile, rfl⟩), ?_⟩
    have hshape : change = ⟨f.file, f.source, change.after⟩ := by
      rw [← hfile, ← hbefore]
    intro c
    constructor
    · rintro ⟨hmem, hcfile⟩
      obtain ⟨hcall, hdiff⟩ := List.mem_filter.mp hmem
      obtain rfl := hunique c hcall change hc (hcfile.trans hfile.symm)
      rw [hbefore] at hdiff
      exact ⟨hshape, by simpa using hdiff⟩
    · rintro ⟨rfl, hdiff⟩
      refine ⟨List.mem_filter.mpr ⟨?_, by simpa using hdiff⟩, rfl⟩
      rw [← hshape]
      exact hc
  · intro change hc
    obtain ⟨f, hf, hfile, -⟩ := hentry change (List.mem_filter.mp hc).1
    exact ⟨f, hf, hfile⟩

def twoFiles : List PlannedFile := [⟨1, ['a', 'b', 'c']⟩, ⟨2, ['d', 'é']⟩]

theorem twoFixes_bounds : 1 ≤ 2 := Nat.le_succ 1

def twoFixes : List Diagnostic :=
  [⟨some ⟨"Replace", .MachineApplicable, .SyntaxOnly, [⟨1, ⟨1, 2, twoFixes_bounds⟩, ['X', 'Y']⟩]⟩⟩,
    ⟨some ⟨"Insert", .MachineApplicable, .SyntaxOnly, [⟨1, ⟨1, 1, by decide⟩, ['Z']⟩]⟩⟩]

def twoSources : SortedMap FileId Str := ⟨[(1, ['a', 'b', 'c']), (2, ['d', 'é'])], by decide⟩

/-- The insertion goes in front of the text that replaces what stands at its place. -/
theorem an_insertion_before_a_replacement :
    ∃ plan out changes, FixPlan.build twoFiles twoFixes = .ok plan ∧
      plan.apply twoSources = some (.ok out) ∧ out.get 1 = some ['a', 'Z', 'X', 'Y', 'c'] ∧
      out.get 2 = some ['d', 'é'] ∧ plan.preview twoSources = some (.ok changes) ∧
      changes.map PlannedChange.file = [1] ∧
      plan.check twoSources = some (.ok (!changes.isEmpty)) := by
  have hexact : Exact twoFiles twoSources := by
    intro file text
    rw [SortedMap.get_eq_some_iff]
    simp [twoFiles, twoSources]
  obtain ⟨plan, hbuild, htexts, hfiles⟩ : ∃ plan, FixPlan.build twoFiles twoFixes = .ok plan ∧
      (∀ out, plan.apply twoSources = some (.ok out) →
        out.get 1 = some ['a', 'Z', 'X', 'Y', 'c'] ∧ out.get 2 = some ['d', 'é']) ∧
      ∀ changes, plan.preview twoSources = some (.ok changes) →
        changes.map PlannedChange.file = [1] := by
    refine ⟨_, rfl, fun out hout => ?_, fun changes hchanges => ?_⟩
    · obtain rfl := Except.ok.inj (Option.some.inj hout)
      exact ⟨rfl, rfl⟩
    · obtain rfl := Except.ok.inj (Option.some.inj hchanges)
      rfl
  obtain ⟨out, changes, happly, hpreview, hcheck, -⟩ :=
    a_plan_replaces_all_spans_at_once hbuild hexact
  exact ⟨plan, out, changes, hbuild, happly, (htexts out happly).1, (htexts out happly).2,
    hpreview, hfiles changes hpreview, hcheck⟩

end analyzer.fix_plan
