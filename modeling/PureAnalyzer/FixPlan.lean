-- Fix plans (`fix.rs` and `fix_plan.rs` of the diagnostics): the edits of the
-- machine-applicable fixes of all diagnostics, checked one by one and
-- against each other, and their application to the sources. A source is its
-- characters, and an offset counts bytes.
import Mathlib.Data.List.MinMax
import Mathlib.Data.List.Sort
import Mathlib.Data.Prod.Lex
import Mathlib.Order.WithBot
import PureAnalyzer.Document
import PureAnalyzer.ModelTypes

namespace analyzer.fix_plan

open document model

abbrev FileId := Nat

/-! ## Fixes -/

inductive Applicability where
  | MachineApplicable
  | Suggested
  | Unsafe
deriving DecidableEq, Repr

inductive FixProvenance where
  | SyntaxOnly
  | ModelDependent
  | SingleArityProven
deriving DecidableEq, Repr

def FixProvenance.permitsMachineApplication : FixProvenance → Bool
  | .SyntaxOnly | .SingleArityProven => true
  | .ModelDependent => false

/-- Replaces a range of a file by a text. -/
structure TextEdit where
  file : FileId
  span : TextRange
  new_text : Str
deriving DecidableEq

structure Fix where
  title : String
  applicability : Applicability
  provenance : FixProvenance
  edits : List TextEdit
deriving DecidableEq

/-- A diagnostic, with the one field of it that planning reads. -/
structure Diagnostic where
  fix : Option Fix
deriving DecidableEq

/-! ## Plans -/

structure PlannedFile where
  file : FileId
  source : Str
deriving DecidableEq

structure PlannedChange where
  file : FileId
  before : Str
  after : Str
deriving DecidableEq

structure FixPlan where
  files : SortedMap FileId PlannedFile
  edits : SortedMap FileId (List TextEdit)

inductive FixPlanError where
  | DuplicateFile (file : FileId)
  | EmptyFix (title : String)
  | ApplicabilityPolicy (title : String) (provenance : FixProvenance)
  | UnknownFile (title : String) (file : FileId)
  | UnorderedEdits (title : String) (file : FileId)
  | OutOfBounds (title : String) (file : FileId) (span : TextRange)
  | InvalidUtf8Boundary (title : String) (file : FileId) (span : TextRange)
  | Conflict (file : FileId) (first second : String)
  | StaleSource (file : FileId)
  | UnexpectedSource (file : FileId)
deriving DecidableEq

/-- A fix that was selected. -/
structure Candidate where
  title : String
  edits : List TextEdit
deriving DecidableEq

structure AcceptedEdit where
  title : String
  edit : TextEdit
deriving DecidableEq

/-- Appends to the list under a key. -/
def pushTo {α : Type} (m : SortedMap FileId (List α)) (file : FileId) (x : α) :
    SortedMap FileId (List α) :=
  m.insert file ((m.get file).getD [] ++ [x])

/-! ## The checks of one fix -/

def isCharBoundary (source : Str) (offset : Nat) : Bool := (splitAtByte offset source).isSome

def isEmptySpan (span : TextRange) : Bool := span.start = span.stop

def validateEdit (title : String) (files : SortedMap FileId PlannedFile) (edit : TextEdit) :
    Except FixPlanError Unit :=
  match files.get edit.file with
  | none => .error (.UnknownFile title edit.file)
  | some snapshot =>
    if edit.span.start > len snapshot.source || edit.span.stop > len snapshot.source then
      .error (.OutOfBounds title edit.file edit.span)
    else if !isCharBoundary snapshot.source edit.span.start ||
        !isCharBoundary snapshot.source edit.span.stop then
      .error (.InvalidUtf8Boundary title edit.file edit.span)
    else .ok ()

/-- The edits of one file come in the order of the source. -/
def validateOrder (title : String) (file : FileId) :
    Option TextEdit → List TextEdit → Except FixPlanError Unit
  | _, [] => .ok ()
  | previous, edit :: rest =>
    if previous.any fun prior => edit.span.start < prior.span.stop ||
        (edit.span = prior.span && isEmptySpan edit.span) then
      .error (.UnorderedEdits title file)
    else validateOrder title file (some edit) rest

def groupEdits (title : String) (files : SortedMap FileId PlannedFile) :
    SortedMap FileId (List TextEdit) → List TextEdit →
      Except FixPlanError (SortedMap FileId (List TextEdit))
  | by_file, [] => .ok by_file
  | by_file, edit :: rest => do
    validateEdit title files edit
    groupEdits title files (pushTo by_file edit.file edit) rest

def validateGroups (title : String) :
    List (FileId × List TextEdit) → Except FixPlanError Unit
  | [] => .ok ()
  | (file, file_edits) :: rest => do
    validateOrder title file none file_edits
    validateGroups title rest

def validateFix (title : String) (files : SortedMap FileId PlannedFile) (edits : List TextEdit) :
    Except FixPlanError Unit := do
  let by_file ← groupEdits title files .empty edits
  validateGroups title by_file.entries

/-! ## Building a plan -/

def filesById : SortedMap FileId PlannedFile → List PlannedFile →
    Except FixPlanError (SortedMap FileId PlannedFile)
  | files_by_id, [] => .ok files_by_id
  | files_by_id, file :: rest =>
    if (files_by_id.get file.file).isSome then .error (.DuplicateFile file.file)
    else filesById (files_by_id.insert file.file file) rest

/-- The fixes that are applied without review, each of them checked. -/
def selectFixes (files : SortedMap FileId PlannedFile) :
    List Diagnostic → Except FixPlanError (List Candidate)
  | [] => .ok []
  | diagnostic :: rest =>
    match diagnostic.fix with
    | none => selectFixes files rest
    | some fix =>
      if fix.applicability ≠ .MachineApplicable then selectFixes files rest
      else if !fix.provenance.permitsMachineApplication then
        .error (.ApplicabilityPolicy fix.title fix.provenance)
      else if fix.edits.isEmpty then .error (.EmptyFix fix.title)
      else do
        validateFix fix.title files fix.edits
        let candidates ← selectFixes files rest
        return ⟨fix.title, fix.edits⟩ :: candidates

def editKey (edit : TextEdit) : FileId ×ₗ Nat ×ₗ Nat :=
  toLex (edit.file, toLex (edit.span.start, edit.span.stop))

/-- The place of the first edit of a fix, and then its title. -/
def firstKey (candidate : Candidate) : WithBot (FileId ×ₗ Nat ×ₗ Nat ×ₗ String) :=
  match candidate.edits.argmin editKey with
  | none => ⊥
  | some first => WithBot.some (toLex (first.file,
      toLex (first.span.start, toLex (first.span.stop, candidate.title))))

def editsOverlap (left right : TextEdit) : Bool :=
  (left.span.start < right.span.stop && right.span.start < left.span.stop) ||
    (left.span = right.span && isEmptySpan left.span)

/-- The edits taken so far, with the titles of their fixes and without. -/
structure Accepted where
  accepted : SortedMap FileId (List AcceptedEdit)
  edits : SortedMap FileId (List TextEdit)

def acceptEdit (title : String) (taken : Accepted) (edit : TextEdit) :
    Except FixPlanError Accepted :=
  match ((taken.accepted.get edit.file).getD []).find?
      fun prior => editsOverlap prior.edit edit with
  | some prior => .error (.Conflict edit.file prior.title title)
  | none => .ok ⟨pushTo taken.accepted edit.file ⟨title, edit⟩, pushTo taken.edits edit.file edit⟩

def acceptCandidate (taken : Accepted) (candidate : Candidate) : Except FixPlanError Accepted :=
  candidate.edits.foldlM (acceptEdit candidate.title) taken

def spanKey (edit : TextEdit) : Nat ×ₗ Nat := toLex (edit.span.start, edit.span.stop)

def sortEdits (edits : List TextEdit) : List TextEdit :=
  edits.insertionSort fun left right => spanKey left ≤ spanKey right

def sortCandidates (candidates : List Candidate) : List Candidate :=
  candidates.insertionSort fun left right => firstKey left ≤ firstKey right

namespace FixPlan

def build (files : List PlannedFile) (diagnostics : List Diagnostic) :
    Except FixPlanError FixPlan := do
  let files_by_id ← filesById .empty files
  let candidates ← selectFixes files_by_id diagnostics
  let taken ← (sortCandidates candidates).foldlM acceptCandidate ⟨.empty, .empty⟩
  return ⟨files_by_id, taken.edits.mapValues sortEdits⟩

def isEmpty (plan : FixPlan) : Bool := plan.edits.entries.isEmpty

/-! ## Applying a plan -/

/-- Puts a text in the place of a range. There is no result where the range
is not in the text or cuts a character, on which the program panics. -/
def replaceRange (text : Str) (span : TextRange) (new_text : Str) : Option Str := do
  let (before, rest) ← splitAtByte span.start text
  let (_, after) ← splitAtByte (span.stop - span.start) rest
  return before ++ new_text ++ after

def applyEdit (text : Str) (edit : TextEdit) : Option Str :=
  replaceRange text edit.span edit.new_text

def validateSources (plan : FixPlan) (sources : SortedMap FileId Str) : Except FixPlanError Unit :=
  match sources.entries.find? fun entry => (plan.files.get entry.1).isNone with
  | some entry => .error (.UnexpectedSource entry.1)
  | none =>
    match plan.files.entries.find? fun entry => sources.get entry.1 ≠ some entry.2.source with
    | some entry => .error (.StaleSource entry.1)
    | none => .ok ()

/-- The edits of a file are applied from the last to the first. -/
def changeOf (plan : FixPlan) (entry : FileId × PlannedFile) : Option PlannedChange := do
  let after ← ((plan.edits.get entry.1).getD []).reverse.foldlM applyEdit entry.2.source
  return ⟨entry.1, entry.2.source, after⟩

/-- There is no result where an edit panics. -/
def transformedChanges (plan : FixPlan) (sources : SortedMap FileId Str) :
    Option (Except FixPlanError (List PlannedChange)) :=
  match plan.validateSources sources with
  | .error err => some (.error err)
  | .ok () => (plan.files.entries.mapM plan.changeOf).map .ok

def apply (plan : FixPlan) (sources : SortedMap FileId Str) :
    Option (Except FixPlanError (SortedMap FileId Str)) :=
  (plan.transformedChanges sources).map fun result => result.map fun changes =>
    changes.foldl (fun out change => out.insert change.file change.after) .empty

def preview (plan : FixPlan) (sources : SortedMap FileId Str) :
    Option (Except FixPlanError (List PlannedChange)) :=
  (plan.transformedChanges sources).map fun result => result.map fun changes =>
    changes.filter fun change => change.before ≠ change.after

def check (plan : FixPlan) (sources : SortedMap FileId Str) : Option (Except FixPlanError Bool) :=
  (plan.preview sources).map fun result => result.map fun changes => !changes.isEmpty

end FixPlan

end analyzer.fix_plan
