-- The calls on the document store and the settings, as the code makes them:
-- each writes as it goes, and reports whether it was accepted. Over any run, a
-- rejected call has written nothing, and the revisions tell a snapshot whether
-- it is still current.
import PureAnalyzer.ServerSteps

namespace analyzer.document.calls

open DocumentStore

/-! ## The calls (`document.rs`) -/

/-- Writes the next revision, unless there is none. -/
def advanceRevision (s : DocumentStore) : Option Nat × DocumentStore :=
  match checkedAdd (2 ^ 64) s.revision 1 with
  | none => (none, s)
  | some next => (some next, { s with revision := next })

def replace (s : DocumentStore) (document : DocumentSnapshot) : Bool × DocumentStore :=
  if (s.get document.uri).any fun current => !acceptsVersion current.version document.version then
    (false, s)
  else
    match advanceRevision s with
    | (none, s) => (false, s)
    | (some _, s) => (true, { s with documents := s.documents.insert document.uri document })

def remove (s : DocumentStore) (uri : String) : Option DocumentSnapshot × DocumentStore :=
  if (s.get uri).isNone then (none, s)
  else
    match advanceRevision s with
    | (none, s) => (none, s)
    | (some _, s) => (s.get uri, { s with documents := s.documents.remove uri })

/-- Makes the changes in turn, each in the text that the one before it left, up
to one that is refused. -/
def applyAll (text : Str) : List ContentChange → Bool × Str
  | [] => (true, text)
  | change :: changes =>
    match applyChange text change with
    | none => (false, text)
    | some text => applyAll text changes

/-- The changes are made in a copy of the text. The document is looked up again
to write it. -/
def applyChanges (s : DocumentStore) (uri : String) (version : Int)
    (changes : List ContentChange) : Bool × DocumentStore :=
  if changes.isEmpty then (false, s)
  else
    match s.get uri with
    | none => (false, s)
    | some document =>
      if !acceptsVersion document.version (some version) then (false, s)
      else
        match applyAll document.text changes with
        | (false, _) => (false, s)
        | (true, text) =>
          match advanceRevision s with
          | (none, s) => (false, s)
          | (some _, s) =>
            match s.get uri with
            | none => (false, s)
            | some document =>
              (true, { s with documents :=
                s.documents.insert uri { document with text, version := some version } })

/-! ### What a call comes to -/

/-- The report and the store of a call that is all or nothing. -/
def outcome (s : DocumentStore) : Option DocumentStore → Bool × DocumentStore
  | none => (false, s)
  | some t => (true, t)

theorem advanceRevision_eq (s : DocumentStore) :
    advanceRevision s = match s.advanceRevision with
      | none => (none, s)
      | some next => (some next, { s with revision := next }) := rfl

theorem replace_eq (s : DocumentStore) (document : DocumentSnapshot) :
    replace s document = outcome s (s.replace document) := by
  unfold replace DocumentStore.replace
  split
  · rfl
  · rw [advanceRevision_eq]
    cases s.advanceRevision <;> rfl

theorem remove_eq (s : DocumentStore) (uri : String) :
    remove s uri = match s.remove uri with
      | none => (none, s)
      | some (document, t) => (some document, t) := by
  unfold remove DocumentStore.remove
  cases hget : s.get uri with
  | none => rfl
  | some document =>
    rw [if_neg (by simp), advanceRevision_eq]
    cases s.advanceRevision with
    | none => rfl
    | some next =>
      show (s.get uri, _) = _
      rw [hget]
      rfl

theorem applyAll_eq (text : Str) (changes : List ContentChange) :
    applyAll text changes = match changes.foldlM applyChange text with
      | none => (false, (applyAll text changes).2)
      | some text => (true, text) := by
  induction changes generalizing text with
  | nil => rfl
  | cons change changes ih =>
    rw [List.foldlM_cons, applyAll]
    cases applyChange text change with
    | none => rfl
    | some text => exact ih text

theorem applyChanges_eq (s : DocumentStore) (uri : String) (version : Int)
    (changes : List ContentChange) :
    applyChanges s uri version changes = outcome s (s.applyChanges uri version changes) := by
  unfold applyChanges DocumentStore.applyChanges
  split
  · rfl
  · cases hget : s.get uri with
    | none => rfl
    | some document =>
      cases hversion : acceptsVersion document.version (some version) with
      | false =>
        simp only [hversion, Bool.not_false, Bool.false_eq_true, if_false, if_true]
        rfl
      | true =>
        simp only [hversion, Bool.not_true, Bool.false_eq_true, if_false, if_true]
        rw [applyAll_eq, advanceRevision_eq]
        cases changes.foldlM applyChange document.text with
        | none => rfl
        | some text =>
          cases s.advanceRevision with
          | none => rfl
          | some next =>
            have hget' : ({ s with revision := next } : DocumentStore).get uri = some document :=
              hget
            simp only [hget']
            rfl

/-! ### All that a call can do -/

/-- What an accepted call writes. -/
structure Change (s t : DocumentStore) (uri : String) : Prop where
  revision : t.revision = s.revision + 1
  others : ∀ other, other ≠ uri → t.get other = s.get other
  versions : ∀ document version, s.get uri = some document → document.version = some version →
    ∀ document', t.get uri = some document' →
      ∃ version', document'.version = some version' ∧ version < version'
  keyed : (∀ document, s.get uri = some document → document.uri = uri) →
    ∀ document, t.get uri = some document → document.uri = uri

/-- A call writes nothing and says so, or it makes its change. -/
def Reports (s : DocumentStore) (uri : String) (report : Bool) (t : DocumentStore) : Prop :=
  report = false ∧ t = s ∨ report = true ∧ Change s t uri

theorem accepts_newer {version : Int} {incoming : Option Int}
    (h : acceptsVersion (some version) incoming = true) :
    ∃ version', incoming = some version' ∧ version < version' := by
  cases incoming with
  | none => cases h
  | some version' => exact ⟨version', rfl, of_decide_eq_true h⟩

theorem replace_reports (s : DocumentStore) (document : DocumentSnapshot) :
    Reports s document.uri (replace s document).1 (replace s document).2 := by
  rw [replace_eq]
  cases h : s.replace document with
  | none => exact .inl ⟨rfl, rfl⟩
  | some t =>
    have hrevision := replace_revision h
    unfold DocumentStore.replace at h
    split at h
    · cases h
    · next hany =>
      obtain ⟨revision, -, rfl⟩ := Option.map_eq_some_iff.mp h
      have hget (other : String) := SortedMap.get_insert s.documents document.uri document other
      refine .inr ⟨rfl, hrevision, fun other hother => (hget other).trans (if_neg hother), ?_, ?_⟩
      · intro current version hcurrent hversion document' hdocument'
        obtain rfl := Option.some.inj (((hget _).trans (if_pos rfl)).symm.trans hdocument')
        rw [hcurrent, Option.any_some, hversion] at hany
        exact accepts_newer (by simpa using hany)
      · intro _ document' hdocument'
        obtain rfl := Option.some.inj (((hget _).trans (if_pos rfl)).symm.trans hdocument')
        rfl

theorem remove_reports (s : DocumentStore) (uri : String) :
    Reports s uri (remove s uri).1.isSome (remove s uri).2 := by
  rw [remove_eq]
  cases h : s.remove uri with
  | none => exact .inl ⟨rfl, rfl⟩
  | some removed =>
    have hrevision := remove_revision h
    unfold DocumentStore.remove at h
    split at h
    · cases h
    · obtain ⟨revision, -, rfl⟩ := Option.map_eq_some_iff.mp h
      have hget (other : String) := SortedMap.get_remove s.documents uri other
      have hnone (document : DocumentSnapshot) :
          (s.documents.remove uri).get uri ≠ some document := by
        rw [hget, if_pos rfl]
        nofun
      exact .inr ⟨rfl, hrevision, fun other hother => (hget other).trans (if_neg hother),
        fun _ _ _ _ document hdocument => absurd hdocument (hnone document),
        fun _ document hdocument => absurd hdocument (hnone document)⟩

theorem applyChanges_reports (s : DocumentStore) (uri : String) (version : Int)
    (changes : List ContentChange) :
    Reports s uri (applyChanges s uri version changes).1
      (applyChanges s uri version changes).2 := by
  rw [applyChanges_eq]
  cases h : s.applyChanges uri version changes with
  | none => exact .inl ⟨rfl, rfl⟩
  | some t =>
    have hrevision := applyChanges_revision h
    unfold DocumentStore.applyChanges at h
    split at h
    · cases h
    split at h
    · cases h
    next document hdocument =>
    split at h
    · next haccepts =>
      obtain ⟨text, -, h⟩ := Option.bind_eq_some_iff.mp h
      obtain ⟨revision, -, h⟩ := Option.bind_eq_some_iff.mp h
      obtain rfl := Option.some.inj h
      have hget (other : String) := SortedMap.get_insert s.documents uri
        { document with text, version := some version } other
      refine .inr ⟨rfl, hrevision, fun other hother => (hget other).trans (if_neg hother), ?_, ?_⟩
      · intro current known hcurrent hknown document' hdocument'
        obtain rfl := Option.some.inj (((hget _).trans (if_pos rfl)).symm.trans hdocument')
        obtain rfl := Option.some.inj (hcurrent.symm.trans hdocument)
        rw [hknown] at haccepts
        exact accepts_newer haccepts
      · intro hkeyed document' hdocument'
        obtain rfl := Option.some.inj (((hget _).trans (if_pos rfl)).symm.trans hdocument')
        exact hkeyed document hdocument
    · cases h

end analyzer.document.calls

namespace analyzer.lsp

open document json

/-! ## The calls of the server -/

/-- `update`, with its report. -/
def WorkspaceConfiguration.updateCall (s : WorkspaceConfiguration) (settings : Value) :
    Bool × WorkspaceConfiguration :=
  if s.settings.any (sameValue · settings) then (false, s)
  else
    match checkedAdd (2 ^ 64) s.revision 1 with
    | none => (false, s)
    | some revision => (true, ⟨some settings, modelDocuments settings, revision⟩)

/-- The documents are collected under their own identifiers. -/
def AnalysisSnapshot.collect (server : Server) : AnalysisSnapshot :=
  let documents := (server.documents.documents.entries.map Prod.snd).foldl
    (fun collected document => collected.insert document.uri document) .empty
  { document_revision := server.documents.revision
    configuration_revision := server.configuration.revision
    documents
    models := server.configuration.model_documents.filter fun route =>
      (documents.get route.uri).isSome }

/-- `Elsewhere` is what the server does to the rest of its state. -/
inductive Call where
  | Replace (document : DocumentSnapshot)
  | Remove (uri : String)
  | ApplyChanges (uri : String) (version : Int) (changes : List ContentChange)
  | Update (settings : Value)
  | Elsewhere (cancellation : CancellationRegistry) (lifecycle : Lifecycle)

def Call.uri : Call → Option String
  | .Replace document => some document.uri
  | .Remove uri | .ApplyChanges uri _ _ => some uri
  | .Update _ | .Elsewhere _ _ => none

/-- Whether the call was accepted, and the server after it. -/
def call (server : Server) : Call → Bool × Server
  | .Replace document =>
    let (accepted, documents) := calls.replace server.documents document
    (accepted, { server with documents })
  | .Remove uri =>
    let (removed, documents) := calls.remove server.documents uri
    (removed.isSome, { server with documents })
  | .ApplyChanges uri version changes =>
    let (accepted, documents) := calls.applyChanges server.documents uri version changes
    (accepted, { server with documents })
  | .Update settings =>
    let (accepted, configuration) := server.configuration.updateCall settings
    (accepted, { server with configuration })
  | .Elsewhere cancellation lifecycle => (false, { server with cancellation, lifecycle })

def run (server : Server) (calls : List Call) : Server :=
  calls.foldl (fun server c => (call server c).2) server

/-- How many of the calls are accepted, of those that are asked about. -/
def accepted (about : Call → Bool) (server : Server) : List Call → Nat
  | [] => 0
  | c :: calls =>
    (if about c && (call server c).1 then 1 else 0) + accepted about (call server c).2 calls

/-- What a call does, by its report. -/
structure Atomic (server : Server) (c : Call) : Prop where
  rejected : (call server c).1 = false →
    (call server c).2.documents = server.documents ∧
      (call server c).2.configuration = server.configuration
  document : ∀ uri, c.uri = some uri → (call server c).1 = true →
    (call server c).2.documents.revision = server.documents.revision + 1 ∧
      (∀ other, other ≠ uri →
        (call server c).2.documents.get other = server.documents.get other) ∧
      (call server c).2.configuration = server.configuration
  settings : c.uri = none → (call server c).1 = true →
    (call server c).2.configuration.revision = server.configuration.revision + 1 ∧
      (call server c).2.documents = server.documents

/-! ### One call -/

theorem updateCall_eq (s : WorkspaceConfiguration) (settings : Value) :
    s.updateCall settings = match s.update settings with
      | none => (false, s)
      | some t => (true, t) := by
  unfold WorkspaceConfiguration.updateCall WorkspaceConfiguration.update
  split
  · rfl
  · cases checkedAdd (2 ^ 64) s.revision 1 <;> rfl

/-- All that a call can do: nothing, a change of one document, or a change of
the settings. -/
theorem call_cases (server : Server) (c : Call) :
    ((call server c).1 = false ∧ (call server c).2.documents = server.documents ∧
        (call server c).2.configuration = server.configuration) ∨
      ((call server c).1 = true ∧ ∃ uri, c.uri = some uri ∧
        calls.Change server.documents (call server c).2.documents uri ∧
          (call server c).2.configuration = server.configuration) ∨
        ((call server c).1 = true ∧ c.uri = none ∧
          (call server c).2.documents = server.documents ∧
            (call server c).2.configuration.revision = server.configuration.revision + 1) := by
  cases c with
  | Replace document =>
    rcases calls.replace_reports server.documents document with ⟨hno, hsame⟩ | ⟨hyes, hchange⟩
    · exact .inl ⟨hno, hsame, rfl⟩
    · exact .inr (.inl ⟨hyes, document.uri, rfl, hchange, rfl⟩)
  | Remove uri =>
    rcases calls.remove_reports server.documents uri with ⟨hno, hsame⟩ | ⟨hyes, hchange⟩
    · exact .inl ⟨hno, hsame, rfl⟩
    · exact .inr (.inl ⟨hyes, uri, rfl, hchange, rfl⟩)
  | ApplyChanges uri version changes =>
    rcases calls.applyChanges_reports server.documents uri version changes with
      ⟨hno, hsame⟩ | ⟨hyes, hchange⟩
    · exact .inl ⟨hno, hsame, rfl⟩
    · exact .inr (.inl ⟨hyes, uri, rfl, hchange, rfl⟩)
  | Update settings =>
    have hcall : call server (.Update settings) =
        ((server.configuration.updateCall settings).1,
          { server with configuration := (server.configuration.updateCall settings).2 }) := rfl
    rw [updateCall_eq] at hcall
    rw [hcall]
    cases h : server.configuration.update settings with
    | none => exact .inl ⟨rfl, rfl, rfl⟩
    | some t => exact .inr (.inr ⟨rfl, rfl, rfl, WorkspaceConfiguration.update_revision h⟩)
  | Elsewhere cancellation lifecycle => exact .inl ⟨rfl, rfl, rfl⟩

theorem call_atomic (server : Server) (c : Call) : Atomic server c := by
  rcases call_cases server c with ⟨hno, hsame⟩ | ⟨hyes, uri, huri, hchange, hsettings⟩ |
    ⟨hyes, huri, hdocuments, hrevision⟩
  · have hnever : (call server c).1 ≠ true := by simp [hno]
    exact ⟨fun _ => hsame, fun _ _ h => absurd h hnever, fun _ h => absurd h hnever⟩
  · refine ⟨fun h => absurd hyes (by simp [h]), fun uri' huri' _ => ?_, fun h => ?_⟩
    · obtain rfl := Option.some.inj (huri.symm.trans huri')
      exact ⟨hchange.revision, hchange.others, hsettings⟩
    · cases huri.symm.trans h
  · refine ⟨fun h => absurd hyes (by simp [h]), fun uri' huri' _ => ?_, fun _ _ => ?_⟩
    · cases huri.symm.trans huri'
    · exact ⟨hrevision, hdocuments⟩

/-! ### Versions -/

/-- The document stays open after every call. -/
def StaysOpen (uri : String) (server : Server) (calls : List Call) : Prop :=
  ∀ k, ((run server (calls.take k)).documents.get uri).isSome

theorem run_versions {uri : String} {server : Server} {document : DocumentSnapshot} {version : Int}
    (hopen : server.documents.get uri = some document) (hversion : document.version = some version)
    {calls : List Call} (hstays : StaysOpen uri server calls) :
    ∃ document' version', (run server calls).documents.get uri = some document' ∧
      document'.version = some version' ∧
        if accepted (·.uri = some uri) server calls = 0 then document' = document
        else version < version' := by
  induction calls generalizing server document version with
  | nil => exact ⟨document, version, hopen, hversion, rfl⟩
  | cons c calls ih =>
    have hstays' : StaysOpen uri (call server c).2 calls := fun k => hstays (k + 1)
    have hstep := call_cases server c
    by_cases hmine : c.uri = some uri ∧ (call server c).1 = true
    · obtain ⟨huri, hyes⟩ := hmine
      obtain ⟨next, hnext⟩ := Option.isSome_iff_exists.mp (hstays' 0)
      rcases hstep with ⟨hno, -⟩ | ⟨-, uri', huri', hchange, -⟩ | ⟨-, hnone, -⟩
      · rw [hyes] at hno
        cases hno
      · obtain rfl := Option.some.inj (huri.symm.trans huri')
        obtain ⟨version₁, hversion₁, hlt⟩ :=
          hchange.versions document version hopen hversion next hnext
        obtain ⟨document', version', hget, hversion', hrest⟩ := ih hnext hversion₁ hstays'
        refine ⟨document', version', hget, hversion', ?_⟩
        rw [if_neg (by simp [accepted, huri, hyes])]
        split at hrest
        · subst hrest
          obtain rfl := Option.some.inj (hversion₁.symm.trans hversion')
          exact hlt
        · omega
      · cases huri.symm.trans hnone
    · have hsame : (call server c).2.documents.get uri = some document := by
        rw [← hopen]
        rcases hstep with ⟨-, hsame, -⟩ | ⟨hyes, uri', huri', hchange, -⟩ | ⟨-, -, hsame, -⟩
        · rw [hsame]
        · refine hchange.others uri ?_
          rintro rfl
          exact hmine ⟨huri', hyes⟩
        · rw [hsame]
      obtain ⟨document', version', hget, hversion', hrest⟩ := ih hsame hversion hstays'
      refine ⟨document', version', hget, hversion', ?_⟩
      have hzero : accepted (·.uri = some uri) server (c :: calls) =
          accepted (·.uri = some uri) (call server c).2 calls := by
        rw [accepted, if_neg (by simpa using hmine), Nat.zero_add]
      rwa [hzero]

/-! ### Snapshots -/

/-- Every document stands under its own identifier. -/
def Keyed (s : DocumentStore) : Prop :=
  ∀ uri document, s.get uri = some document → document.uri = uri

theorem run_keyed (calls : List Call) {server : Server} (h : Keyed server.documents) :
    Keyed (run server calls).documents := by
  induction calls generalizing server with
  | nil => exact h
  | cons c calls ih =>
    refine ih ?_
    rcases call_cases server c with ⟨-, hsame, -⟩ | ⟨-, uri, -, hchange, -⟩ | ⟨-, -, hsame, -⟩
    · rwa [hsame]
    · intro other document hdocument
      by_cases hother : other = uri
      · subst hother
        exact hchange.keyed (h other) document hdocument
      · rw [hchange.others other hother] at hdocument
        exact h other document hdocument
    · rwa [hsame]

theorem collect_eq {server : Server} (h : Keyed server.documents) :
    AnalysisSnapshot.collect server = .capture server := by
  have hkeys : (server.documents.documents.entries.map Prod.snd).foldl
      (fun collected document => collected.insert document.uri document) .empty =
        server.documents.documents := by
    rw [List.foldl_map]
    refine Eq.trans ?_ (SortedMap.collect_entries _)
    refine List.foldl_ext _ _ _ fun collected e he => ?_
    rw [h e.1 e.2 (SortedMap.get_of_mem he)]
  unfold AnalysisSnapshot.collect AnalysisSnapshot.capture
  simp only [hkeys]
  rfl

/-- Both revisions go up, and together by one for each accepted call. -/
theorem run_revisions (calls : List Call) (server : Server) :
    server.documents.revision ≤ (run server calls).documents.revision ∧
      server.configuration.revision ≤ (run server calls).configuration.revision ∧
      (run server calls).documents.revision + (run server calls).configuration.revision =
        server.documents.revision + server.configuration.revision +
          accepted (fun _ => true) server calls := by
  induction calls generalizing server with
  | nil => exact ⟨le_refl _, le_refl _, rfl⟩
  | cons c calls ih =>
    have hrest := ih (call server c).2
    have hrun : run server (c :: calls) = run (call server c).2 calls := rfl
    rw [hrun, accepted]
    rcases call_cases server c with ⟨hno, hdocuments, hsettings⟩ |
      ⟨hyes, uri, -, hchange, hsettings⟩ | ⟨hyes, -, hdocuments, hrevision⟩
    · rw [hdocuments, hsettings] at hrest
      rw [hno]
      exact ⟨hrest.1, hrest.2.1, by simpa using hrest.2.2⟩
    · have hup := hchange.revision
      rw [hsettings] at hrest
      rw [hyes, Bool.and_self, if_pos rfl]
      omega
    · rw [hdocuments] at hrest
      rw [hyes, Bool.and_self, if_pos rfl]
      omega

theorem run_unchanged {server : Server} {calls : List Call}
    (h : accepted (fun _ => true) server calls = 0) :
    (run server calls).documents = server.documents := by
  induction calls generalizing server with
  | nil => rfl
  | cons c calls ih =>
    rw [accepted, Nat.add_eq_zero_iff] at h
    rcases call_cases server c with ⟨-, hdocuments, -⟩ | ⟨hyes, -⟩ | ⟨hyes, -⟩
    · exact (ih h.2).trans hdocuments
    · simp [hyes] at h
    · simp [hyes] at h

theorem capture_current_iff (server : Server) (calls : List Call) :
    (AnalysisSnapshot.capture server).isCurrent (run server calls) = true ↔
      accepted (fun _ => true) server calls = 0 := by
  have hup := run_revisions calls server
  unfold AnalysisSnapshot.isCurrent AnalysisSnapshot.capture
  simp only [Bool.and_eq_true, decide_eq_true_eq, List.all_eq_true]
  constructor
  · rintro ⟨⟨⟨hdocuments, hsettings⟩, -⟩, -⟩
    omega
  · intro hnone
    have hsame := run_unchanged hnone
    rw [hsame] at hup ⊢
    exact ⟨⟨⟨rfl, by omega⟩, rfl⟩, fun e he => SortedMap.get_of_mem he⟩

/-- Every call of every run is all or nothing. The known version of a document
rises with each call on it that is accepted while it stays open. A snapshot is
current exactly when no call has been accepted since. -/
theorem the_store_is_atomic (calls : List Call) :
    (∀ c, Atomic (run .new calls) c) ∧
    (∀ uri document version, (run .new calls).documents.get uri = some document →
      document.version = some version → ∀ more, StaysOpen uri (run .new calls) more →
        ∃ document' version', (run (run .new calls) more).documents.get uri = some document' ∧
          document'.version = some version' ∧
            if accepted (·.uri = some uri) (run .new calls) more = 0 then document' = document
            else version < version') ∧
    ∀ more, (AnalysisSnapshot.collect (run .new calls)).isCurrent (run (run .new calls) more) =
      true ↔ accepted (fun _ => true) (run .new calls) more = 0 := by
  refine ⟨call_atomic _, fun uri document version hopen hversion more hstays =>
    run_versions hopen hversion hstays, fun more => ?_⟩
  have hnone : Keyed Server.new.documents := fun uri document h => by cases h
  rw [collect_eq (run_keyed calls hnone)]
  exact capture_current_iff _ more

/-- A document at version 1 is edited and stays open, so its version rises. -/
theorem an_edit_raises_the_version :
    ∃ document' version', (run (run .new [.Replace ⟨"a", ['x'], some 1⟩])
        [.ApplyChanges "a" 2 [⟨none, none, ['y']⟩]]).documents.get "a" = some document' ∧
      document'.version = some version' ∧ 1 < version' := by
  obtain ⟨document', version', hget, hversion, hrest⟩ :=
    (the_store_is_atomic [.Replace ⟨"a", ['x'], some 1⟩]).2.1 "a" ⟨"a", ['x'], some 1⟩ 1 rfl rfl
      [.ApplyChanges "a" 2 [⟨none, none, ['y']⟩]] (by
        intro k
        match k with
        | 0 => rfl
        | k + 1 =>
          rw [List.take_succ_cons, List.take_nil]
          rfl)
  refine ⟨document', version', hget, hversion, ?_⟩
  rwa [if_neg (by decide)] at hrest

end analyzer.lsp
