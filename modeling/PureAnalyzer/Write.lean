-- The replacement of the analyzed files (`workflow/write.rs`): every file is
-- staged beside its destination, and each staged file is then exchanged with its
-- destination. When one exchange fails the ones before it are rolled back.
import PureAnalyzer.ModelTypes
import PureAnalyzer.SharedStore

namespace analyzer.workflow.write

open fragments model sharedstore

def MAX_UNIQUE_NAME_ATTEMPTS : Nat := 128
def WRITER_MARKER : Text := ascii "pure-analyzer"
def STAGING_ROLE : Text := ascii "stage"
def EXIT_USAGE : Nat := 3
def EXIT_INTERNAL : Nat := 4

/-! ## Files -/

/-- A path without symlinks, as its parent and its last part. -/
structure Path where
  parent : Text
  file_name : Option Text
deriving DecidableEq

/-- What stands at a path. -/
inductive Entry where
  | File (text : Text)
  | Symlink
  | Directory
deriving DecidableEq

inductive IoError where
  | NotFound
  | AlreadyExists
  | Os (code : Nat)
deriving DecidableEq

/-- The file system, and what other processes wrote to it. -/
abbrev World := Store Path Entry

/-- A part of the text of a failure. -/
inductive Piece where
  | Words (words : String)
  | Path (path : Path)
  | Cause (error : IoError)
deriving DecidableEq

structure Failure where
  code : Nat
  message : List Piece
deriving DecidableEq

namespace Failure

def usage (message : List Piece) : Failure := ⟨EXIT_USAGE, message⟩

def internal (message : List Piece) : Failure := ⟨EXIT_INTERNAL, message⟩

/-- The paths that a failure names. -/
def names (failure : Failure) (path : Path) : Prop := .Path path ∈ failure.message

end Failure

/-- The messages one after the other, with words between them. -/
def joined (separator : String) : List (List Piece) → List Piece
  | [] => []
  | [message] => message
  | message :: rest => message ++ .Words separator :: joined separator rest

/-! ## What the system may refuse -/

/-- The moments at which a run looks at a file. -/
inductive Moment where
  | Selected
  | Staging
  | LateValidation
  | Displaced
  | Installed
  | TakenBack
  | PutBack
  | BeforeRollback
  | RollbackDisplaced
  | RolledBack
  | RestoredBackup
  | RestoredOutput
deriving DecidableEq

/-- The calls that fail, by the path they are made for. The calls that look at a
file go by the moment and by the replacement, counted from the first one. -/
structure Faults where
  inspect : Moment → Nat → Option IoError
  read : Moment → Nat → Option IoError
  reinspect : Moment → Nat → Option IoError
  canonicalize : Path → Option IoError
  create : Path → Option IoError
  write_all : Path → Option IoError
  permit : Path → Option IoError
  sync : Path → Option IoError
  remove : Path → Option IoError

variable (faults : Faults)

def removeFile (path : Path) (world : World) : Except IoError Unit × World :=
  match world.get path with
  | none => (.error .NotFound, world)
  | some _ =>
    match faults.remove path with
    | some error => (.error error, world)
    | none => (.ok (), world.put path none)

def removeOwnedFile (path : Path) (world : World) : Except IoError Unit × World :=
  match removeFile faults path world with
  | (.ok (), world) => (.ok (), world)
  | (.error .NotFound, world) => (.ok (), world)
  | (.error error, world) => (.error error, world)

/-! ## Inspection -/

def ensureRegularFile (moment : Moment) (index : Nat) (world : World) (path : Path) :
    Except Failure Unit :=
  let uninspected := fun error =>
    .error (.internal [.Words "could not inspect output ", .Path path, .Words ": ", .Cause error])
  match faults.inspect moment index with
  | some error => uninspected error
  | none =>
    match world.get path with
    | none => uninspected .NotFound
    | some .Symlink => .error (.usage [.Words "refusing to replace symlink ", .Path path])
    | some .Directory =>
      .error (.usage [.Words "refusing to replace non-regular file ", .Path path])
    | some (.File _) => .ok ()

/-- The text of a regular file, which is there. -/
def read (world : World) (path : Path) : Option Text :=
  match world.get path with
  | some (.File text) => some text
  | _ => none

/-- What a check says of a file. The words `behind` stand between the path and the
error of a call. -/
structure Wording where
  unread : String
  uninspected : String
  behind : String
  changed : String

/-- Whether a regular file has a text. -/
def verify (words : Wording) (moment : Moment) (index : Nat) (world : World) (path : Path)
    (expected : Text) : Except Failure Unit :=
  match ensureRegularFile faults moment index world path with
  | .error failure => .error failure
  | .ok () =>
    match faults.read moment index with
    | some error =>
      .error (.internal [.Words words.unread, .Path path, .Words words.behind, .Cause error])
    | none =>
      match faults.reinspect moment index with
      | some error =>
        .error (.internal
          [.Words words.uninspected, .Path path, .Words words.behind, .Cause error])
      | none =>
        -- the second inspection sees what the first one saw
        if read world path ≠ some expected then .error (.usage [.Path path, .Words words.changed])
        else .ok ()

def SNAPSHOT : Wording where
  unread := "could not re-read output "
  uninspected := "could not re-inspect output "
  behind := ": "
  changed := " changed after it was analyzed; no replacement was installed"

def INSTALLED_SNAPSHOT : Wording where
  unread := "could not inspect replacement output "
  uninspected := "could not re-inspect replacement output "
  behind := " before rollback: "
  changed := " changed after automatic replacement; preserving external edit"

def verifySnapshot (moment : Moment) (index : Nat) (world : World) (path : Path)
    (expected : Text) : Except Failure Unit :=
  verify faults SNAPSHOT moment index world path expected

def verifyInstalledSnapshot (moment : Moment) (index : Nat) (world : World) (path : Path)
    (expected : Text) : Except Failure Unit :=
  verify faults INSTALLED_SNAPSHOT moment index world path expected

/-- Says of another path what a snapshot that does not match means. -/
def retold (told : List Piece) : Except Failure Unit → Except Failure Unit
  | .ok () => .ok ()
  | .error failure => if failure.code = EXIT_USAGE then .error (.usage told) else .error failure

def verifyDisplacedSnapshot (index : Nat) (world : World) (displaced : Path) (expected : Text)
    (destination : Path) : Except Failure Unit :=
  retold [.Path destination, .Words " changed after it was analyzed; no replacement was installed"]
    (verifySnapshot faults .Displaced index world displaced expected)

def verifyRollbackDisplacedSnapshot (index : Nat) (world : World) (displaced : Path)
    (expected : Text) (destination : Path) : Except Failure Unit :=
  retold
    [.Path destination, .Words " changed after automatic replacement; preserving external edit"]
    (verifySnapshot faults .RollbackDisplaced index world displaced expected)

def verifyRolledBackSnapshot (index : Nat) (world : World) (path : Path) (expected : Text) :
    Except Failure Unit :=
  retold [.Path path, .Words " changed while rolling back; preserving external edit"]
    (verifySnapshot faults .RolledBack index world path expected)

/-! ## Staging -/

/-- One exact analyzed snapshot and its complete replacement text. -/
structure Replacement where
  path : Path
  before : Text
  after : Text
deriving DecidableEq

structure StagedReplacement where
  replacement : Replacement
  temporary : Option Path
deriving DecidableEq

def parentOrCwd (path : Path) : Text := if path.parent = [] then ascii "." else path.parent

def uniqueSibling (pid nonce : Nat) (path : Path) (role : Text) : Except Failure Path :=
  match path.file_name with
  | none => .error (.internal [.Words "output path has no file name: ", .Path path])
  | some file_name =>
    .ok ⟨parentOrCwd path, some (ascii "." ++ file_name ++ ascii "." ++ WRITER_MARKER ++
      ascii "-" ++ role ++ ascii "-" ++ decimal pid ++ ascii "-" ++ decimal nonce)⟩

/-- Opens a file that is not there yet. -/
def openNew (path : Path) (world : World) : Except IoError Unit × World :=
  match world.get path with
  | some _ => (.error .AlreadyExists, world)
  | none =>
    match faults.create path with
    | some error => (.error error, world)
    | none => (.ok (), world.put path (some (.File [])))

variable (pid : Nat)

/-- Tries one name after the other. Gives the next nonce as well. -/
def createFrom (path : Path) : Nat → Nat → World → Except Failure Path × Nat × World
  | 0, nonce, world =>
    (.error (.internal [.Words "could not reserve a staged output path beside ", .Path path]),
      nonce, world)
  | attempts + 1, nonce, world =>
    match uniqueSibling pid nonce path STAGING_ROLE with
    | .error failure => (.error failure, nonce, world)
    | .ok temporary =>
      match openNew faults temporary world with
      | (.ok (), world) => (.ok temporary, nonce + 1, world)
      | (.error .AlreadyExists, world) => createFrom path attempts (nonce + 1) world
      | (.error error, world) =>
        (.error (.internal [.Words "could not create staged output ", .Path temporary,
          .Words ": ", .Cause error]), nonce + 1, world)

def createStagingFile (path : Path) (nonce : Nat) (world : World) :
    Except Failure Path × Nat × World :=
  createFrom faults pid path MAX_UNIQUE_NAME_ATTEMPTS nonce world

def writeStaged (text : Text) (path : Path) (world : World) : Except Failure Unit × World :=
  match faults.write_all path with
  | some error =>
    (.error (.internal [.Words "could not write staged output ", .Path path, .Words ": ",
      .Cause error]), world)
  | none =>
    let world := world.put path (some (.File text))
    match faults.permit path with
    | some error =>
      (.error (.internal [.Words "could not preserve permissions on staged output ", .Path path,
        .Words ": ", .Cause error]), world)
    | none =>
      match faults.sync path with
      | some error =>
        (.error (.internal [.Words "could not sync staged output ", .Path path, .Words ": ",
          .Cause error]), world)
      | none => (.ok (), world)

def cleanStagedAfterFailure (failure : Failure) (temporary : Path) (world : World) :
    Failure × World :=
  match removeOwnedFile faults temporary world with
  | (.ok (), world) => (failure, world)
  | (.error error, world) =>
    (.internal (failure.message ++ [.Words "; additionally, could not remove staged output ",
      .Path temporary, .Words ": ", .Cause error]), world)

def cleanBackupAfterFailure (failure : Failure) (backup : Path) (world : World) :
    Failure × World :=
  match removeOwnedFile faults backup world with
  | (.ok (), world) => (failure, world)
  | (.error error, world) =>
    (.internal (failure.message ++
      [.Words "; additionally, could not remove transactional backup ", .Path backup,
        .Words ": ", .Cause error]), world)

namespace StagedReplacement

def stage (replacement : Replacement) (index nonce : Nat) (world : World) :
    Except Failure StagedReplacement × Nat × World :=
  match verifySnapshot faults .Staging index world replacement.path replacement.before with
  | .error failure => (.error failure, nonce, world)
  | .ok () =>
    match createStagingFile faults pid replacement.path nonce world with
    | (.error failure, nonce, world) => (.error failure, nonce, world)
    | (.ok temporary, nonce, world) =>
      match writeStaged faults replacement.after temporary world with
      | (.error failure, world) =>
        let (failure, world) := cleanStagedAfterFailure faults failure temporary world
        (.error failure, nonce, world)
      | (.ok (), world) => (.ok ⟨replacement, some temporary⟩, nonce, world)

def temporaryPath (staged : StagedReplacement) : Except Failure Path :=
  match staged.temporary with
  | some temporary => .ok temporary
  | none =>
    .error (.internal [.Words "staged output for ", .Path staged.replacement.path,
      .Words " was already consumed"])

/-- Removes the staging file as long as it is owned. -/
def cleanup (staged : StagedReplacement) (world : World) : Except Failure Unit × World :=
  match staged.temporary with
  | none => (.ok (), world)
  | some temporary =>
    match removeOwnedFile faults temporary world with
    | (.ok (), world) => (.ok (), world)
    | (.error error, world) =>
      (.error (.internal [.Words "could not remove staged output ", .Path temporary, .Words ": ",
        .Cause error]), world)

end StagedReplacement

/-- Cleans up every staged file, and gives the failures. -/
def cleanupEach : List StagedReplacement → World → List Failure × World
  | [], world => ([], world)
  | staged :: rest, world =>
    let (result, world) := staged.cleanup faults world
    let (failures, world) := cleanupEach rest world
    match result with
    | .ok () => (failures, world)
    | .error failure => (failure :: failures, world)

def cleanStagedReplacements (failure : Failure) (staged : List StagedReplacement)
    (world : World) : Failure × World :=
  match cleanupEach faults staged world with
  | ([], world) => (failure, world)
  | (cleanup_failures, world) =>
    (.internal (failure.message ++ .Words "; additionally, could not remove staged outputs: " ::
      joined "; " (cleanup_failures.map Failure.message)), world)

/-! ## The exchanges -/

inductive ExchangeOperation where
  | InstallStaged
  | RestoreStale
  | RestoreRolledBack
deriving DecidableEq

/-- The exchange of two paths, and the moments before it. Every call of one run
has its own operation and index. -/
structure FileOperations where
  before_late_validation : Nat → Path → World → Except Failure Unit × World
  before_install : Nat → Path → Path → World → Except Failure Unit × World
  before_rollback : Nat → Path → World → Except Failure Unit × World
  before_rollback_exchange : Nat → Path → World → Except Failure Unit × World
  exchange : ExchangeOperation → Nat → Path → Path → World → Except IoError Unit × World

structure CommittedReplacement where
  index : Nat
  path : Path
  backup : Path
  before : Text
  after : Text
deriving DecidableEq

variable (operations : FileOperations)

/-- Says what became of an exchange that could not be taken back. -/
def notRestored (failure : Failure) (path : Path) (error : IoError) (kept : Path) : Failure :=
  .internal (failure.message ++
    [.Words "; additionally, could not restore the external edit to ", .Path path, .Words ": ",
      .Cause error, .Words "; recovery content remains at ", .Path kept])

def racedAgain (failure : Failure) (path : Path) (error : Failure) (kept : Path) : Failure :=
  .internal (failure.message ++
    [.Words "; additionally, recovery of ", .Path path, .Words " raced another edit: "] ++
    error.message ++ [.Words "; recovery content remains at ", .Path kept])

namespace StagedReplacement

/-- Takes an exchange back. The staging file is given up where it may hold the
edit of another process. -/
def restoreInvalidInstall (staged : StagedReplacement) (failure : Failure) (index : Nat)
    (temporary : Path) (expected_destination : Option Text) (world : World) :
    Failure × StagedReplacement × World :=
  let path := staged.replacement.path
  match operations.exchange .RestoreStale index temporary path world with
  | (.error error, world) =>
    (notRestored failure path error temporary, { staged with temporary := none }, world)
  | (.ok (), world) =>
    match verifySnapshot faults .TakenBack index world temporary staged.replacement.after with
    | .error error =>
      (racedAgain failure path error temporary, { staged with temporary := none }, world)
    | .ok () =>
      match expected_destination with
      | none => (failure, staged, world)
      | some expected =>
        match verifySnapshot faults .PutBack index world path expected with
        | .error error =>
          (racedAgain failure path error temporary, { staged with temporary := none }, world)
        | .ok () => (failure, staged, world)

def switch (staged : StagedReplacement) (index : Nat) (world : World) :
    Except Failure CommittedReplacement × StagedReplacement × World :=
  let replacement := staged.replacement
  match operations.before_late_validation index replacement.path world with
  | (.error failure, world) => (.error failure, staged, world)
  | (.ok (), world) =>
    match verifySnapshot faults .LateValidation index world replacement.path replacement.before with
    | .error failure => (.error failure, staged, world)
    | .ok () =>
      match staged.temporaryPath with
      | .error failure => (.error failure, staged, world)
      | .ok temporary =>
        match operations.before_install index replacement.path temporary world with
        | (.error failure, world) => (.error failure, staged, world)
        | (.ok (), world) =>
          match operations.exchange .InstallStaged index temporary replacement.path world with
          | (.error error, world) =>
            (.error (.internal [.Words "could not atomically install staged output ",
              .Path replacement.path, .Words ": ", .Cause error]), staged, world)
          | (.ok (), world) =>
            match verifyDisplacedSnapshot faults index world temporary replacement.before
                replacement.path,
              verifyInstalledSnapshot faults .Installed index world replacement.path
                replacement.after with
            | .ok (), .ok () =>
              (.ok ⟨index, replacement.path, temporary, replacement.before, replacement.after⟩,
                { staged with temporary := none }, world)
            | .ok (), .error failure =>
              let (failure, staged, world) := staged.restoreInvalidInstall faults operations failure
                index temporary (some replacement.before) world
              (.error failure, staged, world)
            | .error failure, _ =>
              let (failure, staged, world) :=
                staged.restoreInvalidInstall faults operations failure index temporary none world
              (.error failure, staged, world)

end StagedReplacement

/-! ## The rollback -/

def restoreRollbackAfterMismatch (failure : Failure) (replacement : CommittedReplacement)
    (expected_destination : Option Text) (world : World) : Failure × World :=
  match operations.exchange .RestoreStale replacement.index replacement.backup replacement.path
      world with
  | (.error error, world) =>
    (notRestored failure replacement.path error replacement.backup, world)
  | (.ok (), world) =>
    match verifySnapshot faults .RestoredBackup replacement.index world replacement.backup
        replacement.before with
    | .error error => (racedAgain failure replacement.path error replacement.backup, world)
    | .ok () =>
      match expected_destination with
      | none => cleanBackupAfterFailure faults failure replacement.backup world
      | some expected =>
        match verifyInstalledSnapshot faults .RestoredOutput replacement.index world
            replacement.path expected with
        | .error error => (racedAgain failure replacement.path error replacement.backup, world)
        | .ok () => cleanBackupAfterFailure faults failure replacement.backup world

def rollbackOne (replacement : CommittedReplacement) (world : World) :
    Except Failure Unit × World :=
  match operations.before_rollback replacement.index replacement.path world with
  | (.error failure, world) => (.error failure, world)
  | (.ok (), world) =>
    match verifyInstalledSnapshot faults .BeforeRollback replacement.index world replacement.path
        replacement.after with
    | .error failure =>
      let (failure, world) := cleanBackupAfterFailure faults failure replacement.backup world
      (.error failure, world)
    | .ok () =>
      match operations.before_rollback_exchange replacement.index replacement.path world with
      | (.error failure, world) => (.error failure, world)
      | (.ok (), world) =>
        match operations.exchange .RestoreRolledBack replacement.index replacement.backup
            replacement.path world with
        | (.error error, world) =>
          (.error (.internal [.Words "could not atomically restore original output ",
            .Path replacement.path, .Words " while rolling back: ", .Cause error]), world)
        | (.ok (), world) =>
          match verifyRollbackDisplacedSnapshot faults replacement.index world replacement.backup
              replacement.after replacement.path,
            verifyRolledBackSnapshot faults replacement.index world replacement.path
              replacement.before with
          | .ok (), .ok () =>
            match removeOwnedFile faults replacement.backup world with
            | (.ok (), world) => (.ok (), world)
            | (.error error, world) =>
              (.error (.internal [.Words "could not remove transactional backup ",
                .Path replacement.backup, .Words " after rolling back: ", .Cause error]), world)
          | .ok (), .error failure =>
            let (failure, world) := restoreRollbackAfterMismatch faults operations failure
              replacement (some replacement.after) world
            (.error failure, world)
          | .error failure, _ =>
            let (failure, world) :=
              restoreRollbackAfterMismatch faults operations failure replacement none world
            (.error failure, world)

/-- Rolls the replacements back from the last one on, and gives the failures. -/
def rollbackEach : List CommittedReplacement → World → List Failure × World
  | [], world => ([], world)
  | replacement :: rest, world =>
    let (result, world) := rollbackOne faults operations replacement world
    let (failures, world) := rollbackEach rest world
    match result with
    | .ok () => (failures, world)
    | .error failure => (failure :: failures, world)

def rollback (committed : List CommittedReplacement) (world : World) :
    Except Failure Unit × World :=
  match rollbackEach faults operations committed.reverse world with
  | ([], world) => (.ok (), world)
  | (failures, world) =>
    (.error (.internal (.Words "could not roll back every replacement: " ::
      joined "; " (failures.map Failure.message))), world)

/-! ## The whole transaction -/

def failCommit (failure : Failure) (committed : List CommittedReplacement)
    (staged : List StagedReplacement) (world : World) : Failure × World :=
  match rollback faults operations committed world with
  | (.ok (), world) => cleanStagedReplacements faults failure staged world
  | (.error rollback_failure, world) =>
    cleanStagedReplacements faults
      (.internal (failure.message ++ .Words "; additionally, " :: rollback_failure.message))
      staged world

/-- Removes the backups, and tells of those that stay. -/
def removeEach : List CommittedReplacement → World → List (List Piece) × World
  | [], world => ([], world)
  | replacement :: rest, world =>
    let (result, world) := removeOwnedFile faults replacement.backup world
    let (failures, world) := removeEach rest world
    match result with
    | .ok () => (failures, world)
    | .error error => ([.Path replacement.backup, .Words ": ", .Cause error] :: failures, world)

def INSTALLED : String :=
  "all replacements were installed, but could not remove transactional artifacts: "

def cleanTransactionArtifacts (committed : List CommittedReplacement) (world : World) :
    Except Failure Unit × World :=
  match removeEach faults committed world with
  | ([], world) => (.ok (), world)
  | (failures, world) =>
    (.error (.internal (.Words INSTALLED :: joined "; " failures)), world)

/-- The loop of `commit`, with the replacements that went before. -/
def commitFrom (committed : List CommittedReplacement) (gone : List StagedReplacement) :
    List StagedReplacement → World → Except Failure Unit × World
  | [], world => cleanTransactionArtifacts faults committed world
  | staged :: rest, world =>
    match staged.switch faults operations gone.length world with
    | (.ok applied, staged, world) =>
      commitFrom (committed ++ [applied]) (gone ++ [staged]) rest world
    | (.error failure, staged, world) =>
      let (failure, world) :=
        failCommit faults operations failure committed (gone ++ staged :: rest) world
      (.error failure, world)

def commit (staged : List StagedReplacement) (world : World) : Except Failure Unit × World :=
  commitFrom faults operations [] [] staged world

def canonicalDestination (path : Path) : Except Failure Path :=
  match faults.canonicalize path with
  | some error =>
    .error (.internal [.Words "could not resolve output destination ", .Path path, .Words ": ",
      .Cause error])
  | none => .ok path

/-- The loop that stages every replacement. -/
def stageEach (destinations : List Path) (staged : List StagedReplacement) :
    List Replacement → Nat → World → Except Failure (List StagedReplacement) × World
  | [], _, world => (.ok staged, world)
  | replacement :: rest, nonce, world =>
    let refused := fun failure world =>
      let (failure, world) := cleanStagedReplacements faults failure staged world
      ((.error failure, world) : Except Failure (List StagedReplacement) × World)
    match ensureRegularFile faults .Selected staged.length world replacement.path with
    | .error failure => refused failure world
    | .ok () =>
      match canonicalDestination faults replacement.path with
      | .error failure => refused failure world
      | .ok destination =>
        if destination ∈ destinations then
          refused (.internal [.Words "output path ", .Path replacement.path,
            .Words " was selected more than once"]) world
        else
          match StagedReplacement.stage faults pid replacement staged.length nonce world with
          | (.ok one, nonce, world) =>
            stageEach (destination :: destinations) (staged ++ [one]) rest nonce world
          | (.error failure, _, world) => refused failure world

def replaceAllWithOperations (replacements : List Replacement) (nonce : Nat) (world : World) :
    Except Failure Unit × World :=
  match stageEach faults pid [] [] replacements nonce world with
  | (.error failure, world) => (.error failure, world)
  | (.ok staged, world) => commit faults operations staged world

/-! ## The system calls -/

/-- The faults of the two calls of an exchange. -/
structure ExchangeFaults where
  swap : ExchangeOperation → Nat → Option IoError
  sync : ExchangeOperation → Nat → Option IoError

/-- The swap of the two entries, and then the sync of their directory. -/
def atomicExchange (swap sync : Option IoError) (source destination : Path) (world : World) :
    Except IoError Unit × World :=
  match swap with
  | some error => (.error error, world)
  | none =>
    if (world.get source).isNone ∨ (world.get destination).isNone then (.error .NotFound, world)
    else
      match sync with
      | some error => (.error error, world.swap source destination)
      | none => (.ok (), world.swap source destination)

def nativeFileOperations (exchanges : ExchangeFaults) : FileOperations where
  before_late_validation _ _ world := (.ok (), world)
  before_install _ _ _ world := (.ok (), world)
  before_rollback _ _ world := (.ok (), world)
  before_rollback_exchange _ _ world := (.ok (), world)
  exchange operation index source destination world :=
    atomicExchange (exchanges.swap operation index) (exchanges.sync operation index) source
      destination world

def replaceAll (exchanges : ExchangeFaults) (replacements : List Replacement) (nonce : Nat)
    (world : World) : Except Failure Unit × World :=
  replaceAllWithOperations faults pid (nativeFileOperations exchanges) replacements nonce world

end analyzer.workflow.write
