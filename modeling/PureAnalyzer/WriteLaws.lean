-- The laws of the replacement when other processes write to the destinations.
-- What they wrote last is never lost: an exchange moves it, and no staging file
-- is removed that may hold it.
import PureAnalyzer.Write

namespace analyzer.workflow.write

open fragments model sharedstore Store

variable {faults : Faults} {pid : Nat} {operations : FileOperations}

/-! ## Snapshots -/

theorem read_eq_some {world : World} {path : Path} {text : Text} :
    read world path = some text ↔ world.get path = some (.File text) := by
  unfold read
  cases world.get path with
  | none => simp
  | some entry => cases entry <;> simp

/-- Every call that looks at a file at that moment goes through. -/
def Reads (faults : Faults) (moment : Moment) (index : Nat) : Prop :=
  faults.inspect moment index = none ∧ faults.read moment index = none ∧
    faults.reinspect moment index = none

instance (moment : Moment) (index : Nat) : Decidable (Reads faults moment index) :=
  inferInstanceAs (Decidable (_ ∧ _))

variable {words : Wording} {moment : Moment} {index : Nat}

/-- A path passes when it can be inspected and names a file. -/
theorem ensureRegularFile_iff {world : World} {path : Path} :
    ensureRegularFile faults moment index world path = .ok () ↔
      faults.inspect moment index = none ∧ ∃ text, world.get path = some (.File text) := by
  unfold ensureRegularFile
  cases faults.inspect moment index with
  | some error => simp
  | none =>
    cases world.get path with
    | none => simp
    | some entry => cases entry <;> simp

/-- A check goes through where every call does and the text is the expected one. -/
theorem verify_iff {world : World} {path : Path} {text : Text} :
    verify faults words moment index world path text = .ok () ↔
      Reads faults moment index ∧ world.get path = some (.File text) := by
  unfold verify Reads
  cases hregular : ensureRegularFile faults moment index world path with
  | error failure =>
    refine iff_of_false (fun h => by cases h) ?_
    rintro ⟨⟨hinspect, -, -⟩, htext⟩
    rw [ensureRegularFile_iff.mpr ⟨hinspect, text, htext⟩] at hregular
    cases hregular
  | ok _ =>
    have hinspect := (ensureRegularFile_iff.mp hregular).1
    cases hread : faults.read moment index with
    | some error => simp
    | none =>
      cases hreinspect : faults.reinspect moment index with
      | some error => simp
      | none =>
        by_cases htext : read world path = some text
        · simp [htext, hinspect, read_eq_some.mp htext]
        · simp [htext, ← read_eq_some]

/-- Before the exchange a file passes when it can be read and has the analysed text. -/
theorem verifySnapshot_iff {world : World} {path : Path} {text : Text} :
    verifySnapshot faults moment index world path text = .ok () ↔
      Reads faults moment index ∧ world.get path = some (.File text) := verify_iff

theorem verifyInstalledSnapshot_iff {world : World} {path : Path} {text : Text} :
    verifyInstalledSnapshot faults moment index world path text = .ok () ↔
      Reads faults moment index ∧ world.get path = some (.File text) := verify_iff

theorem retold_ok {told : List Piece} {result : Except Failure Unit} :
    retold told result = .ok () ↔ result = .ok () := by
  cases result with
  | ok _ => exact Iff.rfl
  | error failure =>
    refine iff_of_false (fun h => ?_) (fun h => by cases h)
    unfold retold at h
    dsimp only at h
    split_ifs at h

/-- What an exchange has moved aside passes when it has the expected text. -/
theorem verifyDisplacedSnapshot_iff {world : World} {displaced destination : Path} {text : Text} :
    verifyDisplacedSnapshot faults index world displaced text destination = .ok () ↔
      Reads faults .Displaced index ∧ world.get displaced = some (.File text) :=
  retold_ok.trans verifySnapshot_iff

theorem verifyRollbackDisplacedSnapshot_iff {world : World} {displaced destination : Path}
    {text : Text} :
    verifyRollbackDisplacedSnapshot faults index world displaced text destination = .ok () ↔
      Reads faults .RollbackDisplaced index ∧ world.get displaced = some (.File text) :=
  retold_ok.trans verifySnapshot_iff

theorem verifyRolledBackSnapshot_iff {world : World} {path : Path} {text : Text} :
    verifyRolledBackSnapshot faults index world path text = .ok () ↔
      Reads faults .RolledBack index ∧ world.get path = some (.File text) :=
  retold_ok.trans verifySnapshot_iff

/-! ## Removals -/

/-- Only the removed path changes. -/
theorem removeFile_moves {edited touched : Path → Prop} {path : Path} (h : touched path)
    (world : World) : Moves edited touched world (removeFile faults path world).2 := by
  unfold removeFile
  split
  · exact .refl world
  · split
    · exact .refl world
    · exact moves_put world none h

theorem removeOwnedFile_world (path : Path) (world : World) :
    (removeOwnedFile faults path world).2 = (removeFile faults path world).2 := by
  unfold removeOwnedFile
  split
  · next h => rw [h]
  · next h => rw [h]
  · next h => rw [h]

theorem removeOwnedFile_moves {edited touched : Path → Prop} {path : Path} (h : touched path)
    (world : World) : Moves edited touched world (removeOwnedFile faults path world).2 := by
  rw [removeOwnedFile_world]
  exact removeFile_moves h world

/-- Every removal goes through. -/
def Removals (faults : Faults) : Prop := ∀ path, faults.remove path = none

/-- Where no removal fails, the file is gone. -/
theorem removeOwnedFile_removed (hremovals : Removals faults) (path : Path) (world : World) :
    (removeOwnedFile faults path world).1 = .ok () ∧
      (removeOwnedFile faults path world).2.get path = none := by
  unfold removeOwnedFile removeFile
  cases hget : world.get path with
  | none => exact ⟨rfl, hget⟩
  | some entry =>
    rw [hremovals path]
    exact ⟨rfl, get_put_self _ _ _⟩

theorem cleanBackupAfterFailure_world (failure : Failure) (backup : Path) (world : World) :
    (cleanBackupAfterFailure faults failure backup world).2 =
      (removeOwnedFile faults backup world).2 := by
  unfold cleanBackupAfterFailure
  split
  · next h => rw [h]
  · next h => rw [h]

theorem cleanStagedAfterFailure_world (failure : Failure) (temporary : Path) (world : World) :
    (cleanStagedAfterFailure faults failure temporary world).2 =
      (removeOwnedFile faults temporary world).2 := by
  unfold cleanStagedAfterFailure
  split
  · next h => rw [h]
  · next h => rw [h]

/-! ## The names in a failure -/

theorem mem_joined {separator : String} {messages : List (List Piece)} {message : List Piece}
    (h : message ∈ messages) {piece : Piece} (hpiece : piece ∈ message) :
    piece ∈ joined separator messages := by
  induction messages with
  | nil => cases h
  | cons first rest ih =>
    cases rest with
    | nil =>
      rw [List.mem_singleton.mp h] at hpiece
      exact hpiece
    | cons second rest =>
      rw [joined]
      · rcases List.mem_cons.mp h with rfl | h
        · exact List.mem_append_left _ hpiece
        · exact List.mem_append_right _ (List.mem_cons_of_mem _ (ih h))
      · exact fun hnil => by cases hnil

theorem names_notRestored (failure : Failure) (path : Path) (error : IoError) (kept : Path) :
    (notRestored failure path error kept).names kept := by
  unfold Failure.names notRestored Failure.internal
  simp

theorem names_racedAgain (failure : Failure) (path : Path) (error : Failure) (kept : Path) :
    (racedAgain failure path error kept).names kept := by
  unfold Failure.names racedAgain Failure.internal
  simp

/-- A failure that names a path names it behind a clean-up, too. -/
theorem cleanStagedReplacements_names {failure : Failure} {path : Path} (h : failure.names path)
    (staged : List StagedReplacement) (world : World) :
    (cleanStagedReplacements faults failure staged world).1.names path := by
  unfold cleanStagedReplacements
  split
  · exact h
  · exact List.mem_append_left _ h

/-- A failure that does not tell of a run that installed everything. -/
def Told (failure : Failure) : Prop :=
  ∃ piece, failure.message.head? = some piece ∧ piece ≠ .Words INSTALLED

theorem Told.append {failure : Failure} (h : Told failure) (code : Nat) (more : List Piece) :
    Told ⟨code, failure.message ++ more⟩ := by
  obtain ⟨piece, hhead, hne⟩ := h
  refine ⟨piece, ?_, hne⟩
  rw [List.head?_append, hhead]
  rfl

theorem told_words (code : Nat) {words : String} (more : List Piece) (h : words ≠ INSTALLED) :
    Told ⟨code, .Words words :: more⟩ := ⟨_, rfl, fun heq => h (Piece.Words.inj heq)⟩

theorem cleanStagedReplacements_told {failure : Failure} (h : Told failure)
    (staged : List StagedReplacement) (world : World) :
    Told (cleanStagedReplacements faults failure staged world).1 := by
  unfold cleanStagedReplacements
  split
  · exact h
  · exact h.append _ _

/-- An error that begins otherwise is no error about an installed text. -/
theorem told_error {α : Type} {code : Nat} {piece : Piece} {more : List Piece} {failure : Failure}
    (hne : piece ≠ .Words INSTALLED)
    (h : (.error ⟨code, piece :: more⟩ : Except Failure α) = .error failure) : Told failure := by
  rw [← Except.error.inj h]
  exact ⟨piece, rfl, hne⟩

theorem ensureRegularFile_told {world : World} {path : Path} {failure : Failure}
    (h : ensureRegularFile faults moment index world path = .error failure) : Told failure := by
  unfold ensureRegularFile at h
  split at h
  · exact told_error (by decide) h
  · split at h
    · exact told_error (by decide) h
    · exact told_error (by decide) h
    · exact told_error (by decide) h
    · cases h

/-- A check that has words of its own fails with them, or with what inspecting the path
says. -/
theorem verify_told {world : World} {path : Path} {text : Text} {failure : Failure}
    (hunread : words.unread ≠ INSTALLED) (huninspected : words.uninspected ≠ INSTALLED)
    (h : verify faults words moment index world path text = .error failure) : Told failure := by
  have hwords : ∀ {words}, words ≠ INSTALLED → Piece.Words words ≠ .Words INSTALLED :=
    fun hne heq => hne (Piece.Words.inj heq)
  unfold verify at h
  split at h
  · next hregular =>
    rw [← Except.error.inj h]
    exact ensureRegularFile_told hregular
  · split at h
    · exact told_error (hwords hunread) h
    · split at h
      · exact told_error (hwords huninspected) h
      · split at h
        · exact told_error (fun heq => by cases heq) h
        · cases h

theorem verifySnapshot_told {world : World} {path : Path} {text : Text} {failure : Failure}
    (h : verifySnapshot faults moment index world path text = .error failure) : Told failure :=
  verify_told (by decide) (by decide) h

theorem verifyInstalledSnapshot_told {world : World} {path : Path} {text : Text}
    {failure : Failure}
    (h : verifyInstalledSnapshot faults moment index world path text = .error failure) :
    Told failure := verify_told (by decide) (by decide) h

theorem verifyDisplacedSnapshot_told {world : World} {displaced destination : Path} {text : Text}
    {failure : Failure}
    (h : verifyDisplacedSnapshot faults index world displaced text destination = .error failure) :
    Told failure := by
  unfold verifyDisplacedSnapshot retold at h
  split at h
  · cases h
  · next hsnapshot =>
    split at h
    · exact told_error (fun heq => by cases heq) h
    · rw [← Except.error.inj h]
      exact verifySnapshot_told hsnapshot

theorem canonicalDestination_told {path : Path} {failure : Failure}
    (h : canonicalDestination faults path = .error failure) : Told failure := by
  unfold canonicalDestination at h
  split at h
  · exact told_error (by decide) h
  · cases h

/-! ## Other processes -/

/-- Others wrote to some of these paths, and did nothing else. -/
def Edits (edited : Path → Prop) (world world' : World) : Prop :=
  ∃ edits : List (Path × Entry), (∀ edit ∈ edits, edited edit.1) ∧ world' = world.editAll edits

/-- An exchange that goes through swaps both entries, and an exchange that fails has
changed nothing. Only one that takes an install or a rollback back may also fail
behind its swap. Others may write to their paths at each of the moments before, and
behind an exchange. -/
structure Raced (edited : Path → Prop) (operations : FileOperations) : Prop where
  late : ∀ index path world,
    Edits edited world (operations.before_late_validation index path world).2
  install : ∀ index path temporary world,
    Edits edited world (operations.before_install index path temporary world).2
  rollback : ∀ index path world, Edits edited world (operations.before_rollback index path world).2
  rollback_exchange : ∀ index path world,
    Edits edited world (operations.before_rollback_exchange index path world).2
  refused : ∀ operation index source destination world error world',
    operations.exchange operation index source destination world = (.error error, world') →
      Edits edited world world' ∨
        operation = .RestoreStale ∧ Edits edited (world.swap source destination) world'
  swapped : ∀ operation index source destination world world',
    operations.exchange operation index source destination world = (.ok (), world') →
      Edits edited (world.swap source destination) world'

/-- The paths that a run may make and remove: those that were free when it began. -/
def Free (world : World) (path : Path) : Prop := world.get path = none

def Nobody (_ : Path) : Prop := False

theorem Edits.moves {edited touched : Path → Prop} {world world' : World}
    (h : Edits edited world world') : Moves edited touched world world' := by
  obtain ⟨edits, hedits, rfl⟩ := h
  exact moves_editAll world hedits

/-- The texts of the transaction. -/
def Own (replacement : Replacement) (entry : Entry) : Prop :=
  entry = .File replacement.before ∨ entry = .File replacement.after

/-- What others wrote last at the destination is there, or at a staging path that
is named. -/
def Kept (replacement : Replacement) (temporary : Path) (named : Path → Prop)
    (world : World) : Prop :=
  AtHome (Own replacement) replacement.path world ∨
    Held (Own replacement) replacement.path temporary world ∧ named temporary

variable {edited touched : Path → Prop} {replacement : Replacement} {temporary : Path}
  {named named' : Path → Prop} {world world' : World}

/-- More may be named. -/
theorem Kept.mono (h : Kept replacement temporary named world)
    (hle : ∀ path, named path → named' path) : Kept replacement temporary named' world :=
  h.imp_right fun ⟨hheld, hnamed⟩ => ⟨hheld, hle _ hnamed⟩

/-- A text stays kept while others write elsewhere. -/
theorem Kept.moves (hm : Moves edited touched world world') (hp : ¬ touched replacement.path)
    (ht : ¬ touched temporary) (he : ¬ edited temporary)
    (h : Kept replacement temporary named world) : Kept replacement temporary named world' := by
  rcases h with h | ⟨h, hnamed⟩
  · exact .inl (h.moves hm hp)
  · exact .inr ⟨h.moves hm hp ht he, hnamed⟩

/-- The place of a replacement and its staging path. -/
def At (replacement : Replacement) (temporary path : Path) : Prop :=
  path = replacement.path ∨ path = temporary

/-- Others write to the destination, and not to the staging file. -/
structure Beside (edited : Path → Prop) (replacement : Replacement) (temporary : Path) : Prop where
  shared : edited replacement.path
  free : ¬ edited temporary

theorem Beside.apart (h : Beside edited replacement temporary) : temporary ≠ replacement.path := by
  intro heq
  apply h.free
  rw [heq]
  exact h.shared

/-- An exchange moves both texts and loses neither. -/
theorem swap_held (hbeside : Beside edited replacement temporary)
    (hedits : Edits edited (world.swap temporary replacement.path) world')
    (h : Held (Own replacement) replacement.path temporary world) :
    Moves edited (At replacement temporary) world world' ∧
      Held (Own replacement) replacement.path temporary world' := by
  have hmoves : Moves edited (fun _ => False) _ world' := hedits.moves
  exact ⟨(moves_swap world (.inr rfl) (.inl rfl)).trans hedits.moves,
    h.swap.moves hmoves id id hbeside.free⟩

/-- An exchange of a destination with its staging path moves what others wrote. -/
theorem exchange_held (hoperations : Raced edited operations)
    (hbeside : Beside edited replacement temporary) {operation : ExchangeOperation} {index : Nat}
    (hrun : operations.exchange operation index temporary replacement.path world = (.ok (), world'))
    (h : Held (Own replacement) replacement.path temporary world) :
    Moves edited (At replacement temporary) world world' ∧
      Held (Own replacement) replacement.path temporary world' :=
  swap_held hbeside (hoperations.swapped _ _ _ _ _ _ hrun) h

/-- An exchange that fails leaves what others wrote at one of the two paths. -/
theorem failed_held (hoperations : Raced edited operations)
    (hbeside : Beside edited replacement temporary) {operation : ExchangeOperation} {index : Nat}
    {error : IoError}
    (hrun : operations.exchange operation index temporary replacement.path world =
      (.error error, world'))
    (h : Held (Own replacement) replacement.path temporary world) :
    Moves edited (At replacement temporary) world world' ∧
      Held (Own replacement) replacement.path temporary world' := by
  rcases hoperations.refused _ _ _ _ _ _ _ hrun with hedits | ⟨-, hedits⟩
  · have hmoves : Moves edited (fun _ => False) world world' := hedits.moves
    exact ⟨hedits.moves, h.moves hmoves id id hbeside.free⟩
  · exact swap_held hbeside hedits h

/-! ## One file -/

/-- What others wrote last is at the destination, beside a staging file with a
text of the transaction. -/
def Ready (replacement : Replacement) (temporary : Path) (text : Text) (world : World) : Prop :=
  AtHome (Own replacement) replacement.path world ∧ world.get temporary = some (.File text)

theorem ready_of_held {text : Text} (h : Held (Own replacement) replacement.path temporary world)
    (hget : world.get temporary = some (.File text)) (hown : Own replacement (.File text)) :
    Ready replacement temporary text world := ⟨h.atHome hget hown, hget⟩

/-- A staged text stays ready while others write elsewhere. -/
theorem Ready.moves {text : Text} (hm : Moves edited touched world world')
    (hp : ¬ touched replacement.path) (ht : ¬ touched temporary) (he : ¬ edited temporary)
    (h : Ready replacement temporary text world) : Ready replacement temporary text world' :=
  ⟨h.1.moves hm hp, (hm.kept temporary he ht).trans h.2⟩

/-- Others write, and the staging file keeps its text. -/
theorem hook_ready {text : Text} (h : Edits edited world world')
    (hbeside : Beside edited replacement temporary)
    (hready : Ready replacement temporary text world) :
    Ready replacement temporary text world' := by
  have hmoves : Moves edited (fun _ => False) world world' := h.moves
  exact hready.moves hmoves id id hbeside.free

/-- An install or a rollback that fails has not swapped. -/
theorem refused_edits (hoperations : Raced edited operations) {operation : ExchangeOperation}
    (hne : operation ≠ .RestoreStale) {source destination : Path} {error : IoError}
    (hrun : operations.exchange operation index source destination world = (.error error, world')) :
    Edits edited world world' :=
  (hoperations.refused _ _ _ _ _ _ _ hrun).resolve_right fun h => hne h.1

/-- Either the staging file is still owned and holds the new text, or it is given
up and named. -/
inductive Undone (replacement : Replacement) (temporary : Path) (named : Path → Prop)
    (world : World) : StagedReplacement → Prop
  | owned : Ready replacement temporary replacement.after world →
      Undone replacement temporary named world ⟨replacement, some temporary⟩
  | given : Held (Own replacement) replacement.path temporary world → named temporary →
      Undone replacement temporary named world ⟨replacement, none⟩

/-- An exchange that took the wrong text aside is undone, as far as the failure does not
name the path of what is left. -/
theorem restoreInvalidInstall_undone (hoperations : Raced edited operations)
    (hbeside : Beside edited replacement temporary) {failure failure' : Failure} {index : Nat}
    {expected : Option Text} {staged' : StagedReplacement}
    (hheld : Held (Own replacement) replacement.path temporary world)
    (hrun : StagedReplacement.restoreInvalidInstall faults operations
      ⟨replacement, some temporary⟩ failure index temporary expected world =
        (failure', staged', world')) :
    Moves edited (At replacement temporary) world world' ∧
      Undone replacement temporary failure'.names world' staged' := by
  unfold StagedReplacement.restoreInvalidInstall at hrun
  dsimp only at hrun
  cases hexchange : operations.exchange .RestoreStale index temporary replacement.path world with
  | mk result after =>
    rw [hexchange] at hrun
    cases result with
    | error error =>
      obtain ⟨rfl, rfl, rfl⟩ := hrun
      obtain ⟨hmoves, hheld⟩ := failed_held hoperations hbeside hexchange hheld
      exact ⟨hmoves, .given hheld (names_notRestored _ _ _ _)⟩
    | ok _ =>
      obtain ⟨hmoves, hheld⟩ := exchange_held hoperations hbeside hexchange hheld
      dsimp only at hrun
      cases hverify : verifySnapshot faults .TakenBack index after temporary
          replacement.after with
      | error error =>
        rw [hverify] at hrun
        obtain ⟨rfl, rfl, rfl⟩ := hrun
        exact ⟨hmoves, .given hheld (names_racedAgain _ _ _ _)⟩
      | ok _ =>
        rw [hverify] at hrun
        have hready := ready_of_held hheld (verifySnapshot_iff.mp hverify).2 (.inr rfl)
        cases expected with
        | none =>
          obtain ⟨rfl, rfl, rfl⟩ := hrun
          exact ⟨hmoves, .owned hready⟩
        | some expected =>
          dsimp only at hrun
          cases hdestination : verifySnapshot faults .PutBack index after replacement.path
              expected with
          | error error =>
            rw [hdestination] at hrun
            obtain ⟨rfl, rfl, rfl⟩ := hrun
            exact ⟨hmoves, .given hheld (names_racedAgain _ _ _ _)⟩
          | ok _ =>
            rw [hdestination] at hrun
            obtain ⟨rfl, rfl, rfl⟩ := hrun
            exact ⟨hmoves, .owned hready⟩

/-- A file that was switched has its old text at the staging path. -/
def committedAs (index : Nat) (replacement : Replacement) (temporary : Path) :
    CommittedReplacement :=
  ⟨index, replacement.path, temporary, replacement.before, replacement.after⟩

/-- The exchange of one file leaves the old text aside with the new one in place, or is
undone. -/
theorem switch_outcome (hoperations : Raced edited operations)
    (hbeside : Beside edited replacement temporary) {index : Nat} {staged' : StagedReplacement}
    {result : Except Failure CommittedReplacement}
    (hready : Ready replacement temporary replacement.after world)
    (hrun : StagedReplacement.switch faults operations ⟨replacement, some temporary⟩ index world =
      (result, staged', world')) :
    Moves edited (At replacement temporary) world world' ∧
      match result with
      | .ok applied => applied = committedAs index replacement temporary ∧
          staged' = ⟨replacement, none⟩ ∧ Ready replacement temporary replacement.before world'
      | .error failure => Undone replacement temporary failure.names world' staged' := by
  unfold StagedReplacement.switch at hrun
  dsimp only at hrun
  have hlate := hoperations.late index replacement.path world
  cases hfirst : operations.before_late_validation index replacement.path world with
  | mk outcome first =>
    rw [hfirst] at hrun hlate
    have hready := hook_ready hlate hbeside hready
    cases outcome with
    | error failure =>
      obtain ⟨rfl, rfl, rfl⟩ := hrun
      exact ⟨hlate.moves, .owned hready⟩
    | ok _ =>
      dsimp only at hrun
      cases hsnapshot : verifySnapshot faults .LateValidation index first replacement.path
          replacement.before with
      | error failure =>
        rw [hsnapshot] at hrun
        obtain ⟨rfl, rfl, rfl⟩ := hrun
        exact ⟨hlate.moves, .owned hready⟩
      | ok _ =>
        rw [hsnapshot] at hrun
        dsimp only [StagedReplacement.temporaryPath] at hrun
        have hinstall := hoperations.install index replacement.path temporary first
        cases hsecond : operations.before_install index replacement.path temporary first with
        | mk outcome second =>
          rw [hsecond] at hrun hinstall
          have hready := hook_ready hinstall hbeside hready
          have hmoves : Moves edited (At replacement temporary) world second :=
            hlate.moves.trans hinstall.moves
          cases outcome with
          | error failure =>
            obtain ⟨rfl, rfl, rfl⟩ := hrun
            exact ⟨hmoves, .owned hready⟩
          | ok _ =>
            dsimp only at hrun
            cases hexchange : operations.exchange .InstallStaged index temporary replacement.path
                second with
            | mk outcome third =>
              rw [hexchange] at hrun
              cases outcome with
              | error error =>
                obtain ⟨rfl, rfl, rfl⟩ := hrun
                have hedits := refused_edits hoperations (by decide) hexchange
                exact ⟨hmoves.trans hedits.moves, .owned (hook_ready hedits hbeside hready)⟩
              | ok _ =>
                obtain ⟨hthird, hheld⟩ :=
                  exchange_held hoperations hbeside hexchange hready.1.held
                have hmoves := hmoves.trans hthird
                dsimp only at hrun
                cases hdisplaced : verifyDisplacedSnapshot faults index third temporary
                    replacement.before replacement.path with
                | error failure =>
                  rw [hdisplaced] at hrun
                  dsimp only at hrun
                  cases hrestore : StagedReplacement.restoreInvalidInstall faults operations
                      ⟨replacement, some temporary⟩ failure index temporary none third with
                  | mk failure' rest =>
                    rw [hrestore] at hrun
                    obtain ⟨rfl, rfl, rfl⟩ := hrun
                    obtain ⟨hback, hundone⟩ :=
                      restoreInvalidInstall_undone hoperations hbeside hheld hrestore
                    exact ⟨hmoves.trans hback, hundone⟩
                | ok _ =>
                  rw [hdisplaced] at hrun
                  cases hinstalled : verifyInstalledSnapshot faults .Installed index third
                      replacement.path replacement.after with
                  | error failure =>
                    rw [hinstalled] at hrun
                    dsimp only at hrun
                    cases hrestore : StagedReplacement.restoreInvalidInstall faults operations
                        ⟨replacement, some temporary⟩ failure index temporary
                        (some replacement.before) third with
                    | mk failure' rest =>
                      rw [hrestore] at hrun
                      obtain ⟨rfl, rfl, rfl⟩ := hrun
                      obtain ⟨hback, hundone⟩ :=
                        restoreInvalidInstall_undone hoperations hbeside hheld hrestore
                      exact ⟨hmoves.trans hback, hundone⟩
                  | ok _ =>
                    rw [hinstalled] at hrun
                    obtain ⟨rfl, rfl, rfl⟩ := hrun
                    exact ⟨hmoves, rfl, rfl, ready_of_held hheld
                      (verifyDisplacedSnapshot_iff.mp hdisplaced).2 (.inl rfl)⟩

theorem removeOwnedFile_atHome (hbeside : Beside edited replacement temporary)
    (h : AtHome (Own replacement) replacement.path world) :
    AtHome (Own replacement) replacement.path (removeOwnedFile faults temporary world).2 := by
  have hmoves := @removeOwnedFile_moves faults edited (· = temporary) temporary rfl world
  exact h.moves hmoves fun heq => hbeside.apart heq.symm

theorem cleanBackup_atHome (hbeside : Beside edited replacement temporary)
    (h : AtHome (Own replacement) replacement.path world) (failure : Failure) :
    Moves edited (At replacement temporary) world
        (cleanBackupAfterFailure faults failure temporary world).2 ∧
      AtHome (Own replacement) replacement.path
        (cleanBackupAfterFailure faults failure temporary world).2 := by
  rw [cleanBackupAfterFailure_world]
  exact ⟨removeOwnedFile_moves (.inr rfl) world, removeOwnedFile_atHome hbeside h⟩

/-- A rollback that took the wrong text aside puts it back, or names its path in the
failure. -/
theorem restoreRollback_kept (hoperations : Raced edited operations)
    (hbeside : Beside edited replacement temporary) {failure failure' : Failure} {index : Nat}
    {expected : Option Text} (hheld : Held (Own replacement) replacement.path temporary world)
    (hrun : restoreRollbackAfterMismatch faults operations failure
      (committedAs index replacement temporary) expected world = (failure', world')) :
    Moves edited (At replacement temporary) world world' ∧
      Kept replacement temporary failure'.names world' := by
  unfold restoreRollbackAfterMismatch at hrun
  dsimp only [committedAs] at hrun
  cases hexchange : operations.exchange .RestoreStale index temporary replacement.path world with
  | mk result after =>
    rw [hexchange] at hrun
    cases result with
    | error error =>
      obtain ⟨rfl, rfl⟩ := hrun
      obtain ⟨hmoves, hheld⟩ := failed_held hoperations hbeside hexchange hheld
      exact ⟨hmoves, .inr ⟨hheld, names_notRestored _ _ _ _⟩⟩
    | ok _ =>
      obtain ⟨hmoves, hheld⟩ := exchange_held hoperations hbeside hexchange hheld
      dsimp only at hrun
      cases hverify : verifySnapshot faults .RestoredBackup index after temporary
          replacement.before with
      | error error =>
        rw [hverify] at hrun
        obtain ⟨rfl, rfl⟩ := hrun
        exact ⟨hmoves, .inr ⟨hheld, names_racedAgain _ _ _ _⟩⟩
      | ok _ =>
        rw [hverify] at hrun
        have hhome := hheld.atHome (verifySnapshot_iff.mp hverify).2 (.inl rfl)
        obtain ⟨hclean, hafter⟩ := @cleanBackup_atHome faults _ _ _ _ hbeside hhome failure
        cases expected with
        | none =>
          dsimp only at hrun
          rw [hrun] at hclean hafter
          exact ⟨hmoves.trans hclean, .inl hafter⟩
        | some expected =>
          dsimp only at hrun
          cases hdestination : verifyInstalledSnapshot faults .RestoredOutput index after
              replacement.path expected with
          | error error =>
            rw [hdestination] at hrun
            obtain ⟨rfl, rfl⟩ := hrun
            exact ⟨hmoves, .inl hhome⟩
          | ok _ =>
            rw [hdestination] at hrun
            dsimp only at hrun
            rw [hrun] at hclean hafter
            exact ⟨hmoves.trans hclean, .inl hafter⟩

/-- The rollback of one file keeps what others wrote at it, or names the path where it is.
-/
theorem rollbackOne_kept (hoperations : Raced edited operations)
    (hbeside : Beside edited replacement temporary) {index : Nat} {result : Except Failure Unit}
    (hready : Ready replacement temporary replacement.before world)
    (hrun : rollbackOne faults operations (committedAs index replacement temporary) world =
      (result, world')) :
    Moves edited (At replacement temporary) world world' ∧
      Kept replacement temporary (fun path => ∃ failure, result = .error failure ∧
        failure.names path) world' := by
  unfold rollbackOne at hrun
  dsimp only [committedAs] at hrun
  have hbefore := hoperations.rollback index replacement.path world
  cases hfirst : operations.before_rollback index replacement.path world with
  | mk outcome first =>
    rw [hfirst] at hrun hbefore
    have hready := hook_ready hbefore hbeside hready
    cases outcome with
    | error failure =>
      obtain ⟨rfl, rfl⟩ := hrun
      exact ⟨hbefore.moves, .inl hready.1⟩
    | ok _ =>
      dsimp only at hrun
      cases hinstalled : verifyInstalledSnapshot faults .BeforeRollback index first
          replacement.path replacement.after with
      | error failure =>
        rw [hinstalled] at hrun
        obtain ⟨rfl, rfl⟩ := hrun
        obtain ⟨hclean, hafter⟩ := @cleanBackup_atHome faults _ _ _ _ hbeside hready.1 failure
        exact ⟨hbefore.moves.trans hclean, .inl hafter⟩
      | ok _ =>
        rw [hinstalled] at hrun
        dsimp only at hrun
        have hexchanging := hoperations.rollback_exchange index replacement.path first
        cases hsecond : operations.before_rollback_exchange index replacement.path first with
        | mk outcome second =>
          rw [hsecond] at hrun hexchanging
          have hready := hook_ready hexchanging hbeside hready
          have hmoves : Moves edited (At replacement temporary) world second :=
            hbefore.moves.trans hexchanging.moves
          cases outcome with
          | error failure =>
            obtain ⟨rfl, rfl⟩ := hrun
            exact ⟨hmoves, .inl hready.1⟩
          | ok _ =>
            dsimp only at hrun
            cases hexchange : operations.exchange .RestoreRolledBack index temporary
                replacement.path second with
            | mk outcome third =>
              rw [hexchange] at hrun
              cases outcome with
              | error error =>
                obtain ⟨rfl, rfl⟩ := hrun
                have hedits := refused_edits hoperations (by decide) hexchange
                exact ⟨hmoves.trans hedits.moves, .inl (hook_ready hedits hbeside hready).1⟩
              | ok _ =>
                obtain ⟨hthird, hheld⟩ :=
                  exchange_held hoperations hbeside hexchange hready.1.held
                have hmoves := hmoves.trans hthird
                dsimp only at hrun
                cases hdisplaced : verifyRollbackDisplacedSnapshot faults index third temporary
                    replacement.after replacement.path with
                | error failure =>
                  rw [hdisplaced] at hrun
                  obtain ⟨rfl, rfl⟩ := hrun
                  obtain ⟨hback, hkept⟩ := @restoreRollback_kept faults _ _ _ _ third _ hoperations
                    hbeside failure _ index none hheld rfl
                  exact ⟨hmoves.trans hback, hkept.mono fun path hnamed => ⟨_, rfl, hnamed⟩⟩
                | ok _ =>
                  rw [hdisplaced] at hrun
                  have hhome := hheld.atHome
                    (verifyRollbackDisplacedSnapshot_iff.mp hdisplaced).2 (.inr rfl)
                  cases hrestored : verifyRolledBackSnapshot faults index third replacement.path
                      replacement.before with
                  | error failure =>
                    rw [hrestored] at hrun
                    obtain ⟨rfl, rfl⟩ := hrun
                    obtain ⟨hback, hkept⟩ := @restoreRollback_kept faults _ _ _ _ third _
                      hoperations hbeside failure _ index (some replacement.after) hheld rfl
                    exact ⟨hmoves.trans hback, hkept.mono fun path hnamed => ⟨_, rfl, hnamed⟩⟩
                  | ok _ =>
                    rw [hrestored] at hrun
                    dsimp only at hrun
                    have hclean := @removeOwnedFile_moves faults edited (At replacement temporary)
                      temporary (.inr rfl) third
                    have hafter := @removeOwnedFile_atHome faults _ _ _ third hbeside hhome
                    cases hremove : removeOwnedFile faults temporary third with
                    | mk outcome fourth =>
                      rw [hremove] at hrun hclean hafter
                      cases outcome with
                      | error error =>
                        obtain ⟨rfl, rfl⟩ := hrun
                        exact ⟨hmoves.trans hclean, .inl hafter⟩
                      | ok _ =>
                        obtain ⟨rfl, rfl⟩ := hrun
                        exact ⟨hmoves.trans hclean, .inl hafter⟩

/-! ## All the files -/

/-- A replacement with its index and its staging path. -/
structure Slot where
  index : Nat
  replacement : Replacement
  temporary : Path

namespace Slot

def At (slot : Slot) (path : Path) : Prop :=
  write.At slot.replacement slot.temporary path

def pending (slot : Slot) : StagedReplacement := ⟨slot.replacement, some slot.temporary⟩

def gone (slot : Slot) : StagedReplacement := ⟨slot.replacement, none⟩

def committed (slot : Slot) : CommittedReplacement :=
  committedAs slot.index slot.replacement slot.temporary

def Kept (slot : Slot) (named : Path → Prop) (world : World) : Prop :=
  write.Kept slot.replacement slot.temporary named world

def Ready (slot : Slot) (text : Text) (world : World) : Prop :=
  write.Ready slot.replacement slot.temporary text world

end Slot

/-- The destinations and the staging paths are all different, and others write to
destinations alone. -/
structure Apart (edited : Path → Prop) (slots : List Slot) : Prop where
  beside : ∀ slot ∈ slots, Beside edited slot.replacement slot.temporary
  disjoint : slots.Pairwise fun a b => ∀ path, a.At path → ¬ b.At path

def Any (slots : List Slot) (path : Path) : Prop := ∃ slot ∈ slots, slot.At path

theorem Apart.tail {slot : Slot} {slots : List Slot} (h : Apart edited (slot :: slots)) :
    Apart edited slots :=
  ⟨fun other hother => h.beside other (List.mem_cons_of_mem _ hother),
    (List.pairwise_cons.mp h.disjoint).2⟩

/-- In what order the files come does not matter for their being apart. -/
theorem Apart.perm {slots slots' : List Slot} (h : Apart edited slots) (hperm : slots.Perm slots') :
    Apart edited slots' := by
  refine ⟨fun slot hslot => h.beside slot (hperm.mem_iff.mpr hslot), ?_⟩
  refine (hperm.pairwise_iff ?_).mp h.disjoint
  intro a b hab path hb ha
  exact hab path ha hb

theorem Apart.left {front back : List Slot} (h : Apart edited (front ++ back)) :
    Apart edited front :=
  ⟨fun slot hslot => h.beside slot (List.mem_append_left _ hslot),
    (List.pairwise_append.mp h.disjoint).1⟩

theorem not_any_of_apart {front back : List Slot} (h : Apart edited (front ++ back)) {slot : Slot}
    (hslot : slot ∈ back) {path : Path} (hpath : slot.At path) : ¬ Any front path := by
  rintro ⟨other, hother, hat⟩
  exact (List.pairwise_append.mp h.disjoint).2.2 other hother slot hslot path hat hpath

/-- What happens to other files leaves a slot ready. -/
theorem Slot.Ready.beyond {slot : Slot} {slots : List Slot} {text : Text}
    (hm : Moves edited (Any slots) world world') (hapart : Apart edited (slots ++ [slot]))
    (h : slot.Ready text world) : slot.Ready text world' := by
  have hmem : slot ∈ [slot] := List.mem_cons_self
  exact write.Ready.moves hm (not_any_of_apart hapart hmem (.inl rfl))
    (not_any_of_apart hapart hmem (.inr rfl))
    (hapart.beside slot (List.mem_append_right _ hmem)).free h

/-- What happens to other files leaves a slot kept. -/
theorem Slot.Kept.beyond {slot : Slot} {slots : List Slot}
    (hm : Moves edited (Any slots) world world') (hapart : Apart edited (slots ++ [slot]))
    (h : slot.Kept named world) : slot.Kept named world' := by
  have hmem : slot ∈ [slot] := List.mem_cons_self
  exact write.Kept.moves hm (not_any_of_apart hapart hmem (.inl rfl))
    (not_any_of_apart hapart hmem (.inr rfl))
    (hapart.beside slot (List.mem_append_right _ hmem)).free h

/-- A sublist of two parts, with one of the second part behind the first. -/
theorem Apart.pick {front back : List Slot} (h : Apart edited (front ++ back)) {slot : Slot}
    (hslot : slot ∈ back) : Apart edited (front ++ [slot]) := by
  refine ⟨fun other hother => h.beside other ?_, ?_⟩
  · rcases List.mem_append.mp hother with hfront | hlast
    · exact List.mem_append_left _ hfront
    · rw [List.mem_singleton.mp hlast]
      exact List.mem_append_right _ hslot
  · have hsub : List.Sublist (front ++ [slot]) (front ++ back) :=
      (List.Sublist.refl front).append (List.singleton_sublist.mpr hslot)
    exact h.disjoint.sublist hsub

/-- By induction on the files: the rollback keeps what others wrote at any of them. -/
theorem rollbackEach_kept (hoperations : Raced edited operations) {slots : List Slot}
    {failures : List Failure} (hapart : Apart edited slots)
    (hready : ∀ slot ∈ slots, slot.Ready slot.replacement.before world)
    (hrun : rollbackEach faults operations (slots.map Slot.committed) world = (failures, world')) :
    Moves edited (Any slots) world world' ∧ ∀ slot ∈ slots,
      slot.Kept (fun path => ∃ failure ∈ failures, failure.names path) world' := by
  induction slots generalizing world world' failures with
  | nil =>
    obtain ⟨rfl, rfl⟩ := hrun
    exact ⟨.refl _, fun slot hslot => by cases hslot⟩
  | cons slot slots ih =>
    rw [List.map_cons, rollbackEach] at hrun
    dsimp only at hrun
    cases hone : rollbackOne faults operations slot.committed world with
    | mk result after =>
      rw [hone] at hrun
      obtain ⟨hmoves, hkept⟩ := rollbackOne_kept hoperations
        (hapart.beside slot List.mem_cons_self) (hready slot List.mem_cons_self) hone
      cases hrest : rollbackEach faults operations (slots.map Slot.committed) after with
      | mk rest last =>
        rw [hrest] at hrun
        have hfront : Apart edited ([slot] ++ slots) := hapart
        have hswap : ∀ other ∈ slots, Apart edited ([slot] ++ [other]) := fun other hother =>
          hfront.pick hother
        have hmoves' : Moves edited (Any [slot]) world after :=
          hmoves.mono fun path hpath => ⟨slot, List.mem_cons_self, hpath⟩
        obtain ⟨hlater, hall⟩ := ih hapart.tail
          (fun other hother => (hready other (List.mem_cons_of_mem _ hother)).beyond hmoves'
            (hswap other hother)) hrest
        have hfirst : Apart edited (slots ++ [slot]) :=
          hapart.perm (List.perm_append_singleton slot slots).symm
        have hnames : (∀ path, (∃ failure, result = .error failure ∧ failure.names path) →
            ∃ failure ∈ failures, failure.names path) ∧
            (∀ failure ∈ rest, failure ∈ failures) ∧ world' = last := by
          cases result with
          | ok _ =>
            obtain ⟨rfl, rfl⟩ := hrun
            refine ⟨?_, fun _ h => h, rfl⟩
            rintro path ⟨failure, heq, -⟩
            cases heq
          | error failure =>
            obtain ⟨rfl, rfl⟩ := hrun
            refine ⟨?_, fun _ h => List.mem_cons_of_mem _ h, rfl⟩
            rintro path ⟨failure', heq, hnamed⟩
            rw [Except.error.inj heq]
            exact ⟨failure', List.mem_cons_self, hnamed⟩
        obtain ⟨hhead, htail, rfl⟩ := hnames
        refine ⟨?_, fun other hother => ?_⟩
        · refine (hmoves.mono ?_).trans (hlater.mono ?_)
          · exact fun path hpath => ⟨slot, List.mem_cons_self, hpath⟩
          · rintro path ⟨other, hother, hpath⟩
            exact ⟨other, List.mem_cons_of_mem _ hother, hpath⟩
        · rcases List.mem_cons.mp hother with rfl | hother
          · exact Slot.Kept.beyond hlater hfirst (write.Kept.mono hkept hhead)
          · refine write.Kept.mono (hall other hother) ?_
            rintro path ⟨failure, hfailure, hnamed⟩
            exact ⟨failure, htail failure hfailure, hnamed⟩

/-! ## The end of a transaction -/

/-- The staging files that are still owned. -/
def Owned (staged : List StagedReplacement) (path : Path) : Prop :=
  ∃ one ∈ staged, one.temporary = some path

theorem cleanup_moves (one : StagedReplacement) (world : World) :
    Moves edited (fun path => one.temporary = some path) world (one.cleanup faults world).2 := by
  unfold StagedReplacement.cleanup
  cases htemporary : one.temporary with
  | none => exact .refl world
  | some temporary =>
    dsimp only
    have hmoves := @removeOwnedFile_moves faults edited (fun path => some temporary = some path)
      temporary rfl world
    cases hremove : removeOwnedFile faults temporary world with
    | mk result after =>
      rw [hremove] at hmoves
      cases result with
      | ok _ => exact hmoves
      | error error => exact hmoves

/-- A clean-up touches no path but the temporaries. -/
theorem cleanupEach_moves (staged : List StagedReplacement) (world : World) :
    Moves edited (Owned staged) world (cleanupEach faults staged world).2 := by
  induction staged generalizing world with
  | nil => exact .refl world
  | cons one rest ih =>
    rw [cleanupEach]
    have hhead : ∀ path, one.temporary = some path → Owned (one :: rest) path :=
      fun path hpath => ⟨one, List.mem_cons_self, hpath⟩
    have htail : ∀ path, Owned rest path → Owned (one :: rest) path :=
      fun path ⟨other, hother, hpath⟩ => ⟨other, List.mem_cons_of_mem _ hother, hpath⟩
    have hone := (@cleanup_moves faults edited one world).mono hhead
    have hrest := (ih (one.cleanup faults world).2).mono htail
    dsimp only
    split
    · exact hone.trans hrest
    · exact hone.trans hrest

theorem cleanStagedReplacements_moves (failure : Failure) (staged : List StagedReplacement)
    (world : World) :
    Moves edited (Owned staged) world (cleanStagedReplacements faults failure staged world).2 := by
  have hmoves := @cleanupEach_moves faults edited staged world
  unfold cleanStagedReplacements
  split
  · next heq =>
    rw [heq] at hmoves
    exact hmoves
  · next heq =>
    rw [heq] at hmoves
    exact hmoves

/-- Where no removal fails, every temporary is gone. -/
theorem cleanupEach_removed (hremovals : Removals faults) (staged : List StagedReplacement)
    (world : World) {path : Path} (hpath : Owned staged path) :
    (cleanupEach faults staged world).2.get path = none := by
  induction staged generalizing world with
  | nil =>
    obtain ⟨one, hone, -⟩ := hpath
    cases hone
  | cons one rest ih =>
    rw [cleanupEach]
    have hrest : (cleanupEach faults rest (one.cleanup faults world).2).2.get path = none := by
      by_cases hlater : Owned rest path
      · exact ih _ hlater
      · obtain ⟨other, hother, htemporary⟩ := hpath
        obtain rfl : other = one := (List.mem_cons.mp hother).resolve_right
          fun hmem => hlater ⟨other, hmem, htemporary⟩
        have hmoves := @cleanupEach_moves faults Nobody rest (other.cleanup faults world).2
        rw [hmoves.kept path id hlater]
        unfold StagedReplacement.cleanup
        rw [htemporary]
        obtain ⟨hok, hnone⟩ := removeOwnedFile_removed hremovals path world
        dsimp only
        split
        · next heq =>
          rw [heq] at hnone
          exact hnone
        · next heq =>
          rw [heq] at hok
          cases hok
    dsimp only
    split
    · exact hrest
    · exact hrest

theorem cleanStagedReplacements_removed (hremovals : Removals faults) (failure : Failure)
    {staged : List StagedReplacement} (world : World) {path : Path} (hpath : Owned staged path) :
    (cleanStagedReplacements faults failure staged world).2.get path = none := by
  have hremoved := cleanupEach_removed hremovals staged world hpath
  unfold cleanStagedReplacements
  split
  · next heq =>
    rw [heq] at hremoved
    exact hremoved
  · next heq =>
    rw [heq] at hremoved
    exact hremoved

/-- The failures of a rollback are joined, and the joined one names what each of them named.
-/
theorem rollback_kept (hoperations : Raced edited operations) {slots : List Slot}
    {result : Except Failure Unit} (hapart : Apart edited slots)
    (hready : ∀ slot ∈ slots, slot.Ready slot.replacement.before world)
    (hrun : rollback faults operations (slots.map Slot.committed) world = (result, world')) :
    Moves edited (Any slots) world world' ∧ ∀ slot ∈ slots,
      slot.Kept (fun path => ∃ failure, result = .error failure ∧ failure.names path) world' := by
  have hany : ∀ path, Any slots.reverse path → Any slots path := by
    rintro path ⟨slot, hslot, hpath⟩
    exact ⟨slot, List.mem_reverse.mp hslot, hpath⟩
  unfold rollback at hrun
  cases heach : rollbackEach faults operations (slots.map Slot.committed).reverse world with
  | mk failures after =>
    rw [heach] at hrun
    rw [← List.map_reverse] at heach
    obtain ⟨hmoves, hkept⟩ := rollbackEach_kept hoperations
      (hapart.perm (List.reverse_perm slots).symm)
      (fun slot hslot => hready slot (List.mem_reverse.mp hslot)) heach
    cases failures with
    | nil =>
      obtain ⟨rfl, rfl⟩ := hrun
      refine ⟨hmoves.mono hany, fun slot hslot => ?_⟩
      refine write.Kept.mono (hkept slot (List.mem_reverse.mpr hslot)) ?_
      rintro path ⟨failure, hfailure, -⟩
      cases hfailure
    | cons first rest =>
      obtain ⟨rfl, rfl⟩ := hrun
      refine ⟨hmoves.mono hany, fun slot hslot => ?_⟩
      refine write.Kept.mono (hkept slot (List.mem_reverse.mpr hslot)) ?_
      rintro path ⟨failure, hfailure, hnamed⟩
      exact ⟨_, rfl, List.mem_cons_of_mem _
        (mem_joined (List.mem_map_of_mem hfailure) hnamed)⟩

/-- A commit that stops at one file keeps what others wrote: at the files before it by their
rollback, at the file itself by what was undone, and behind it by not having touched them.
-/
theorem failCommit_kept (hoperations : Raced edited operations) {done later : List Slot}
    {slot : Slot} {staged : StagedReplacement} {failure failure' : Failure}
    (hapart : Apart edited (done ++ slot :: later))
    (hdone : ∀ one ∈ done, one.Ready one.replacement.before world)
    (hundone : Undone slot.replacement slot.temporary failure.names world staged)
    (hlater : ∀ one ∈ later, one.Ready one.replacement.after world)
    (hrun : failCommit faults operations failure (done.map Slot.committed)
      (done.map Slot.gone ++ staged :: later.map Slot.pending) world = (failure', world')) :
    ∀ one ∈ done ++ slot :: later, one.Kept failure'.names world' := by
  unfold failCommit at hrun
  cases hrollback : rollback faults operations (done.map Slot.committed) world with
  | mk result after =>
    rw [hrollback] at hrun
    obtain ⟨hmoves, hkept⟩ := rollback_kept hoperations hapart.left hdone hrollback
    -- whatever is named so far is named in the end
    obtain ⟨told, hnames, hfailed, hclean⟩ : ∃ told : Failure,
        (∀ path, failure.names path → told.names path) ∧
        (∀ path, (∃ failure, result = .error failure ∧ failure.names path) → told.names path) ∧
        cleanStagedReplacements faults told
          (done.map Slot.gone ++ staged :: later.map Slot.pending) after = (failure', world') := by
      cases result with
      | ok _ =>
        refine ⟨failure, fun _ h => h, ?_, hrun⟩
        rintro path ⟨failure, heq, -⟩
        cases heq
      | error rollback_failure =>
        refine ⟨_, fun path h => List.mem_append_left _ h, ?_, hrun⟩
        rintro path ⟨failure', heq, hnamed⟩
        rw [← Except.error.inj heq] at hnamed
        exact List.mem_append_right _ (List.mem_cons_of_mem _ hnamed)
    have hlast : Moves edited
        (Owned (done.map Slot.gone ++ staged :: later.map Slot.pending)) after world' := by
      have := @cleanStagedReplacements_moves faults edited told
        (done.map Slot.gone ++ staged :: later.map Slot.pending) after
      rwa [hclean] at this
    have hnamed : ∀ path, told.names path → failure'.names path := by
      intro path hpath
      have := @cleanStagedReplacements_names faults told path hpath
        (done.map Slot.gone ++ staged :: later.map Slot.pending) after
      rwa [hclean] at this
    have howned : ∀ path, Owned (done.map Slot.gone ++ staged :: later.map Slot.pending) path →
        staged.temporary = some path ∨ ∃ one ∈ later, path = one.temporary := by
      rintro path ⟨one, hone, hpath⟩
      rcases List.mem_append.mp hone with hone | hone
      · obtain ⟨other, -, rfl⟩ := List.mem_map.mp hone
        cases hpath
      · rcases List.mem_cons.mp hone with rfl | hone
        · exact .inl hpath
        · obtain ⟨other, hother, rfl⟩ := List.mem_map.mp hone
          exact .inr ⟨other, hother, (Option.some.inj hpath).symm⟩
    have hslot : slot ∈ slot :: later := List.mem_cons_self
    have htemporary : ∀ path, staged.temporary = some path → slot.At path := by
      intro path hpath
      cases hundone with
      | owned _ => exact .inr (Option.some.inj hpath).symm
      | given _ _ => cases hpath
    have hback : ∀ path, Owned (done.map Slot.gone ++ staged :: later.map Slot.pending) path →
        Any (slot :: later) path := by
      intro path hpath
      rcases howned path hpath with hpath | ⟨one, hone, rfl⟩
      · exact ⟨slot, hslot, htemporary path hpath⟩
      · exact ⟨one, List.mem_cons_of_mem _ hone, .inr rfl⟩
    have hswapped : Apart edited ((slot :: later) ++ done) := hapart.perm List.perm_append_comm
    intro one hone
    rcases List.mem_append.mp hone with hone | hone
    · refine write.Kept.mono (Slot.Kept.beyond (hlast.mono hback) (hswapped.pick hone)
        (hkept one hone)) fun path hpath => hnamed path (hfailed path hpath)
    · -- no staging path is a destination
      have hpath : ¬ Owned (done.map Slot.gone ++ staged :: later.map Slot.pending)
          one.replacement.path := by
        intro hpath
        have hshared := (hapart.beside one (List.mem_append_right _ hone)).shared
        rcases howned _ hpath with hpath | ⟨other, hother, heq⟩
        · have hfree := (hapart.beside slot (List.mem_append_right _ hslot)).free
          cases hundone with
          | owned _ =>
            obtain heq : slot.temporary = one.replacement.path := Option.some.inj hpath
            rw [heq] at hfree
            exact hfree hshared
          | given _ _ => cases hpath
        · have hfree := (hapart.beside other
            (List.mem_append_right _ (List.mem_cons_of_mem _ hother))).free
          rw [← heq] at hfree
          exact hfree hshared
      have hpick := hapart.pick hone
      rcases List.mem_cons.mp hone with rfl | hone
      · cases hundone with
        | owned hready => exact .inl ((Slot.Ready.beyond hmoves hpick hready).1.moves hlast hpath)
        | given hheld hnames' =>
          have hkept : one.Kept told.names after :=
            Slot.Kept.beyond hmoves hpick (.inr ⟨hheld, hnames _ hnames'⟩)
          refine write.Kept.mono (write.Kept.moves hlast hpath ?_
            (hapart.beside one (List.mem_append_right _ hslot)).free hkept) hnamed
          intro htemporary
          rcases howned _ htemporary with htemporary | ⟨other, hother, heq⟩
          · cases htemporary
          · have hapart' := (List.pairwise_append.mp hapart.disjoint).2.1
            exact (List.pairwise_cons.mp hapart').1 other hother _ (.inr rfl) (.inr heq)
      · exact .inl ((Slot.Ready.beyond hmoves hpick (hlater one hone)).1.moves hlast hpath)

/-! ## The loop of the switches -/

/-- The staging paths. -/
def Temporary (slots : List Slot) (path : Path) : Prop := ∃ slot ∈ slots, path = slot.temporary

theorem Temporary.any {slots : List Slot} {path : Path} (h : Temporary slots path) :
    Any slots path := by
  obtain ⟨slot, hslot, heq⟩ := h
  exact ⟨slot, hslot, .inr heq⟩

/-- The backups are removed and nothing else. -/
theorem removeEach_moves (slots : List Slot) (world : World) :
    Moves edited (Temporary slots) world
      (removeEach faults (slots.map Slot.committed) world).2 := by
  induction slots generalizing world with
  | nil => exact .refl world
  | cons slot slots ih =>
    rw [List.map_cons, removeEach]
    have hone := @removeOwnedFile_moves faults edited
      (Temporary (slot :: slots)) slot.temporary ⟨slot, List.mem_cons_self, rfl⟩ world
    have htail : ∀ path, Temporary slots path → Temporary (slot :: slots) path :=
      fun path ⟨other, hother, hpath⟩ => ⟨other, List.mem_cons_of_mem _ hother, hpath⟩
    have hrest := (ih (removeOwnedFile faults slot.temporary world).2).mono htail
    dsimp only
    split
    · exact hone.trans hrest
    · exact hone.trans hrest

/-- By induction on the files that are still to be installed. -/
theorem commitFrom_kept (hoperations : Raced edited operations) {done later : List Slot}
    {result : Except Failure Unit} (hapart : Apart edited (done ++ later))
    (hindex : ∀ index slot, later[index]? = some slot → slot.index = done.length + index)
    (hdone : ∀ slot ∈ done, slot.Ready slot.replacement.before world)
    (hlater : ∀ slot ∈ later, slot.Ready slot.replacement.after world)
    (hrun : commitFrom faults operations (done.map Slot.committed) (done.map Slot.gone)
      (later.map Slot.pending) world = (result, world')) :
    ∀ slot ∈ done ++ later,
      slot.Kept (fun path => ∃ failure, result = .error failure ∧ failure.names path) world' := by
  induction later generalizing done world with
  | nil =>
    rw [List.map_nil, commitFrom] at hrun
    have hmoves := @removeEach_moves faults edited done world
    have hlast : (removeEach faults (done.map Slot.committed) world).2 = world' := by
      unfold cleanTransactionArtifacts at hrun
      split at hrun
      · next heq =>
        rw [heq]
        exact (Prod.mk.inj hrun).2
      · next heq =>
        rw [heq]
        exact (Prod.mk.inj hrun).2
    rw [hlast] at hmoves
    intro slot hslot
    rw [List.append_nil] at hslot hapart
    refine .inl ((hdone slot hslot).1.moves hmoves ?_)
    rintro ⟨other, hother, heq⟩
    have hfree := (hapart.beside other hother).free
    rw [← heq] at hfree
    exact hfree (hapart.beside slot hslot).shared
  | cons slot later ih =>
    rw [List.map_cons, commitFrom] at hrun
    have hslot : slot ∈ slot :: later := List.mem_cons_self
    have hposition : (done.map Slot.gone).length = slot.index := by
      rw [List.length_map]
      exact (hindex 0 slot rfl).symm
    rw [hposition] at hrun
    cases hswitch : slot.pending.switch faults operations slot.index world with
    | mk outcome rest =>
      obtain ⟨staged, after⟩ := rest
      rw [hswitch] at hrun
      obtain ⟨hmoves, houtcome⟩ := switch_outcome hoperations
        (hapart.beside slot (List.mem_append_right _ hslot)) (hlater slot hslot) hswitch
      have hone : Moves edited (Any [slot]) world after :=
        hmoves.mono fun path hpath => ⟨slot, List.mem_cons_self, hpath⟩
      have hothers : ∀ other, other ∈ done ∨ other ∈ later → Apart edited ([slot] ++ [other]) := by
        intro other hother
        have hfront : Apart edited ([slot] ++ (done ++ later)) :=
          hapart.perm List.perm_middle
        exact hfront.pick (List.mem_append.mpr hother)
      have hdone' : ∀ one ∈ done, one.Ready one.replacement.before after := fun one hmem =>
        (hdone one hmem).beyond hone (hothers one (.inl hmem))
      have hlater' : ∀ one ∈ later, one.Ready one.replacement.after after := fun one hmem =>
        (hlater one (List.mem_cons_of_mem _ hmem)).beyond hone (hothers one (.inr hmem))
      cases outcome with
      | ok applied =>
        obtain ⟨rfl, rfl, hready⟩ := houtcome
        have happend : done ++ slot :: later = (done ++ [slot]) ++ later := by simp
        rw [happend]
        refine ih (by rwa [← happend]) (fun index one hone => ?_) ?_ hlater' ?_
        · rw [hindex (index + 1) one hone, List.length_append, List.length_singleton]
          omega
        · intro one hmem
          rcases List.mem_append.mp hmem with hmem | hmem
          · exact hdone' one hmem
          · rw [List.mem_singleton.mp hmem]
            exact hready
        · rw [List.map_append, List.map_append]
          exact hrun
      | error failure =>
        dsimp only at hrun
        cases hfail : failCommit faults operations failure (done.map Slot.committed)
            (done.map Slot.gone ++ staged :: later.map Slot.pending) after with
        | mk failure' last =>
          rw [hfail] at hrun
          obtain ⟨rfl, rfl⟩ := hrun
          have hkept := failCommit_kept hoperations hapart hdone' houtcome hlater' hfail
          exact fun one hmem => (hkept one hmem).mono fun path hnamed => ⟨_, rfl, hnamed⟩

/-! ## The stage -/

/-- A new file is made empty, or nothing changes. -/
theorem openNew_outcome {path : Path} {result : Except IoError Unit}
    (hrun : openNew faults path world = (result, world')) :
    (result = .ok () → world.get path = none ∧ world' = world.put path (some (.File []))) ∧
      ∀ error, result = .error error → world' = world := by
  unfold openNew at hrun
  split at hrun
  · obtain ⟨rfl, rfl⟩ := hrun
    exact ⟨fun h => (by cases h), fun _ _ => rfl⟩
  · next hget =>
    split at hrun
    · obtain ⟨rfl, rfl⟩ := hrun
      exact ⟨fun h => (by cases h), fun _ _ => rfl⟩
    · obtain ⟨rfl, rfl⟩ := hrun
      exact ⟨fun _ => ⟨hget, rfl⟩, fun _ h => (by cases h)⟩

/-- A temporary is an empty file at a path that had nothing before. -/
theorem createFrom_outcome {path : Path} {attempts nonce nonce' : Nat}
    {result : Except Failure Path}
    (hrun : createFrom faults pid path attempts nonce world = (result, nonce', world')) :
    (∀ temporary, result = .ok temporary → world.get temporary = none ∧
        world' = world.put temporary (some (.File []))) ∧
      ∀ failure, result = .error failure → world' = world ∧ Told failure := by
  induction attempts generalizing nonce with
  | zero =>
    rw [createFrom] at hrun
    obtain ⟨rfl, -, rfl⟩ := hrun
    exact ⟨fun _ h => (by cases h), fun failure h => ⟨rfl, told_error (by decide) h⟩⟩
  | succ attempts ih =>
    rw [createFrom] at hrun
    cases hname : uniqueSibling pid nonce path STAGING_ROLE with
    | error failure =>
      rw [hname] at hrun
      obtain ⟨rfl, -, rfl⟩ := hrun
      refine ⟨fun _ h => (by cases h), fun failure' h => ⟨rfl, ?_⟩⟩
      rw [← Except.error.inj h]
      unfold uniqueSibling at hname
      split at hname
      · exact told_error (by decide) hname
      · cases hname
    | ok temporary =>
      rw [hname] at hrun
      dsimp only at hrun
      cases hopen : openNew faults temporary world with
      | mk opened after =>
        rw [hopen] at hrun
        obtain ⟨hmade, hrefused⟩ := openNew_outcome hopen
        cases opened with
        | ok _ =>
          obtain ⟨rfl, -, rfl⟩ := hrun
          refine ⟨fun temporary' h => ?_, fun _ h => (by cases h)⟩
          rw [← Except.ok.inj h]
          exact hmade rfl
        | error error =>
          obtain rfl := hrefused error rfl
          cases error with
          | AlreadyExists => exact ih hrun
          | NotFound =>
            obtain ⟨rfl, -, rfl⟩ := hrun
            exact ⟨fun _ h => (by cases h), fun failure h => ⟨rfl, told_error (by decide) h⟩⟩
          | Os code =>
            obtain ⟨rfl, -, rfl⟩ := hrun
            exact ⟨fun _ h => (by cases h), fun failure h => ⟨rfl, told_error (by decide) h⟩⟩

/-- Only the staging file changes, and it has the whole text where nothing failed. -/
theorem writeStaged_outcome {text : Text} {path : Path} {result : Except Failure Unit}
    (hrun : writeStaged faults text path world = (result, world')) :
    Moves edited (· = path) world world' ∧
      (result = .ok () → world'.get path = some (.File text)) ∧
      ∀ failure, result = .error failure → Told failure := by
  have hput := @moves_put _ _ _ edited (· = path) world path (some (.File text)) rfl
  unfold writeStaged at hrun
  split at hrun
  · obtain ⟨rfl, rfl⟩ := hrun
    exact ⟨.refl _, fun h => (by cases h), fun _ h => told_error (by decide) h⟩
  · dsimp only at hrun
    split at hrun
    · obtain ⟨rfl, rfl⟩ := hrun
      exact ⟨hput, fun h => (by cases h), fun _ h => told_error (by decide) h⟩
    · split at hrun
      · obtain ⟨rfl, rfl⟩ := hrun
        exact ⟨hput, fun h => (by cases h), fun _ h => told_error (by decide) h⟩
      · obtain ⟨rfl, rfl⟩ := hrun
        exact ⟨hput, fun _ => get_put_self _ _ _, fun _ h => (by cases h)⟩

/-- A run that stopped before its first exchange: no path is changed that was there,
and none at all when every removal goes through. -/
structure Stopped (faults : Faults) (start world : World) (failure : Failure) : Prop where
  moves : Moves Nobody (Free start) start world
  clean : Removals faults → ∀ path, world.get path = start.get path
  told : Told failure

theorem Stopped.still {failure : Failure} (h : Told failure) :
    Stopped faults world world failure := ⟨.refl world, fun _ _ => rfl, h⟩

theorem cleanStagedAfterFailure_told {failure : Failure} (h : Told failure) (temporary : Path)
    (world : World) : Told (cleanStagedAfterFailure faults failure temporary world).1 := by
  unfold cleanStagedAfterFailure
  split
  · exact h
  · exact h.append _ _

/-- A file that is staged still has its old text, with the new one in a fresh temporary. -/
theorem stage_outcome {nonce nonce' : Nat} {result : Except Failure StagedReplacement}
    (hrun : StagedReplacement.stage faults pid replacement index nonce world =
      (result, nonce', world')) :
    (∀ staged, result = .ok staged → ∃ temporary, staged = ⟨replacement, some temporary⟩ ∧
        world.get temporary = none ∧ Moves Nobody (· = temporary) world world' ∧
        world.get replacement.path = some (.File replacement.before) ∧
        world'.get temporary = some (.File replacement.after)) ∧
      ∀ failure, result = .error failure → Stopped faults world world' failure := by
  unfold StagedReplacement.stage at hrun
  cases hverify : verifySnapshot faults .Staging index world replacement.path
      replacement.before with
  | error failure =>
    rw [hverify] at hrun
    obtain ⟨rfl, -, rfl⟩ := hrun
    refine ⟨fun _ h => (by cases h), fun failure h => ?_⟩
    rw [← Except.error.inj h]
    exact .still (verifySnapshot_told hverify)
  | ok _ =>
    rw [hverify] at hrun
    dsimp only [createStagingFile] at hrun
    cases hcreate : createFrom faults pid replacement.path MAX_UNIQUE_NAME_ATTEMPTS nonce world with
    | mk created rest =>
      obtain ⟨next, after⟩ := rest
      rw [hcreate] at hrun
      obtain ⟨hmade, hrefused⟩ := createFrom_outcome hcreate
      cases created with
      | error failure =>
        obtain ⟨rfl, htold⟩ := hrefused failure rfl
        obtain ⟨rfl, -, rfl⟩ := hrun
        refine ⟨fun _ h => (by cases h), fun failure h => ?_⟩
        rw [← Except.error.inj h]
        exact .still htold
      | ok temporary =>
        obtain ⟨hfree, rfl⟩ := hmade temporary rfl
        dsimp only at hrun
        have hput := @moves_put _ _ _ Nobody (· = temporary) world temporary (some (.File [])) rfl
        cases hwrite : writeStaged faults replacement.after temporary
            (world.put temporary (some (.File []))) with
        | mk written last =>
          rw [hwrite] at hrun
          obtain ⟨hmoves, htext, htold⟩ :
              Moves Nobody (· = temporary) (world.put temporary (some (.File []))) last ∧
                (written = .ok () → last.get temporary = some (.File replacement.after)) ∧
                ∀ failure, written = .error failure → Told failure := writeStaged_outcome hwrite
          have hall := hput.trans hmoves
          cases written with
          | error failure =>
            have hclean := @removeOwnedFile_moves faults Nobody (· = temporary) temporary rfl last
            have htold := @cleanStagedAfterFailure_told faults _ (htold failure rfl) temporary last
            have hworld := @cleanStagedAfterFailure_world faults failure temporary last
            rw [← hworld] at hclean
            obtain ⟨rfl, -, rfl⟩ := hrun
            have hboth := hall.trans hclean
            refine ⟨fun _ h => (by cases h), fun failure' h => ⟨hboth.mono ?_, ?_, ?_⟩⟩
            · rintro path rfl
              exact hfree
            · intro hremovals path
              by_cases hpath : path = temporary
              · rw [hpath, hworld, hfree]
                exact (removeOwnedFile_removed hremovals temporary last).2
              · exact hboth.kept path id hpath
            · rw [← Except.error.inj h]
              exact htold
          | ok _ =>
            obtain ⟨rfl, -, rfl⟩ := hrun
            refine ⟨fun staged h => ?_, fun _ h => (by cases h)⟩
            obtain rfl := Except.ok.inj h
            exact ⟨temporary, rfl, hfree, hall, (verifySnapshot_iff.mp hverify).2, htext rfl⟩

/-- The replacements that are staged so far, since the beginning of the run. -/
structure Staged (start world : World) (slots : List Slot) : Prop where
  fresh : ∀ slot ∈ slots, start.get slot.temporary = none
  staged : ∀ slot ∈ slots, world.get slot.temporary = some (.File slot.replacement.after)
  analyzed : ∀ slot ∈ slots,
    world.get slot.replacement.path = some (.File slot.replacement.before)
  temporaries : (slots.map Slot.temporary).Nodup
  destinations : (slots.map fun slot => slot.replacement.path).Nodup
  indexed : ∀ (index : Nat) (slot : Slot), slots[index]? = some slot → slot.index = index
  moves : Moves Nobody (Temporary slots) start world

theorem Staged.moves_free {start : World} {slots : List Slot} (h : Staged start world slots) :
    Moves Nobody (Free start) start world := by
  refine h.moves.mono ?_
  rintro path ⟨slot, hslot, rfl⟩
  exact h.fresh slot hslot

theorem Staged.nil (start : World) : Staged start start [] :=
  ⟨fun _ h => absurd h List.not_mem_nil, fun _ h => absurd h List.not_mem_nil,
    fun _ h => absurd h List.not_mem_nil, List.nodup_nil, List.nodup_nil,
    fun _ _ h => absurd h (Option.some_ne_none _).symm, .refl start⟩

/-- One more file is staged in a temporary that nothing had before. -/
theorem Staged.snoc {start : World} {slots : List Slot} (h : Staged start world slots)
    (hnew : ∀ slot ∈ slots, slot.replacement.path ≠ replacement.path)
    (hfree : world.get temporary = none) (hmoves : Moves Nobody (· = temporary) world world')
    (hbefore : world.get replacement.path = some (.File replacement.before))
    (hafter : world'.get temporary = some (.File replacement.after)) :
    Staged start world' (slots ++ [⟨slots.length, replacement, temporary⟩]) := by
  have hfresh : start.get temporary = none := by
    by_contra hsome
    rw [h.moves_free.kept temporary id hsome] at hfree
    exact hsome hfree
  have hkept : ∀ path entry, world.get path = some entry → world'.get path = some entry := by
    intro path entry hentry
    rw [hmoves.kept path id ?_, hentry]
    rintro rfl
    rw [hfree] at hentry
    cases hentry
  have hlast : ∀ slot ∈ slots ++ [⟨slots.length, replacement, temporary⟩],
      slot ∈ slots ∨ slot = ⟨slots.length, replacement, temporary⟩ := by
    intro slot hslot
    rwa [List.mem_append, List.mem_singleton] at hslot
  refine ⟨fun slot hslot => ?_, fun slot hslot => ?_, fun slot hslot => ?_, ?_, ?_, ?_, ?_⟩
  · rcases hlast slot hslot with hslot | rfl
    · exact h.fresh slot hslot
    · exact hfresh
  · rcases hlast slot hslot with hslot | rfl
    · exact hkept _ _ (h.staged slot hslot)
    · exact hafter
  · rcases hlast slot hslot with hslot | rfl
    · exact hkept _ _ (h.analyzed slot hslot)
    · exact hkept _ _ hbefore
  · rw [List.map_append, List.nodup_append]
    refine ⟨h.temporaries, List.pairwise_singleton _ _, ?_⟩
    rintro path hpath other hother rfl
    obtain ⟨slot, hslot, rfl⟩ := List.mem_map.mp hpath
    obtain heq : slot.temporary = temporary := List.mem_singleton.mp hother
    rw [← heq, h.staged slot hslot] at hfree
    cases hfree
  · rw [List.map_append, List.nodup_append]
    refine ⟨h.destinations, List.pairwise_singleton _ _, ?_⟩
    rintro path hpath other hother rfl
    obtain ⟨slot, hslot, rfl⟩ := List.mem_map.mp hpath
    exact hnew slot hslot (List.mem_singleton.mp hother)
  · intro index slot hslot
    by_cases hlt : index < slots.length
    · rw [List.getElem?_append_left hlt] at hslot
      exact h.indexed index slot hslot
    · rw [List.getElem?_append_right (by omega)] at hslot
      obtain ⟨hle, heq⟩ := List.getElem?_eq_some_iff.mp hslot
      have hzero : index - slots.length = 0 := by simpa using hle
      rw [← heq]
      simp only [hzero, List.getElem_cons_zero]
      omega
  · refine (h.moves.mono ?_).trans (hmoves.mono ?_)
    · rintro path ⟨slot, hslot, heq⟩
      exact ⟨slot, List.mem_append_left _ hslot, heq⟩
    · rintro path rfl
      exact ⟨_, List.mem_append_right _ List.mem_cons_self, rfl⟩

/-- A failure while a file is staged removes the files that were staged before. -/
theorem Staged.stopped {start : World} {slots : List Slot} {failure : Failure}
    (h : Staged start world slots) (hstopped : Stopped faults world world' failure) :
    Stopped faults start
      (cleanStagedReplacements faults failure (slots.map Slot.pending) world').2
      (cleanStagedReplacements faults failure (slots.map Slot.pending) world').1 := by
  have howned : ∀ path, Owned (slots.map Slot.pending) path ↔ Temporary slots path := by
    intro path
    constructor
    · rintro ⟨one, hone, hpath⟩
      obtain ⟨slot, hslot, rfl⟩ := List.mem_map.mp hone
      exact ⟨slot, hslot, (Option.some.inj hpath).symm⟩
    · rintro ⟨slot, hslot, rfl⟩
      exact ⟨slot.pending, List.mem_map_of_mem hslot, rfl⟩
  have hclean := @cleanStagedReplacements_moves faults Nobody failure
    (slots.map Slot.pending) world'
  refine ⟨?_, fun hremovals path => ?_, cleanStagedReplacements_told hstopped.told _ _⟩
  · have hfree : ∀ path, Free world path → Free start path := by
      intro path hpath
      by_contra hsome
      rw [Free, h.moves_free.kept path id hsome] at hpath
      exact hsome hpath
    refine (h.moves_free.trans (hstopped.moves.mono hfree)).trans (hclean.mono fun path hpath => ?_)
    obtain ⟨slot, hslot, rfl⟩ := (howned path).mp hpath
    exact h.fresh slot hslot
  · by_cases hpath : Temporary slots path
    · rw [cleanStagedReplacements_removed hremovals failure world' ((howned path).mpr hpath)]
      obtain ⟨slot, hslot, rfl⟩ := hpath
      exact (h.fresh slot hslot).symm
    · rw [hclean.kept path id fun hpath' => hpath ((howned path).mp hpath'),
        hstopped.clean hremovals path, h.moves.kept path id hpath]

/-- By induction on the replacements: all of them are staged, or the run stops before any
exchange. -/
theorem stageEach_outcome {start : World} {destinations : List Path} {slots : List Slot}
    {replacements : List Replacement} {nonce : Nat}
    {result : Except Failure (List StagedReplacement)} (hstaged : Staged start world slots)
    (hdestinations : ∀ slot ∈ slots, slot.replacement.path ∈ destinations)
    (hrun : stageEach faults pid destinations (slots.map Slot.pending) replacements nonce world =
      (result, world')) :
    (∀ staged, result = .ok staged → ∃ slots', staged = slots'.map Slot.pending ∧
        slots'.map Slot.replacement = slots.map Slot.replacement ++ replacements ∧
        Staged start world' slots') ∧
      ∀ failure, result = .error failure → Stopped faults start world' failure := by
  induction replacements generalizing destinations slots nonce world with
  | nil =>
    obtain ⟨rfl, rfl⟩ := hrun
    refine ⟨fun staged h => ?_, fun _ h => (by cases h)⟩
    rw [← Except.ok.inj h]
    exact ⟨slots, rfl, (List.append_nil _).symm, hstaged⟩
  | cons replacement rest ih =>
    rw [stageEach] at hrun
    dsimp only at hrun
    split at hrun
    · next failure hregular =>
      obtain ⟨rfl, rfl⟩ := hrun
      refine ⟨fun _ h => (by cases h), fun failure' h => ?_⟩
      rw [← Except.error.inj h]
      exact hstaged.stopped (.still (ensureRegularFile_told hregular))
    · split at hrun
      · next failure hcanonical =>
        obtain ⟨rfl, rfl⟩ := hrun
        refine ⟨fun _ h => (by cases h), fun failure' h => ?_⟩
        rw [← Except.error.inj h]
        exact hstaged.stopped (.still (canonicalDestination_told hcanonical))
      · next destination hcanonical =>
        split at hrun
        · obtain ⟨rfl, rfl⟩ := hrun
          refine ⟨fun _ h => (by cases h), fun failure' h => ?_⟩
          rw [← Except.error.inj h]
          exact hstaged.stopped (.still (told_words _ _ (by decide)))
        · next hnew =>
          obtain rfl : replacement.path = destination := by
            unfold canonicalDestination at hcanonical
            split at hcanonical
            · cases hcanonical
            · exact Except.ok.inj hcanonical
          cases hstage : StagedReplacement.stage faults pid replacement
              (slots.map Slot.pending).length nonce world with
          | mk outcome more =>
            obtain ⟨next, after⟩ := more
            rw [hstage] at hrun
            obtain ⟨hone, hstopped⟩ := stage_outcome hstage
            cases outcome with
            | error failure =>
              obtain ⟨rfl, rfl⟩ := hrun
              refine ⟨fun _ h => (by cases h), fun failure' h => ?_⟩
              rw [← Except.error.inj h]
              exact hstaged.stopped (hstopped failure rfl)
            | ok staged =>
              obtain ⟨temporary, rfl, hfree, hmoves, hbefore, hafter⟩ := hone staged rfl
              have hother : ∀ slot ∈ slots, slot.replacement.path ≠ replacement.path := by
                intro slot hslot heq
                apply hnew
                rw [← heq]
                exact hdestinations slot hslot
              have hnext := hstaged.snoc hother hfree hmoves hbefore hafter
              have hpending : slots.map Slot.pending ++
                  [(⟨replacement, some temporary⟩ : StagedReplacement)] =
                  List.map Slot.pending (slots ++ [⟨slots.length, replacement, temporary⟩]) := by
                rw [List.map_append]
                rfl
              have hreplacements : slots.map Slot.replacement ++ replacement :: rest =
                  List.map Slot.replacement (slots ++ [⟨slots.length, replacement, temporary⟩]) ++
                    rest := by simp
              dsimp only at hrun
              rw [hpending] at hrun
              rw [hreplacements]
              refine ih hnext (fun slot hslot => ?_) hrun
              rcases List.mem_append.mp hslot with hslot | hslot
              · exact List.mem_cons_of_mem _ (hdestinations slot hslot)
              · rw [List.mem_singleton.mp hslot]
                exact List.mem_cons_self

/-! ## The whole run -/

/-- The destinations of the replacements. -/
def Destination (replacements : List Replacement) (path : Path) : Prop :=
  ∃ replacement ∈ replacements, replacement.path = path

/-- No path of one staged file is a path of another. -/
theorem Staged.apart {start : World} {slots : List Slot} (h : Staged start world slots)
    (hpresent : ∀ slot ∈ slots, (start.get slot.replacement.path).isSome) :
    Apart (Destination (slots.map Slot.replacement)) slots := by
  have hfree : ∀ slot ∈ slots, ∀ other ∈ slots, slot.temporary ≠ other.replacement.path := by
    intro slot hslot other hother heq
    have hsome := hpresent other hother
    rw [← heq, h.fresh slot hslot] at hsome
    cases hsome
  refine ⟨fun slot hslot => ⟨⟨slot.replacement, List.mem_map_of_mem hslot, rfl⟩, ?_⟩, ?_⟩
  · rintro ⟨replacement, hreplacement, heq⟩
    obtain ⟨other, hother, rfl⟩ := List.mem_map.mp hreplacement
    exact hfree slot hslot other hother heq.symm
  · have htemporaries := List.pairwise_map.mp h.temporaries
    have hdestinations := List.pairwise_map.mp h.destinations
    refine List.Pairwise.imp_of_mem ?_ (htemporaries.and hdestinations)
    rintro a b ha hb ⟨htemporary, hdestination⟩ path (rfl | rfl) (heq | heq)
    · exact hdestination heq
    · exact hfree b hb a ha heq.symm
    · exact hfree a ha b hb heq
    · exact htemporary heq

/-- Other processes may write to the destinations at every moment that the
operations give them. As long as no install and no rollback fails behind its swap,
what they wrote last to a destination is there in the end, or at a staging path that
was made by the run and is named in its error. -/
theorem no_external_edit_is_lost {replacements : List Replacement} {nonce : Nat}
    {result : Except Failure Unit} (hoperations : Raced (Destination replacements) operations)
    (hpresent : ∀ replacement ∈ replacements, (world.get replacement.path).isSome)
    (hquiet : world.edits = [])
    (hrun : replaceAllWithOperations faults pid operations replacements nonce world =
      (result, world'))
    (hreplacement : replacement ∈ replacements) {entry : Entry}
    (hlast : world'.last replacement.path = some entry) (hforeign : ¬ Own replacement entry) :
    world'.get replacement.path = some entry ∨ ∃ failure path, result = .error failure ∧
      failure.names path ∧ world.get path = none ∧ world'.get path = some entry := by
  have hnone : world.last replacement.path = none := by
    unfold last
    rw [hquiet]
    rfl
  unfold replaceAllWithOperations at hrun
  cases hstage : stageEach faults pid [] [] replacements nonce world with
  | mk outcome after =>
    rw [hstage] at hrun
    obtain ⟨hok, herror⟩ := stageEach_outcome (Staged.nil world)
      (fun _ h => absurd h List.not_mem_nil) hstage
    cases outcome with
    | error failure =>
      obtain ⟨rfl, rfl⟩ := hrun
      rw [(herror failure rfl).moves.unedited _ id, hnone] at hlast
      cases hlast
    | ok staged =>
      obtain ⟨slots, rfl, heq, hstaged⟩ := hok staged rfl
      obtain rfl : slots.map Slot.replacement = replacements := heq
      have hapart := hstaged.apart fun slot hslot =>
        hpresent slot.replacement (List.mem_map_of_mem hslot)
      obtain ⟨slot, hslot, rfl⟩ := List.mem_map.mp hreplacement
      have hready : ∀ one ∈ slots, one.Ready one.replacement.after after := by
        intro one hone
        refine ⟨fun edit hedit _ => ?_, hstaged.staged one hone⟩
        rw [hstaged.moves.unedited _ id] at hedit
        unfold last at hedit
        rw [hquiet] at hedit
        cases hedit
      have hindex : ∀ (index : Nat) (one : Slot), slots[index]? = some one →
          one.index = ([] : List Slot).length + index := by
        intro index one hone
        rw [hstaged.indexed index one hone, List.length_nil, Nat.zero_add]
      have hkept := @commitFrom_kept faults operations _ _ _ hoperations [] slots _ hapart hindex
        (fun _ h => absurd h List.not_mem_nil) hready hrun slot hslot
      rcases hkept with hhome | ⟨hheld, failure, rfl, hnamed⟩
      · exact .inl (hhome entry hlast hforeign)
      · rcases hheld entry hlast hforeign with hget | hget
        · exact .inl hget
        · exact .inr ⟨failure, slot.temporary, rfl, hnamed, hstaged.fresh slot hslot, hget⟩

/-- Another process writes to one destination just before its exchange. No
exchange can be taken back. -/
def racedOperations (path : Path) (text : Text) : FileOperations where
  before_late_validation _ _ world := (.ok (), world)
  before_install _ destination _ world :=
    (.ok (), if destination = path then world.edit (path, .File text) else world)
  before_rollback _ _ world := (.ok (), world)
  before_rollback_exchange _ _ world := (.ok (), world)
  exchange operation _ source destination world :=
    if operation = .RestoreStale then (.error (.Os 5), world)
    else (.ok (), world.swap source destination)

theorem Edits.none (world : World) : Edits edited world world :=
  ⟨[], fun _ h => absurd h List.not_mem_nil, rfl⟩

theorem raced_racedOperations {path : Path} (text : Text) (h : edited path) :
    Raced edited (racedOperations path text) := by
  constructor
  · exact fun _ _ world => .none world
  · intro index destination temporary world
    show Edits edited world (if destination = path then world.edit (path, .File text) else world)
    split
    · exact ⟨[(path, .File text)], by simpa using h, rfl⟩
    · exact .none world
  · exact fun _ _ world => .none world
  · exact fun _ _ world => .none world
  · intro operation index source destination world error world' hrun
    dsimp only [racedOperations] at hrun
    split at hrun
    · rw [← (Prod.mk.inj hrun).2]
      exact .inl (.none _)
    · cases (Prod.mk.inj hrun).1
  · intro operation index source destination world world' hrun
    dsimp only [racedOperations] at hrun
    split at hrun
    · cases (Prod.mk.inj hrun).1
    · rw [← (Prod.mk.inj hrun).2]
      exact .none _

def noFaults : Faults where
  inspect _ _ := none
  read _ _ := none
  reinspect _ _ := none
  canonicalize _ := none
  create _ := none
  write_all _ := none
  permit _ := none
  sync _ := none
  remove _ := none

def sourceA : Path := ⟨ascii "m", some (ascii "a")⟩
def sourceB : Path := ⟨ascii "m", some (ascii "b")⟩

def twoFiles : World :=
  ⟨fun path => if path = sourceA then some (.File (ascii "a"))
    else if path = sourceB then some (.File (ascii "b")) else none, []⟩

def twoReplacements : List Replacement :=
  [⟨sourceA, ascii "a", ascii "A"⟩, ⟨sourceB, ascii "b", ascii "B"⟩]

def racedRun : Except Failure Unit × World :=
  replaceAllWithOperations noFaults 1 (racedOperations sourceB (ascii "new")) twoReplacements 0
    twoFiles

theorem racedRun_lost : racedRun.2.get sourceB ≠ some (.File (ascii "new")) := by decide

/-- The edit of the second file can not be put back, and its staging path is named. -/
theorem the_raced_edit_is_named : ∃ failure path, racedRun.1 = .error failure ∧
    failure.names path ∧ twoFiles.get path = none ∧
    racedRun.2.get path = some (.File (ascii "new")) := by
  have hraced : Raced (Destination twoReplacements) (racedOperations sourceB (ascii "new")) :=
    raced_racedOperations _ ⟨⟨sourceB, ascii "b", ascii "B"⟩, by decide, rfl⟩
  have hkept := @no_external_edit_is_lost noFaults 1 _ ⟨sourceB, ascii "b", ascii "B"⟩ twoFiles
    racedRun.2 twoReplacements 0 racedRun.1 hraced (by decide) rfl rfl (by decide)
    (.File (ascii "new")) (by decide) (by unfold Own; decide)
  exact hkept.resolve_left racedRun_lost

/-- The same writer, but the install of that file swaps and then fails its sync. -/
def unsyncedOperations (path : Path) (text : Text) : FileOperations :=
  { racedOperations path text with
    exchange := fun operation _ source destination world =>
      (if operation = .InstallStaged ∧ destination = path then .error (.Os 5) else .ok (),
        world.swap source destination) }

def unsyncedRace : Except Failure Unit × World :=
  replaceAllWithOperations noFaults 1 (unsyncedOperations sourceB (ascii "new")) twoReplacements 0
    twoFiles

-- the staging file that is removed in the end holds the edit, so such an install
-- has to be left out
example : unsyncedRace.1 = .error (.internal [.Words "could not atomically install staged output ",
      .Path sourceB, .Words ": ", .Cause (.Os 5)]) ∧
    unsyncedRace.2.last sourceB = some (.File (ascii "new")) ∧
    unsyncedRace.2.get sourceB = some (.File (ascii "B")) := by decide

end analyzer.workflow.write
