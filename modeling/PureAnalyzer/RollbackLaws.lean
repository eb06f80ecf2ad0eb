-- The laws of the replacement when nobody else writes: every file is replaced or
-- none is. The exception is an install that swaps, fails behind its swap and is not
-- taken back.
import PureAnalyzer.WriteLaws

namespace analyzer.workflow.write

open fragments model sharedstore Store

variable {faults : Faults} {pid : Nat} {exchanges : ExchangeFaults} {edited : Path → Prop}
  {slot : Slot} {here there : Text} {world world' : World}

/-! ## One exchange -/

namespace Slot

/-- The text at the destination and the text at the staging path. -/
def Holds (slot : Slot) (here there : Text) (world : World) : Prop :=
  world.get slot.replacement.path = some (.File here) ∧
    world.get slot.temporary = some (.File there)

def swapped (slot : Slot) (world : World) : World :=
  world.swap slot.temporary slot.replacement.path

end Slot

theorem Slot.Holds.swapped (h : slot.Holds here there world) :
    slot.Holds there here (slot.swapped world) :=
  ⟨(get_swap_right _ _ _).trans h.2, (get_swap_left _ _ _).trans h.1⟩

theorem moves_swapped (slot : Slot) (world : World) :
    Moves Nobody slot.At world (slot.swapped world) := moves_swap world (.inr rfl) (.inl rfl)

theorem Slot.Holds.beyond {slots : List Slot} (hm : Moves Nobody (Any slots) world world')
    (hapart : Apart edited (slots ++ [slot])) (h : slot.Holds here there world) :
    slot.Holds here there world' := by
  have hmem : slot ∈ [slot] := List.mem_cons_self
  exact ⟨(hm.kept _ id (not_any_of_apart hapart hmem (.inl rfl))).trans h.1,
    (hm.kept _ id (not_any_of_apart hapart hmem (.inr rfl))).trans h.2⟩

/-- An exchange that is refused changes nothing. An exchange that fails its sync
has swapped the two files. -/
theorem atomicExchange_cases (h : slot.Holds here there world) (swap sync : Option IoError) :
    (∃ error, swap = some error ∧ atomicExchange swap sync slot.temporary slot.replacement.path
        world = (.error error, world)) ∨
      swap = none ∧ ((∃ error, sync = some error ∧ atomicExchange swap sync slot.temporary
          slot.replacement.path world = (.error error, slot.swapped world)) ∨
        sync = none ∧ atomicExchange swap sync slot.temporary slot.replacement.path world =
          (.ok (), slot.swapped world)) := by
  unfold atomicExchange
  cases swap with
  | some error => exact .inl ⟨error, rfl, rfl⟩
  | none =>
    refine .inr ⟨rfl, ?_⟩
    have hthere : ¬ ((world.get slot.temporary).isNone ∨
        (world.get slot.replacement.path).isNone) := by
      rw [h.1, h.2]
      simp
    dsimp only
    rw [if_neg hthere]
    cases sync with
    | some error => exact .inl ⟨error, rfl, rfl⟩
    | none => exact .inr ⟨rfl, rfl⟩

/-! ## What fails -/

/-- An install goes through, and so does every look at its two files. -/
def Installs (faults : Faults) (exchanges : ExchangeFaults) (index : Nat) : Prop :=
  Reads faults .LateValidation index ∧ exchanges.swap .InstallStaged index = none ∧
    exchanges.sync .InstallStaged index = none ∧ Reads faults .Displaced index ∧
    Reads faults .Installed index

/-- An install swaps, fails behind its swap and is not taken back: the sync of the
directory fails, or a look at the two files does and the second swap is refused. -/
def Stays (faults : Faults) (exchanges : ExchangeFaults) (index : Nat) : Prop :=
  Reads faults .LateValidation index ∧ exchanges.swap .InstallStaged index = none ∧
    (exchanges.sync .InstallStaged index ≠ none ∨
      ¬ (Reads faults .Displaced index ∧ Reads faults .Installed index) ∧
        exchanges.swap .RestoreStale index ≠ none)

/-- A rollback is not refused, and every look at its two files goes through. -/
def RollsBack (faults : Faults) (exchanges : ExchangeFaults) (index : Nat) : Prop :=
  exchanges.swap .RestoreRolledBack index = none ∧ Reads faults .BeforeRollback index ∧
    Reads faults .RollbackDisplaced index ∧ Reads faults .RolledBack index

/-- No staging path is left behind: every removal goes through, and nothing fails
behind the swap of a rollback or while an install is taken back. -/
structure Clean (faults : Faults) (exchanges : ExchangeFaults) : Prop where
  removals : Removals faults
  rollbacks : ∀ index, exchanges.sync .RestoreRolledBack index = none
  restores : ∀ index, exchanges.swap .RestoreStale index = none ∧
    exchanges.sync .RestoreStale index = none
  reads : ∀ index, Reads faults .TakenBack index ∧ Reads faults .PutBack index

instance (index : Nat) : Decidable (Installs faults exchanges index) :=
  inferInstanceAs (Decidable (_ ∧ _))

instance (index : Nat) : Decidable (Stays faults exchanges index) :=
  inferInstanceAs (Decidable (_ ∧ _))

/-! ## One file -/

/-- What the destination of a failed install shows. -/
def leftAt (faults : Faults) (exchanges : ExchangeFaults) (slot : Slot) : Text :=
  if Stays faults exchanges slot.index then slot.replacement.after else slot.replacement.before

theorem leftAt_of_stays (h : Stays faults exchanges slot.index) :
    leftAt faults exchanges slot = slot.replacement.after := if_pos h

theorem leftAt_of_not_stays (h : ¬ Stays faults exchanges slot.index) :
    leftAt faults exchanges slot = slot.replacement.before := if_neg h

/-- What a switch comes to when nobody else writes. -/
inductive Switched (faults : Faults) (exchanges : ExchangeFaults) (slot : Slot) (world : World) :
    Except Failure CommittedReplacement × StagedReplacement × World → Prop
  | failed {failure : Failure} {staged : StagedReplacement} {there : Text} {after : World} :
      ¬ Installs faults exchanges slot.index → Told failure → Moves Nobody slot.At world after →
      slot.Holds (leftAt faults exchanges slot) there after →
      (staged = slot.pending ∨ staged = slot.gone ∧ ¬ Clean faults exchanges) →
      Switched faults exchanges slot world (.error failure, staged, after)
  | installed : Installs faults exchanges slot.index →
      Switched faults exchanges slot world (.ok slot.committed, slot.gone, slot.swapped world)

/-- An install that is taken back shows the old text again, unless the swap is refused. -/
theorem restoreInvalidInstall_back {failure failure' : Failure} {expected : Option Text}
    {staged' : StagedReplacement}
    (hexpected : ∀ text, expected = some text → text = slot.replacement.before)
    (h : slot.Holds slot.replacement.after slot.replacement.before world) (htold : Told failure)
    (hrun : slot.pending.restoreInvalidInstall faults (nativeFileOperations exchanges) failure
      slot.index slot.temporary expected world = (failure', staged', world')) :
    Told failure' ∧ Moves Nobody slot.At world world' ∧
      (exchanges.swap .RestoreStale slot.index = none →
        slot.Holds slot.replacement.before slot.replacement.after world') ∧
      (exchanges.swap .RestoreStale slot.index ≠ none →
        slot.Holds slot.replacement.after slot.replacement.before world') ∧
      (staged' = slot.pending ∨ staged' = slot.gone ∧ ¬ Clean faults exchanges) := by
  have hraced : ∀ error : Failure,
      Told (racedAgain failure slot.replacement.path error slot.temporary) := fun error =>
    ((htold.append 0 _).append 0 _).append _ _
  have hmoves := moves_swapped slot world
  unfold StagedReplacement.restoreInvalidInstall at hrun
  dsimp only [Slot.pending, nativeFileOperations] at hrun
  rcases atomicExchange_cases h (exchanges.swap .RestoreStale slot.index)
      (exchanges.sync .RestoreStale slot.index) with
    ⟨error, hswap, heq⟩ | ⟨hswap, ⟨error, hsync, heq⟩ | ⟨hsync, heq⟩⟩
  · rw [heq] at hrun
    obtain ⟨rfl, rfl, rfl⟩ := hrun
    have hne : exchanges.swap .RestoreStale slot.index ≠ none := by simp [hswap]
    exact ⟨htold.append _ _, .refl _, fun hnone => absurd hnone hne, fun _ => h,
      .inr ⟨rfl, fun hclean => hne (hclean.restores slot.index).1⟩⟩
  · rw [heq] at hrun
    obtain ⟨rfl, rfl, rfl⟩ := hrun
    have hne : exchanges.sync .RestoreStale slot.index ≠ none := by simp [hsync]
    exact ⟨htold.append _ _, hmoves, fun _ => h.swapped, fun hrefused => absurd hswap hrefused,
      .inr ⟨rfl, fun hclean => hne (hclean.restores slot.index).2⟩⟩
  · rw [heq] at hrun
    dsimp only at hrun
    cases hstaged : verifySnapshot faults .TakenBack slot.index (slot.swapped world) slot.temporary
        slot.replacement.after with
    | error error =>
      rw [hstaged] at hrun
      obtain ⟨rfl, rfl, rfl⟩ := hrun
      refine ⟨hraced error, hmoves, fun _ => h.swapped, fun hrefused => absurd hswap hrefused,
        .inr ⟨rfl, fun hclean => ?_⟩⟩
      rw [verifySnapshot_iff.mpr ⟨(hclean.reads slot.index).1, h.swapped.2⟩] at hstaged
      cases hstaged
    | ok _ =>
      rw [hstaged] at hrun
      cases expected with
      | none =>
        obtain ⟨rfl, rfl, rfl⟩ := hrun
        exact ⟨htold, hmoves, fun _ => h.swapped, fun hrefused => absurd hswap hrefused, .inl rfl⟩
      | some expected =>
        obtain rfl := hexpected expected rfl
        dsimp only at hrun
        cases hback : verifySnapshot faults .PutBack slot.index (slot.swapped world)
            slot.replacement.path slot.replacement.before with
        | error error =>
          rw [hback] at hrun
          obtain ⟨rfl, rfl, rfl⟩ := hrun
          refine ⟨hraced error, hmoves, fun _ => h.swapped, fun hrefused => absurd hswap hrefused,
            .inr ⟨rfl, fun hclean => ?_⟩⟩
          rw [verifySnapshot_iff.mpr ⟨(hclean.reads slot.index).2, h.swapped.1⟩] at hback
          cases hback
        | ok _ =>
          rw [hback] at hrun
          obtain ⟨rfl, rfl, rfl⟩ := hrun
          exact ⟨htold, hmoves, fun _ => h.swapped, fun hrefused => absurd hswap hrefused,
            .inl rfl⟩

/-- A switch whose look behind the swap fails is taken back. -/
theorem switched_of_restore {failure failure' : Failure} {expected : Option Text}
    {staged' : StagedReplacement}
    (hlate : Reads faults .LateValidation slot.index)
    (hswap : exchanges.swap .InstallStaged slot.index = none)
    (hsync : exchanges.sync .InstallStaged slot.index = none)
    (hunread : ¬ (Reads faults .Displaced slot.index ∧ Reads faults .Installed slot.index))
    (hexpected : ∀ text, expected = some text → text = slot.replacement.before)
    (h : slot.Holds slot.replacement.before slot.replacement.after world) (htold : Told failure)
    (hrun : slot.pending.restoreInvalidInstall faults (nativeFileOperations exchanges) failure
      slot.index slot.temporary expected (slot.swapped world) = (failure', staged', world')) :
    Switched faults exchanges slot world (.error failure', staged', world') := by
  obtain ⟨htold', hmoves, hback, hleft, hstaged⟩ :=
    restoreInvalidInstall_back hexpected h.swapped htold hrun
  have hfails : ¬ Installs faults exchanges slot.index := fun hinstalls => hunread hinstalls.2.2.2
  have hboth := (moves_swapped slot world).trans hmoves
  by_cases hrefused : exchanges.swap .RestoreStale slot.index = none
  · have hnot : ¬ Stays faults exchanges slot.index := by
      rintro ⟨-, -, hunsynced | ⟨-, hne⟩⟩
      · exact hunsynced hsync
      · exact hne hrefused
    have hholds := hback hrefused
    rw [← leftAt_of_not_stays hnot] at hholds
    exact .failed hfails htold' hboth hholds hstaged
  · have hholds := hleft hrefused
    rw [← leftAt_of_stays ⟨hlate, hswap, .inr ⟨hunread, hrefused⟩⟩] at hholds
    exact .failed hfails htold' hboth hholds hstaged

theorem switch_switched (h : slot.Holds slot.replacement.before slot.replacement.after world) :
    Switched faults exchanges slot world
      (slot.pending.switch faults (nativeFileOperations exchanges) slot.index world) := by
  have hswapped := h.swapped
  have hunchanged : ¬ Stays faults exchanges slot.index →
      slot.Holds (leftAt faults exchanges slot) slot.replacement.after world := fun hnot => by
    rw [leftAt_of_not_stays hnot]
    exact h
  unfold StagedReplacement.switch
  dsimp only [Slot.pending, nativeFileOperations, StagedReplacement.temporaryPath]
  cases hverify : verifySnapshot faults .LateValidation slot.index world slot.replacement.path
      slot.replacement.before with
  | error failure =>
    have hunread : ¬ Reads faults .LateValidation slot.index := fun hreads => by
      rw [verifySnapshot_iff.mpr ⟨hreads, h.1⟩] at hverify
      cases hverify
    exact .failed (fun hinstalls => hunread hinstalls.1) (verifySnapshot_told hverify) (.refl _)
      (hunchanged fun hstays => hunread hstays.1) (.inl rfl)
  | ok _ =>
    have hlate := (verifySnapshot_iff.mp hverify).1
    dsimp only
    rcases atomicExchange_cases h (exchanges.swap .InstallStaged slot.index)
        (exchanges.sync .InstallStaged slot.index) with
      ⟨error, hswap, heq⟩ | ⟨hswap, ⟨error, hsync, heq⟩ | ⟨hsync, heq⟩⟩
    · rw [heq]
      have hne : exchanges.swap .InstallStaged slot.index ≠ none := by simp [hswap]
      exact .failed (fun hinstalls => hne hinstalls.2.1) (told_words _ _ (by decide)) (.refl _)
        (hunchanged fun hstays => hne hstays.2.1) (.inl rfl)
    · rw [heq]
      have hne : exchanges.sync .InstallStaged slot.index ≠ none := by simp [hsync]
      rw [← leftAt_of_stays ⟨hlate, hswap, .inl hne⟩] at hswapped
      exact .failed (fun hinstalls => hne hinstalls.2.2.1) (told_words _ _ (by decide))
        (moves_swapped slot world) hswapped (.inl rfl)
    · rw [heq]
      dsimp only
      cases hdisplaced : verifyDisplacedSnapshot faults slot.index (slot.swapped world)
          slot.temporary slot.replacement.before slot.replacement.path with
      | error failure =>
        have hunread : ¬ (Reads faults .Displaced slot.index ∧
            Reads faults .Installed slot.index) := fun hreads => by
          rw [verifyDisplacedSnapshot_iff.mpr ⟨hreads.1, hswapped.2⟩] at hdisplaced
          cases hdisplaced
        have hexpected : ∀ text, (none : Option Text) = some text →
            text = slot.replacement.before := fun text hnone => by cases hnone
        exact switched_of_restore hlate hswap hsync hunread hexpected h
          (verifyDisplacedSnapshot_told hdisplaced) rfl
      | ok _ =>
        cases hinstalled : verifyInstalledSnapshot faults .Installed slot.index
            (slot.swapped world) slot.replacement.path slot.replacement.after with
        | error failure =>
          have hunread : ¬ (Reads faults .Displaced slot.index ∧
              Reads faults .Installed slot.index) := fun hreads => by
            rw [verifyInstalledSnapshot_iff.mpr ⟨hreads.2, hswapped.1⟩] at hinstalled
            cases hinstalled
          exact switched_of_restore hlate hswap hsync hunread
            (fun text hsome => (Option.some.inj hsome).symm) h
            (verifyInstalledSnapshot_told hinstalled) rfl
        | ok _ =>
          exact .installed ⟨hlate, hswap, hsync, (verifyDisplacedSnapshot_iff.mp hdisplaced).1,
            (verifyInstalledSnapshot_iff.mp hinstalled).1⟩

/-- A rollback that is not refused puts the old text back. -/
theorem rollbackOne_restores {result : Except Failure Unit}
    (hne : slot.temporary ≠ slot.replacement.path)
    (h : slot.Holds slot.replacement.after slot.replacement.before world)
    (hback : RollsBack faults exchanges slot.index)
    (hrun : rollbackOne faults (nativeFileOperations exchanges) slot.committed world =
      (result, world')) :
    Moves Nobody slot.At world world' ∧
      world'.get slot.replacement.path = some (.File slot.replacement.before) ∧
      (Clean faults exchanges → world'.get slot.temporary = none) := by
  obtain ⟨hswap, hbefore, hdisplaced, hrestored⟩ := hback
  have hswapped := h.swapped
  unfold rollbackOne at hrun
  dsimp only [Slot.committed, committedAs, nativeFileOperations] at hrun
  rw [verifyInstalledSnapshot_iff.mpr ⟨hbefore, h.1⟩] at hrun
  dsimp only at hrun
  rcases atomicExchange_cases h (exchanges.swap .RestoreRolledBack slot.index)
      (exchanges.sync .RestoreRolledBack slot.index) with
    ⟨error, hrefused, -⟩ | ⟨-, ⟨error, hsync, heq⟩ | ⟨-, heq⟩⟩
  · rw [hswap] at hrefused
    cases hrefused
  · rw [heq] at hrun
    obtain ⟨rfl, rfl⟩ := hrun
    refine ⟨moves_swapped slot world, hswapped.1, fun hclean => ?_⟩
    rw [hclean.rollbacks] at hsync
    cases hsync
  · rw [heq] at hrun
    dsimp only at hrun
    rw [verifyRollbackDisplacedSnapshot_iff.mpr ⟨hdisplaced, hswapped.2⟩,
      verifyRolledBackSnapshot_iff.mpr ⟨hrestored, hswapped.1⟩] at hrun
    dsimp only at hrun
    have hlast : world' = (removeOwnedFile faults slot.temporary (slot.swapped world)).2 := by
      split at hrun
      · next hremove =>
        rw [hremove]
        exact (Prod.mk.inj hrun).2.symm
      · next hremove =>
        rw [hremove]
        exact (Prod.mk.inj hrun).2.symm
    have hmoves := @removeOwnedFile_moves faults Nobody (· = slot.temporary) slot.temporary rfl
      (slot.swapped world)
    rw [hlast]
    refine ⟨(moves_swapped slot world).trans (hmoves.mono fun path hpath => .inr hpath), ?_, ?_⟩
    · rw [hmoves.kept _ id hne.symm]
      exact hswapped.1
    · exact fun hclean => (removeOwnedFile_removed hclean.removals _ _).2

/-! ## The rollback -/

/-- The old text is back, and the staging path is free when nothing failed. -/
def Restored (faults : Faults) (exchanges : ExchangeFaults) (slot : Slot) (world : World) : Prop :=
  world.get slot.replacement.path = some (.File slot.replacement.before) ∧
    (Clean faults exchanges → world.get slot.temporary = none)

theorem Restored.beyond {slots : List Slot} (hm : Moves Nobody (Any slots) world world')
    (hapart : Apart edited (slots ++ [slot])) (h : Restored faults exchanges slot world) :
    Restored faults exchanges slot world' := by
  have hmem : slot ∈ [slot] := List.mem_cons_self
  exact ⟨(hm.kept _ id (not_any_of_apart hapart hmem (.inl rfl))).trans h.1,
    fun hclean => (hm.kept _ id (not_any_of_apart hapart hmem (.inr rfl))).trans (h.2 hclean)⟩

theorem rollbackEach_restores {slots : List Slot} (hapart : Apart edited slots)
    (hholds : ∀ slot ∈ slots, slot.Holds slot.replacement.after slot.replacement.before world)
    (hback : ∀ index, RollsBack faults exchanges index) :
    Moves Nobody (Any slots) world (rollbackEach faults (nativeFileOperations exchanges)
        (slots.map Slot.committed) world).2 ∧
      ∀ slot ∈ slots, Restored faults exchanges slot (rollbackEach faults
        (nativeFileOperations exchanges) (slots.map Slot.committed) world).2 := by
  induction slots generalizing world with
  | nil => exact ⟨.refl _, fun slot hslot => by cases hslot⟩
  | cons slot slots ih =>
    rw [List.map_cons, rollbackEach]
    cases hone : rollbackOne faults (nativeFileOperations exchanges) slot.committed world with
    | mk result after =>
      obtain ⟨hmoves, hrestored⟩ := rollbackOne_restores
        (hapart.beside slot List.mem_cons_self).apart (hholds slot List.mem_cons_self)
        (hback slot.index) hone
      have hfront : Apart edited ([slot] ++ slots) := hapart
      have hhead : Moves Nobody (Any [slot]) world after :=
        hmoves.mono fun path hpath => ⟨slot, List.mem_cons_self, hpath⟩
      obtain ⟨hlater, hall⟩ := ih hapart.tail fun other hother =>
        (hholds other (List.mem_cons_of_mem _ hother)).beyond hhead (hfront.pick hother)
      have hfirst : Apart edited (slots ++ [slot]) :=
        hapart.perm (List.perm_append_singleton slot slots).symm
      have hany : Moves Nobody (Any (slot :: slots)) world (rollbackEach faults
          (nativeFileOperations exchanges) (slots.map Slot.committed) after).2 := by
        refine (hmoves.mono ?_).trans (hlater.mono ?_)
        · exact fun path hpath => ⟨slot, List.mem_cons_self, hpath⟩
        · rintro path ⟨other, hother, hpath⟩
          exact ⟨other, List.mem_cons_of_mem _ hother, hpath⟩
      have heach : ∀ other ∈ slot :: slots, Restored faults exchanges other (rollbackEach faults
          (nativeFileOperations exchanges) (slots.map Slot.committed) after).2 := by
        intro other hother
        rcases List.mem_cons.mp hother with rfl | hother
        · exact Restored.beyond hlater hfirst hrestored
        · exact hall other hother
      dsimp only
      split
      · exact ⟨hany, heach⟩
      · exact ⟨hany, heach⟩

theorem rollback_restores {slots : List Slot} (hapart : Apart edited slots)
    (hholds : ∀ slot ∈ slots, slot.Holds slot.replacement.after slot.replacement.before world)
    (hback : ∀ index, RollsBack faults exchanges index) :
    Moves Nobody (Any slots) world
        (rollback faults (nativeFileOperations exchanges) (slots.map Slot.committed) world).2 ∧
      ∀ slot ∈ slots, Restored faults exchanges slot
        (rollback faults (nativeFileOperations exchanges) (slots.map Slot.committed) world).2 := by
  obtain ⟨hmoves, hall⟩ := @rollbackEach_restores faults exchanges edited world slots.reverse
    (hapart.perm (List.reverse_perm slots).symm)
    (fun slot hslot => hholds slot (List.mem_reverse.mp hslot)) hback
  have hworld : (rollback faults (nativeFileOperations exchanges) (slots.map Slot.committed)
      world).2 = (rollbackEach faults (nativeFileOperations exchanges)
        (slots.reverse.map Slot.committed) world).2 := by
    unfold rollback
    rw [List.map_reverse]
    split
    · next heq => rw [heq]
    · next heq => rw [heq]
  rw [hworld]
  refine ⟨hmoves.mono ?_, fun slot hslot => hall slot (List.mem_reverse.mpr hslot)⟩
  rintro path ⟨slot, hslot, hpath⟩
  exact ⟨slot, List.mem_reverse.mp hslot, hpath⟩

/-! ## A commit that fails -/

/-- One install failed. The destination of that file shows a text, and every other
one its old text. -/
structure Failed (faults : Faults) (exchanges : ExchangeFaults) (slots : List Slot) (slot : Slot)
    (here : Text) (failure : Failure) (world : World) : Prop where
  told : Told failure
  shown : world.get slot.replacement.path = some (.File here)
  others : ∀ one ∈ slots, one ≠ slot →
    world.get one.replacement.path = some (.File one.replacement.before)
  clean : Clean faults exchanges → ∀ one ∈ slots, world.get one.temporary = none

theorem failCommit_failed {done later : List Slot} {staged : StagedReplacement}
    {failure failure' : Failure} (hapart : Apart edited (done ++ slot :: later))
    (hback : ∀ index, RollsBack faults exchanges index) (htold : Told failure)
    (hdone : ∀ one ∈ done, one.Holds one.replacement.after one.replacement.before world)
    (hslot : slot.Holds here there world)
    (hlater : ∀ one ∈ later, one.Holds one.replacement.before one.replacement.after world)
    (hstaged : staged = slot.pending ∨ staged = slot.gone ∧ ¬ Clean faults exchanges)
    (hrun : failCommit faults (nativeFileOperations exchanges) failure (done.map Slot.committed)
      (done.map Slot.gone ++ staged :: later.map Slot.pending) world = (failure', world')) :
    Moves Nobody (Any (done ++ slot :: later)) world world' ∧
      Failed faults exchanges (done ++ slot :: later) slot here failure' world' := by
  obtain ⟨hmoves, hrolled⟩ := @rollback_restores faults exchanges edited world done hapart.left
    hdone hback
  unfold failCommit at hrun
  cases hrollback : rollback faults (nativeFileOperations exchanges) (done.map Slot.committed)
      world with
  | mk result after =>
    rw [hrollback] at hrun hmoves hrolled
    obtain ⟨told, htold, hclean⟩ : ∃ told : Failure, Told told ∧
        cleanStagedReplacements faults told
          (done.map Slot.gone ++ staged :: later.map Slot.pending) after =
        (failure', world') := by
      cases result with
      | ok _ => exact ⟨failure, htold, hrun⟩
      | error rollback_failure => exact ⟨_, htold.append _ _, hrun⟩
    have howned : ∀ path, Owned (done.map Slot.gone ++ staged :: later.map Slot.pending)
        path → Temporary (slot :: later) path := by
      rintro path ⟨one, hone, hpath⟩
      rcases List.mem_append.mp hone with hone | hone
      · obtain ⟨other, -, rfl⟩ := List.mem_map.mp hone
        cases hpath
      · rcases List.mem_cons.mp hone with rfl | hone
        · rcases hstaged with rfl | ⟨rfl, -⟩
          · exact ⟨slot, List.mem_cons_self, (Option.some.inj hpath).symm⟩
          · cases hpath
        · obtain ⟨other, hother, rfl⟩ := List.mem_map.mp hone
          exact ⟨other, List.mem_cons_of_mem _ hother, (Option.some.inj hpath).symm⟩
    -- where nothing else fails the staging file of the failed install is owned too
    have hall : Clean faults exchanges → ∀ one ∈ slot :: later,
        Owned (done.map Slot.gone ++ staged :: later.map Slot.pending) one.temporary := by
      intro hno one hone
      obtain rfl : staged = slot.pending := hstaged.resolve_right fun h => h.2 hno
      refine ⟨one.pending, List.mem_append_right _ ?_, rfl⟩
      rw [← List.map_cons]
      exact List.mem_map_of_mem hone
    have hremove : Moves Nobody (Temporary (slot :: later)) after world' := by
      have := @cleanStagedReplacements_moves faults Nobody told
        (done.map Slot.gone ++ staged :: later.map Slot.pending) after
      rw [hclean] at this
      exact this.mono howned
    have hremove' := hremove.mono fun path hpath => Temporary.any hpath
    have hswapped : Apart edited ((slot :: later) ++ done) := hapart.perm List.perm_append_comm
    have hmem : slot ∈ slot :: later := List.mem_cons_self
    -- a destination is no staging path, so the removals keep it
    have hkept : ∀ one ∈ slot :: later, world'.get one.replacement.path =
        world.get one.replacement.path := by
      intro one hone
      have hpick := hapart.pick hone
      rw [hremove.kept _ id ?_, hmoves.kept _ id
        (not_any_of_apart hpick List.mem_cons_self (.inl rfl))]
      rintro ⟨other, hother, heq⟩
      apply (hapart.beside other (List.mem_append_right _ hother)).free
      rw [← heq]
      exact (hapart.beside one (List.mem_append_right _ hone)).shared
    have hrestored : ∀ one ∈ done, Restored faults exchanges one world' := fun one hone =>
      (hrolled one hone).beyond hremove' (hswapped.pick hone)
    refine ⟨(hmoves.mono ?_).trans (hremove'.mono ?_), ?_, ?_, ?_, ?_⟩
    · rintro path ⟨one, hone, hpath⟩
      exact ⟨one, List.mem_append_left _ hone, hpath⟩
    · rintro path ⟨one, hone, hpath⟩
      exact ⟨one, List.mem_append_right _ hone, hpath⟩
    · have := @cleanStagedReplacements_told faults _ htold
        (done.map Slot.gone ++ staged :: later.map Slot.pending) after
      rwa [hclean] at this
    · exact (hkept slot hmem).trans hslot.1
    · intro one hone hne
      rcases List.mem_append.mp hone with hone | hone
      · exact (hrestored one hone).1
      · rw [hkept one hone]
        exact (hlater one ((List.mem_cons.mp hone).resolve_left hne)).1
    · intro hno one hone
      rcases List.mem_append.mp hone with hone | hone
      · exact (hrestored one hone).2 hno
      · have := @cleanStagedReplacements_removed faults hno.removals told _ after one.temporary
          (hall hno one hone)
        rwa [hclean] at this

/-! ## The loop of the switches -/

/-- Every file is replaced, though a staging path may be left. -/
def Replaced (result : Except Failure Unit) : Prop :=
  result = .ok () ∨ ∃ failure, result = .error failure ∧
    failure.message.head? = some (.Words INSTALLED)

theorem Told.not_replaced {failure : Failure} (h : Told failure) : ¬ Replaced (.error failure) := by
  obtain ⟨piece, hhead, hne⟩ := h
  rintro (heq | ⟨failure', heq, hinstalled⟩)
  · cases heq
  · rw [← Except.error.inj heq, hhead] at hinstalled
    exact hne (Option.some.inj hinstalled)

theorem removeEach_removed (hremovals : Removals faults) (slots : List Slot) (world : World)
    {path : Path} (hpath : Temporary slots path) :
    (removeEach faults (slots.map Slot.committed) world).2.get path = none := by
  induction slots generalizing world with
  | nil =>
    obtain ⟨slot, hslot, -⟩ := hpath
    cases hslot
  | cons slot slots ih =>
    rw [List.map_cons, removeEach]
    have hrest : (removeEach faults (slots.map Slot.committed)
        (removeOwnedFile faults slot.temporary world).2).2.get path = none := by
      by_cases hlater : Temporary slots path
      · exact ih _ hlater
      · obtain ⟨other, hother, rfl⟩ := hpath
        obtain rfl : other = slot := (List.mem_cons.mp hother).resolve_right
          fun hmem => hlater ⟨other, hmem, rfl⟩
        have hmoves := @removeEach_moves faults Nobody slots
          (removeOwnedFile faults other.temporary world).2
        rw [hmoves.kept _ id hlater]
        exact (removeOwnedFile_removed hremovals _ _).2
    dsimp only
    split
    · exact hrest
    · exact hrest

theorem cleanTransactionArtifacts_replaced {slots : List Slot} {result : Except Failure Unit}
    (hrun : cleanTransactionArtifacts faults (slots.map Slot.committed) world =
      (result, world')) :
    Replaced result ∧ world' = (removeEach faults (slots.map Slot.committed) world).2 := by
  unfold cleanTransactionArtifacts at hrun
  split at hrun
  · next heq =>
    obtain ⟨rfl, rfl⟩ := hrun
    exact ⟨.inl rfl, by rw [heq]⟩
  · next heq =>
    obtain ⟨rfl, rfl⟩ := hrun
    exact ⟨.inr ⟨_, rfl, rfl⟩, by rw [heq]⟩

/-- What a commit comes to when nobody else writes. -/
inductive Committed (faults : Faults) (exchanges : ExchangeFaults) (done later : List Slot)
    (world : World) (result : Except Failure Unit) : Prop
  | replaced : (∀ slot ∈ later, Installs faults exchanges slot.index) → Replaced result →
      (∀ slot ∈ done ++ later,
        world.get slot.replacement.path = some (.File slot.replacement.after)) →
      (Removals faults → ∀ slot ∈ done ++ later, world.get slot.temporary = none) →
      Committed faults exchanges done later world result
  | failed {front back : List Slot} {slot : Slot} {failure : Failure} :
      later = front ++ slot :: back → (∀ one ∈ front, Installs faults exchanges one.index) →
      ¬ Installs faults exchanges slot.index → result = .error failure →
      Failed faults exchanges (done ++ later) slot (leftAt faults exchanges slot) failure world →
      Committed faults exchanges done later world result

theorem commitFrom_committed {done later : List Slot} {result : Except Failure Unit}
    (hapart : Apart edited (done ++ later))
    (hback : ∀ index, RollsBack faults exchanges index)
    (hindex : ∀ index slot, later[index]? = some slot → slot.index = done.length + index)
    (hdone : ∀ one ∈ done, one.Holds one.replacement.after one.replacement.before world)
    (hlater : ∀ one ∈ later, one.Holds one.replacement.before one.replacement.after world)
    (hrun : commitFrom faults (nativeFileOperations exchanges) (done.map Slot.committed)
      (done.map Slot.gone) (later.map Slot.pending) world = (result, world')) :
    Moves Nobody (Any (done ++ later)) world world' ∧
      Committed faults exchanges done later world' result := by
  induction later generalizing done world with
  | nil =>
    rw [List.map_nil, commitFrom] at hrun
    obtain ⟨hreplaced, rfl⟩ := cleanTransactionArtifacts_replaced hrun
    have hmoves := @removeEach_moves faults Nobody done world
    rw [List.append_nil] at hapart
    refine ⟨hmoves.mono ?_, .replaced (fun _ h => absurd h List.not_mem_nil) hreplaced ?_ ?_⟩
    · rw [List.append_nil]
      exact fun path hpath => Temporary.any hpath
    · intro slot hslot
      rw [List.append_nil] at hslot
      rw [hmoves.kept _ id ?_]
      · exact (hdone slot hslot).1
      · rintro ⟨other, hother, heq⟩
        apply (hapart.beside other hother).free
        rw [← heq]
        exact (hapart.beside slot hslot).shared
    · intro hremovals slot hslot
      rw [List.append_nil] at hslot
      exact removeEach_removed hremovals done world ⟨slot, hslot, rfl⟩
  | cons slot later ih =>
    rw [List.map_cons, commitFrom] at hrun
    have hposition : (done.map Slot.gone).length = slot.index := by
      rw [List.length_map]
      exact (hindex 0 slot rfl).symm
    rw [hposition] at hrun
    have hmem : slot ∈ slot :: later := List.mem_cons_self
    have hholds := hlater slot hmem
    have hfront : Apart edited ([slot] ++ (done ++ later)) := hapart.perm List.perm_middle
    -- a switch touches the two files of its slot, and no other slot
    have hown : ∀ {after}, Moves Nobody slot.At world after →
        Moves Nobody (Any [slot]) world after := fun hm =>
      hm.mono fun path hpath => ⟨slot, List.mem_cons_self, hpath⟩
    have hdone' : ∀ {after}, Moves Nobody slot.At world after → ∀ one ∈ done,
        one.Holds one.replacement.after one.replacement.before after := fun hm one hmem =>
      (hdone one hmem).beyond (hown hm) (hfront.pick (List.mem_append_left _ hmem))
    have hlater' : ∀ {after}, Moves Nobody slot.At world after → ∀ one ∈ later,
        one.Holds one.replacement.before one.replacement.after after := fun hm one hmem =>
      (hlater one (List.mem_cons_of_mem _ hmem)).beyond (hown hm)
        (hfront.pick (List.mem_append_right _ hmem))
    have hall : ∀ {after}, Moves Nobody slot.At world after →
        Moves Nobody (Any (done ++ slot :: later)) world after := fun hm =>
      hm.mono fun path hpath => ⟨slot, List.mem_append_right _ hmem, hpath⟩
    cases hswitch : slot.pending.switch faults (nativeFileOperations exchanges) slot.index
        world with
    | mk outcome rest =>
      obtain ⟨staged, after⟩ := rest
      have hcases := @switch_switched faults exchanges slot world hholds
      rw [hswitch] at hrun hcases
      cases hcases with
      | failed hfails htold hone hshown hstaged =>
        dsimp only at hrun
        cases hfail : failCommit faults (nativeFileOperations exchanges) _
            (done.map Slot.committed) (done.map Slot.gone ++ staged :: later.map Slot.pending)
            after with
        | mk failure' last =>
          rw [hfail] at hrun
          obtain ⟨rfl, rfl⟩ := hrun
          obtain ⟨hmoves, hfailed⟩ := failCommit_failed hapart hback htold (hdone' hone) hshown
            (hlater' hone) hstaged hfail
          exact ⟨(hall hone).trans hmoves, @Committed.failed _ _ _ _ _ _ [] later slot _ rfl
            (fun _ h => absurd h List.not_mem_nil) hfails rfl hfailed⟩
      | installed hinstalls =>
        have hone := moves_swapped slot world
        have hstart := hall hone
        have happend : done ++ slot :: later = (done ++ [slot]) ++ later := by simp
        rw [happend] at hapart hstart ⊢
        obtain ⟨hmoves, hcommitted⟩ := ih hapart (fun index one hone => by
          rw [hindex (index + 1) one hone, List.length_append, List.length_singleton]
          omega) (fun one hmem => by
            rcases List.mem_append.mp hmem with hmem | hmem
            · exact hdone' hone one hmem
            · rw [List.mem_singleton.mp hmem]
              exact hholds.swapped) (hlater' hone) (by
            rw [List.map_append, List.map_append]
            exact hrun)
        refine ⟨hstart.trans hmoves, ?_⟩
        cases hcommitted with
        | replaced hrest hreplaced hafter hclean =>
          refine .replaced (fun one hone => ?_) hreplaced ?_ ?_
          · rcases List.mem_cons.mp hone with rfl | hone
            · exact hinstalls
            · exact hrest one hone
          · rw [happend]
            exact hafter
          · rw [happend]
            exact hclean
        | failed heq hrest hfails hresult hfailed =>
          rw [← happend] at hfailed
          refine .failed (by rw [heq, ← List.cons_append]) (fun one hone => ?_) hfails hresult
            hfailed
          rcases List.mem_cons.mp hone with rfl | hone
          · exact hinstalls
          · exact hrest one hone

/-! ## The whole run -/

variable {replacements : List Replacement} {nonce : Nat} {result : Except Failure Unit}

/-- A run that staged every file ends in a commit of all of them. -/
theorem replaceAll_committed {staged : List StagedReplacement} {after : World}
    (hpresent : ∀ replacement ∈ replacements, (world.get replacement.path).isSome)
    (hback : ∀ index, RollsBack faults exchanges index)
    (hstage : stageEach faults pid [] [] replacements nonce world = (.ok staged, after))
    (hrun : replaceAll faults pid exchanges replacements nonce world = (result, world')) :
    ∃ slots : List Slot, slots.map Slot.replacement = replacements ∧ Staged world after slots ∧
      Moves Nobody (Any slots) after world' ∧
      Committed faults exchanges [] slots world' result := by
  unfold replaceAll replaceAllWithOperations at hrun
  rw [hstage] at hrun
  obtain ⟨hok, -⟩ := stageEach_outcome (Staged.nil world)
    (fun _ h => absurd h List.not_mem_nil) hstage
  obtain ⟨slots, rfl, heq, hstaged⟩ := hok staged rfl
  obtain rfl : slots.map Slot.replacement = replacements := heq
  have hapart := hstaged.apart fun slot hslot =>
    hpresent slot.replacement (List.mem_map_of_mem hslot)
  have hindex : ∀ (index : Nat) (one : Slot), slots[index]? = some one →
      one.index = ([] : List Slot).length + index := by
    intro index one hone
    rw [hstaged.indexed index one hone, List.length_nil, Nat.zero_add]
  obtain ⟨hmoves, hcommitted⟩ := @commitFrom_committed faults exchanges _ _ _ [] slots _ hapart
    hback hindex (fun _ h => absurd h List.not_mem_nil)
    (fun one hone => ⟨hstaged.analyzed one hone, hstaged.staged one hone⟩) hrun
  exact ⟨slots, rfl, hstaged, hmoves, hcommitted⟩

/-- A destination that was there holds its old text when the run has staged it. -/
theorem Staged.at_start {start : World} {slots : List Slot} (h : Staged start world slots)
    (hslot : slot ∈ slots) (hpresent : (start.get slot.replacement.path).isSome) :
    start.get slot.replacement.path = some (.File slot.replacement.before) := by
  rw [← h.moves_free.kept _ id ?_]
  · exact h.analyzed slot hslot
  · intro hfree
    rw [hfree] at hpresent
    cases hpresent

/-- Nobody else writes. As long as every rollback goes through and no install stays
that fails behind its swap, the run replaces every file or it leaves every file as it
was, and its result tells which. When every removal goes through too, it leaves
nothing else behind. -/
theorem all_or_nothing
    (hpresent : ∀ replacement ∈ replacements, (world.get replacement.path).isSome)
    (hback : ∀ index, RollsBack faults exchanges index)
    (hstays : ∀ index, ¬ Stays faults exchanges index)
    (hrun : replaceAll faults pid exchanges replacements nonce world = (result, world')) :
    ((Replaced result ∧ ∀ replacement ∈ replacements,
          world'.get replacement.path = some (.File replacement.after)) ∨
        ¬ Replaced result ∧ ∀ replacement ∈ replacements,
          world'.get replacement.path = world.get replacement.path) ∧
      (Clean faults exchanges → ∀ path, ¬ Destination replacements path →
        world'.get path = world.get path) := by
  cases hstage : stageEach faults pid [] [] replacements nonce world with
  | mk outcome after =>
    cases outcome with
    | error failure =>
      obtain ⟨-, herror⟩ := stageEach_outcome (Staged.nil world)
        (fun _ h => absurd h List.not_mem_nil) hstage
      have hstopped := herror failure rfl
      unfold replaceAll replaceAllWithOperations at hrun
      rw [hstage] at hrun
      obtain ⟨rfl, rfl⟩ := hrun
      refine ⟨.inr ⟨hstopped.told.not_replaced, fun replacement hreplacement => ?_⟩,
        fun hclean path _ => hstopped.clean hclean.removals path⟩
      refine hstopped.moves.kept _ id fun hfree => ?_
      have hsome := hpresent replacement hreplacement
      rw [hfree] at hsome
      cases hsome
    | ok staged =>
      obtain ⟨slots, rfl, hstaged, hmoves, hcommitted⟩ :=
        replaceAll_committed hpresent hback hstage hrun
      have hstart : ∀ slot ∈ slots, world.get slot.replacement.path =
          some (.File slot.replacement.before) := fun slot hslot =>
        hstaged.at_start hslot (hpresent _ (List.mem_map_of_mem hslot))
      have hpath : (∀ slot ∈ slots, world'.get slot.temporary = none) → ∀ path,
          ¬ Destination (slots.map Slot.replacement) path → world'.get path = world.get path := by
        intro hnone path hdestination
        by_cases htemporary : Temporary slots path
        · obtain ⟨slot, hslot, rfl⟩ := htemporary
          rw [hnone slot hslot, hstaged.fresh slot hslot]
        · rw [hmoves.kept path id ?_, hstaged.moves.kept path id htemporary]
          rintro ⟨slot, hslot, heq | heq⟩
          · exact hdestination ⟨_, List.mem_map_of_mem hslot, heq.symm⟩
          · exact htemporary ⟨slot, hslot, heq⟩
      cases hcommitted with
      | replaced _ hreplaced hafter hclean =>
        refine ⟨.inl ⟨hreplaced, fun replacement hreplacement => ?_⟩,
          fun hno => hpath (hclean hno.removals)⟩
        obtain ⟨slot, hslot, rfl⟩ := List.mem_map.mp hreplacement
        exact hafter slot hslot
      | @failed front back first failure heq _ _ hresult hfailed =>
        rw [hresult]
        refine ⟨.inr ⟨hfailed.told.not_replaced, fun replacement hreplacement => ?_⟩,
          fun hno => hpath (hfailed.clean hno)⟩
        obtain ⟨other, hother, rfl⟩ := List.mem_map.mp hreplacement
        rw [hstart other hother]
        by_cases hne : other = first
        · have hshown := hfailed.shown
          rw [leftAt_of_not_stays (hstays first.index)] at hshown
          rw [hne]
          exact hshown
        · exact hfailed.others other hother hne

/-- The second install is refused. -/
def refusedSecond : ExchangeFaults where
  swap operation index := if operation = .InstallStaged ∧ index = 1 then some (.Os 28) else none
  sync _ _ := none

def refusedRun : Except Failure Unit × World :=
  replaceAll noFaults 1 refusedSecond twoReplacements 0 twoFiles

theorem reads_noFaults (moment : Moment) (index : Nat) : Reads noFaults moment index :=
  ⟨rfl, rfl, rfl⟩

theorem rollsBack_noFaults (hswap : exchanges.swap .RestoreRolledBack = fun _ => none)
    (index : Nat) : RollsBack noFaults exchanges index :=
  ⟨by rw [hswap], reads_noFaults _ _, reads_noFaults _ _, reads_noFaults _ _⟩

theorem refusedRun_first : refusedRun.2.get sourceA ≠ some (.File (ascii "A")) := by decide

/-- The first file is rolled back, and no staging file stays. -/
theorem the_first_install_is_rolled_back : ¬ Replaced refusedRun.1 ∧
    (∀ replacement ∈ twoReplacements,
      refusedRun.2.get replacement.path = twoFiles.get replacement.path) ∧
    ∀ path, ¬ Destination twoReplacements path → refusedRun.2.get path = twoFiles.get path := by
  have hstays : ∀ index, ¬ Stays noFaults refusedSecond index := by
    rintro index ⟨-, -, hunsynced | ⟨hunread, -⟩⟩
    · exact hunsynced rfl
    · exact hunread ⟨reads_noFaults _ _, reads_noFaults _ _⟩
  have hclean : Clean noFaults refusedSecond := ⟨fun _ => rfl, fun _ => rfl,
    fun _ => ⟨rfl, rfl⟩, fun _ => ⟨reads_noFaults _ _, reads_noFaults _ _⟩⟩
  obtain ⟨hboth, hothers⟩ := @all_or_nothing noFaults 1 refusedSecond twoFiles refusedRun.2
    twoReplacements 0 refusedRun.1 (by decide) (rollsBack_noFaults rfl) hstays rfl
  rcases hboth with ⟨-, hreplaced⟩ | ⟨hnot, hkept⟩
  · exact absurd (hreplaced ⟨sourceA, ascii "a", ascii "A"⟩ (by decide)) refusedRun_first
  · exact ⟨hnot, hkept, hothers hclean⟩

/-- Nobody else writes, every rollback goes through, and every file is staged. Where
an install fails first, the run fails and leaves every file as it was exactly when that
install does not stay. An install that stays leaves its own file with the new text, and
every other file is as it was. -/
theorem failed_install_iff {staged : List StagedReplacement} {after : World} {k : Nat}
    {replacement : Replacement}
    (hpresent : ∀ replacement ∈ replacements, (world.get replacement.path).isSome)
    (hback : ∀ index, RollsBack faults exchanges index)
    (hstage : stageEach faults pid [] [] replacements nonce world = (.ok staged, after))
    (hbefore : ∀ index < k, Installs faults exchanges index)
    (hfails : ¬ Installs faults exchanges k)
    (hk : replacements[k]? = some replacement) (hchanges : replacement.before ≠ replacement.after)
    (hrun : replaceAll faults pid exchanges replacements nonce world = (result, world')) :
    ¬ Replaced result ∧
      ((∀ replacement ∈ replacements,
          world'.get replacement.path = world.get replacement.path) ↔
        ¬ Stays faults exchanges k) ∧
      (Stays faults exchanges k →
        world'.get replacement.path = some (.File replacement.after)) ∧
      ∀ index other, index ≠ k → replacements[index]? = some other →
        world'.get other.path = world.get other.path := by
  obtain ⟨slots, rfl, hstaged, hmoves, hcommitted⟩ :=
    replaceAll_committed hpresent hback hstage hrun
  rw [List.getElem?_map] at hk
  obtain ⟨slot, hslot, rfl⟩ := Option.map_eq_some_iff.mp hk
  have hmem := List.mem_of_getElem? hslot
  have hindex : slot.index = k := hstaged.indexed k slot hslot
  cases hcommitted with
  | replaced hinstalls _ _ _ =>
    have hinstalled := hinstalls slot hmem
    rw [hindex] at hinstalled
    exact absurd hinstalled hfails
  | @failed front back first failure heq hinstalls hfirst hresult hfailed =>
    have hposition : slots[front.length]? = some first := by rw [heq]; simp
    have hlength : first.index = front.length := hstaged.indexed _ first hposition
    -- the first install that fails is the k-th
    have hsame : front.length = k := by
      rcases Nat.lt_trichotomy front.length k with hlt | hsame | hlt
      · rw [hlength] at hfirst
        exact absurd (hbefore _ hlt) hfirst
      · exact hsame
      · have hfront : slot ∈ front := by
          rw [heq, List.getElem?_append_left hlt] at hslot
          exact List.mem_of_getElem? hslot
        have hinstalled := hinstalls slot hfront
        rw [hindex] at hinstalled
        exact absurd hinstalled hfails
    obtain rfl : first = slot := by
      rw [hsame, hslot] at hposition
      exact (Option.some.inj hposition).symm
    have hstart : ∀ one ∈ slots, world.get one.replacement.path =
        some (.File one.replacement.before) := fun one hone =>
      hstaged.at_start hone (hpresent _ (List.mem_map_of_mem hone))
    have hshown := hfailed.shown
    have hothers : ∀ one ∈ slots, one ≠ first →
        world'.get one.replacement.path = world.get one.replacement.path := fun one hone hne =>
      (hfailed.others one hone hne).trans (hstart one hone).symm
    have hstays : Stays faults exchanges k →
        world'.get first.replacement.path = some (.File first.replacement.after) := fun hstays => by
      rwa [leftAt_of_stays (hindex.symm ▸ hstays)] at hshown
    refine ⟨by rw [hresult]; exact hfailed.told.not_replaced,
      ⟨fun hkept hstay => ?_, fun hnot => ?_⟩, hstays, fun index other hne hother => ?_⟩
    · have hnew := hstays hstay
      rw [hkept first.replacement (List.mem_map_of_mem hmem), hstart first hmem] at hnew
      exact hchanges (Entry.File.inj (Option.some.inj hnew))
    · intro other hother
      obtain ⟨one, hone, rfl⟩ := List.mem_map.mp hother
      by_cases hne : one = first
      · rw [leftAt_of_not_stays (hindex.symm ▸ hnot)] at hshown
        rw [hne, hshown, hstart first hmem]
      · exact hothers one hone hne
    · rw [List.getElem?_map] at hother
      obtain ⟨one, hone, rfl⟩ := Option.map_eq_some_iff.mp hother
      refine hothers one (List.mem_of_getElem? hone) fun heq => hne ?_
      rw [← hstaged.indexed index one hone, heq, hindex]

/-- The second install swaps, and then the sync of the directory fails. -/
def unsyncedSecond : ExchangeFaults where
  swap _ _ := none
  sync operation index := if operation = .InstallStaged ∧ index = 1 then some (.Os 5) else none

def unsyncedRun : Except Failure Unit × World :=
  replaceAll noFaults 1 unsyncedSecond twoReplacements 0 twoFiles

/-- The run fails, the second file holds the new text, and the first one its old text. -/
theorem the_second_install_stays : ¬ Replaced unsyncedRun.1 ∧
    ¬ (∀ replacement ∈ twoReplacements,
      unsyncedRun.2.get replacement.path = twoFiles.get replacement.path) ∧
    unsyncedRun.2.get sourceB = some (.File (ascii "B")) ∧
    unsyncedRun.2.get sourceA = twoFiles.get sourceA := by
  have hstays : Stays noFaults unsyncedSecond 1 := by decide
  obtain ⟨hnot, hiff, hnew, hothers⟩ := @failed_install_iff noFaults 1 unsyncedSecond twoFiles
    unsyncedRun.2 twoReplacements 0 unsyncedRun.1 _ _ 1 ⟨sourceB, ascii "b", ascii "B"⟩ (by decide)
    (rollsBack_noFaults rfl) rfl (by decide) (by decide) rfl (by decide) rfl
  exact ⟨hnot, fun hkept => hiff.mp hkept hstays, hnew hstays,
    hothers 0 ⟨sourceA, ascii "a", ascii "A"⟩ (by decide) rfl⟩

end analyzer.workflow.write
