import GnuRadio.Theorems.Settings.Store

/-! A batch that the block's callback refuses, and when the apply undoes all of it. -/

namespace GnuRadio.Settings

namespace CtxSettings

variable {κ ν : Type} {τ : Key → Type} [LinearOrder κ] [DecidableEq ν]
variable {d : BlockDescriptor κ ν τ} {s t : CtxSettings κ ν τ} {batch : Batch κ ν} {oldSettings refused : PropertyMap ν}
variable {k : Key} {now : Nat}

/-! ### What an undo leaves -/

/-- The record of the earlier set becomes active again. -/
theorem undo_activeCtx (hbatch : batch.batchCtx = s.activeCtx)
    (hstored : ∀ earlier, batch.contextBefore = some earlier → earlier.context ∈ s.stored) :
    (s.undo d batch oldSettings refused now).activeCtx = batch.contextBefore.getD s.activeCtx := by
  have hsame := s.restoreRefused_sameSets (d := d) refused oldSettings batch.batchCtx batch.contextActivated
  unfold undo
  cases hbefore : batch.contextBefore with
  | none => cases batch.autoUpdateBefore <;> exact hsame.activeCtx
  | some earlier =>
    have hmem := (hsame.mem_stored earlier.context).mpr (hstored earlier hbefore)
    unfold restoreContext
    dsimp only
    rw [if_pos (hsame.activeCtx.trans hbatch.symm), if_pos hmem]
    cases batch.autoUpdateBefore <;> rfl

theorem undo_autoUpdateParameters :
    (s.undo d batch oldSettings refused now).autoUpdateParameters =
      match batch.autoUpdateBefore with
      | some before => fun ctx => (s.autoUpdateParameters ctx).map fun keys => (before ctx).getD keys
      | none => s.autoUpdateParameters := by
  have hsame := s.restoreRefused_sameSets (d := d) refused oldSettings batch.batchCtx batch.contextActivated
  unfold undo
  dsimp only
  cases batch.autoUpdateBefore with
  | none => cases batch.contextBefore <;> exact hsame.autoUpdateParameters
  | some before =>
    funext ctx
    cases batch.contextBefore <;> exact congrArg (Option.map _) (congrFun hsame.autoUpdateParameters ctx)

theorem undo_members : (s.undo d batch oldSettings refused now).members =
    (s.restoreRefused d refused oldSettings batch.batchCtx batch.contextActivated).members := by
  unfold undo
  cases batch.contextBefore <;> cases batch.autoUpdateBefore <;> rfl

theorem undo_stored : (s.undo d batch oldSettings refused now).stored =
    (s.restoreRefused d refused oldSettings batch.batchCtx batch.contextActivated).stored := by
  unfold undo
  cases batch.contextBefore <;> cases batch.autoUpdateBefore <;> rfl

omit [DecidableEq ν] in
theorem isStored_iff {ctx : SettingsCtx κ} :
    s.isStored ctx = true ↔ ctx ∈ (setsOf s.stored ctx.context).map (·.context) := by
  simp [isStored]

omit [DecidableEq ν] in
theorem SameSets.isStored (h : SameSets s t) (ctx : SettingsCtx κ) : t.isStored ctx = s.isStored ctx := by
  rw [Bool.eq_iff_iff, isStored_iff, isStored_iff, h.contexts]

theorem undo_activeParameters {m : Member ν (τ k)} (hm : d.member k = some m) :
    (s.undo d batch oldSettings refused now).activeParameters.lookup k =
      some (m.read ((s.undo d batch oldSettings refused now).members k)) := by
  unfold undo updateActiveParameters
  dsimp only
  rw [BlockDescriptor.lookup_storeCurrentParameters, hm]
  rfl

/-- What the callback's refusal of a batch leaves, when the block's `reset()` leaves the members alone. -/
structure Refused (d : BlockDescriptor κ ν τ) (batch : Batch κ ν) (failed : PropertyMap ν) (s t : CtxSettings κ ν τ) :
    Prop where
  members : ∀ k m, d.writable k = some m → (s.applyEntries d batch.parameters failed).members k ≠ s.members k →
    m.validate (s.members k) = true → t.members k = s.members k
  activeCtx : t.activeCtx = batch.contextBefore.getD s.activeCtx
  autoUpdateParameters : t.autoUpdateParameters =
    match batch.autoUpdateBefore with
    | some before => fun ctx => (s.autoUpdateParameters ctx).map fun keys => (before ctx).getD keys
    | none => s.autoUpdateParameters
  isStored : ∀ ctx, t.isStored ctx = s.isStored ctx
  activeParameters : ∀ k m, d.member k = some m → t.activeParameters.lookup k = some (m.read (t.members k))

omit [LinearOrder κ] in
variable {failed : PropertyMap ν}

/-- A member that the batch moved is among the values that the callback gets. -/
theorem mem_callbackSettings {m : Member ν (τ k)} (hm : d.writable k = some m)
    (hcallback : d.settingsChanged.isSome)
    (hmoved : (s.applyEntries d batch.parameters failed).members k ≠ s.members k) :
    k ∈ s.callbackSettings d batch failed := by
  have hmember := BlockDescriptor.writable_member hm
  rw [applyEntries_members hm] at hmoved
  cases hv : batch.parameters.lookup k with
  | none =>
    rw [hv] at hmoved
    exact absurd rfl hmoved
  | some v =>
    rw [hv, Option.bind_some] at hmoved
    cases hx : m.applyStaged v with
    | none =>
      rw [hx] at hmoved
      exact absurd rfl hmoved
    | some x =>
      rw [hx, Option.getD_some] at hmoved
      have hstaged : (s.applyEntries d batch.parameters failed).staged.lookup k = some v :=
        applyEntries_staged hm hcallback hv (by rw [hx]; rfl)
      have hold : (d.storeCurrentParameters s.members ∅).lookup k = some (m.read (s.members k)) := by
        rw [BlockDescriptor.lookup_storeCurrentParameters, hmember]
        rfl
      have hne : (d.storeCurrentParameters s.members ∅).lookup k ≠ some v := by
        rw [hold]
        intro heq
        cases Option.some.inj heq
        exact hmoved (m.applyStaged_read_some hx)
      have hfiltered : k ∈ (s.applyEntries d batch.parameters failed).staged.filter fun key value =>
          (d.storeCurrentParameters s.members ∅).lookup key ≠ some value :=
        AList.mem_filter_self.mpr ⟨v, hstaged, by simpa using hne⟩
      unfold callbackSettings newSettings
      dsimp only
      split
      · exact (AList.mem_insert _).mpr (Or.inr hfiltered)
      · exact hfiltered

theorem applyBatch_refused {resetDone : Bool}
    (hrefused : CallbackRefused (s.applyBatch d batch failed resetDone now).1)
    (hreset : ∀ f, d.reset = some f → ∀ members, f members = members) (hbatch : batch.batchCtx = s.activeCtx)
    (hstored : ∀ earlier, batch.contextBefore = some earlier → earlier.context ∈ s.stored) :
    Refused d batch failed s (s.applyBatch d batch failed resetDone now).2 := by
  obtain ⟨members, result, t, heq, hnone, -⟩ | ⟨f, members, error, hcallback, -, hcase⟩ :=
    applyBatch_cases (d := d) s batch failed resetDone now
  · rw [heq] at hrefused
    rw [CallbackRefused, hnone] at hrefused
    cases hrefused
  · let called : CtxSettings κ ν τ := { s.beforeCallback d batch failed with members := members }
    let undone := called.undo d batch (d.storeCurrentParameters s.members ∅) (s.callbackSettings d batch failed) now
    have hundone : Refused d batch failed s undone := by
      refine ⟨fun k m hm hmoved hvalid => ?_, undo_activeCtx hbatch hstored, undo_autoUpdateParameters, fun ctx => ?_,
        fun k m hm => ?_⟩
      · have hk := mem_callbackSettings hm (by rw [hcallback]; rfl) hmoved
        have hold : (d.storeCurrentParameters s.members ∅).lookup k = some (m.read (s.members k)) := by
          rw [BlockDescriptor.lookup_storeCurrentParameters, BlockDescriptor.writable_member hm]
          rfl
        exact (congrFun undo_members k).trans (called.restoreRefused_members hm hold hvalid hk _ _)
      · have hsame := called.restoreRefused_sameSets (d := d) (s.callbackSettings d batch failed)
          (d.storeCurrentParameters s.members ∅) batch.batchCtx batch.contextActivated
        have hisStored := hsame.isStored ctx
        unfold isStored at hisStored ⊢
        rw [undo_stored]
        exact hisStored
      · exact undo_activeParameters hm
    have hquiet : ∀ members : Members τ, (if resetDone then (d.reset.getD id) members else members) = members := by
      intro members
      split
      · cases hd : d.reset with
        | none => rfl
        | some f => exact hreset f hd members
      · rfl
    rcases hcase with ⟨result, t, heq, -, hf⟩ | heq
    · rw [heq]
      have hmembers : t.members = undone.members := hf.members.trans (hquiet _)
      refine ⟨fun k m hm hmoved hvalid => ?_, hf.activeCtx.trans hundone.activeCtx,
        hf.autoUpdateParameters.trans hundone.autoUpdateParameters, fun ctx => ?_, fun k m hm => ?_⟩
      · rw [hmembers]
        exact hundone.members k m hm hmoved hvalid
      · have hisStored := hundone.isStored ctx
        unfold isStored at hisStored ⊢
        rw [hf.stored]
        exact hisStored
      · rw [hmembers, hf.activeParameters, BlockDescriptor.lookup_storeCurrentParameters, hm]
        rfl
    · rw [heq]
      exact hundone

/-! ### The batch that is refused -/

variable {readings : Readings} {before : SettingsCtx κ} {pending : PropertyMap ν}

omit [DecidableEq ν] in
/-- An activation keeps the keys that follow tags in each set that has an entry. -/
theorem activateContext_autoUpdate (hw : s.WellFormed d) (ctx : SettingsCtx κ) (now : Nat) {c : SettingsCtx κ}
    {keys : Finset Key} (h : s.autoUpdateParameters c = some keys) :
    (s.activateContext d ctx now).2.autoUpdateParameters c = some keys := by
  have hentry : ∀ best, (s.withAutoUpdateEntry d best).autoUpdateParameters c = some keys := by
    intro best
    unfold withAutoUpdateEntry
    split
    · exact h
    · next hnone =>
      refine (Function.update_of_ne (fun heq => hnone ?_) _ _).trans h
      rw [← heq, h]
      rfl
  obtain ⟨⟨found, heq⟩, -⟩ | ⟨best, values, -, -, -, ⟨-, converted, heq, -⟩ | ⟨-, heq⟩⟩ := activateContext_cases hw ctx now
  · rw [heq]
    exact h
  · rw [heq]
    exact hentry best
  · rw [heq]
    exact h

omit [DecidableEq ν] in
/-- The set that a reset's activation leaves to be active again. -/
theorem activateContext_selectedByReset (h : Inv d s before pending) (haccepted : s.ResetAccepted d readings)
    {found : Option (SettingsCtx κ)}
    (hact : (s.takeBatch.2.withDefaultSet d readings).activateContext d ⟨0, d.defaultContext⟩ readings.activation =
      (.ok found, t)) : t.contextBeforeActivation.getD t.activeCtx = s.selectedByReset d readings := by
  have hw : (s.takeBatch.2.withDefaultSet d readings).WellFormed d :=
    h.takeBatch.wellFormed.addStored h.takeBatch.wellFormed.defaults ⟨readings.reset, d.defaultContext⟩
  have hmem : (SettingsCtx.orNow ⟨0, d.defaultContext⟩ readings.activation).context ∈
      (s.takeBatch.2.withDefaultSet d readings).stored := by
    rw [SettingsCtx.orNow_context]
    exact (AList.mem_insert _).mpr (Or.inl rfl)
  unfold selectedByReset
  obtain ⟨⟨found', heq⟩, hbest⟩ | ⟨best, values, hfind, hne, -, hcase⟩ :=
    activateContext_cases hw ⟨0, d.defaultContext⟩ readings.activation
  · rw [hact] at heq
    cases heq
    change s.activeCtx = _
    split
    · cases hfind : (s.withDefaultSet d readings).findBestMatchSettingsCtx d
          (SettingsCtx.orNow ⟨0, d.defaultContext⟩ readings.activation) with
      | none => rfl
      | some best => exact (hbest best hfind).symm
    · rfl
  · have hdefault : best.context = d.defaultContext := by
      rw [hw.find_context hmem hfind, SettingsCtx.orNow_context]
    rcases hcase with ⟨hctx, converted, heq, -⟩ | ⟨hctx, heq⟩
    · rw [hact] at heq
      have hsame := ((s.takeBatch.2.withDefaultSet d readings).withAutoUpdateEntry_sameActive d best).1
      cases heq
      rw [if_pos ⟨haccepted, by rw [← hdefault]; exact hctx.symm⟩]
      have hrecord : ((s.takeBatch.2.withDefaultSet d readings).withAutoUpdateEntry d best).contextBeforeActivation = none :=
        hsame.contextBeforeActivation
      have hselected : (s.withDefaultSet d readings).findBestMatchSettingsCtx d
          (SettingsCtx.orNow ⟨0, d.defaultContext⟩ readings.activation) = some best := hfind
      change ((s.takeBatch.2.withDefaultSet d readings).withAutoUpdateEntry d best).contextBeforeActivation.getD best = _
      rw [hrecord, hselected]
      rfl
    · rw [hact] at heq
      cases heq
      have hother : ¬ (s.ResetAccepted d readings ∧ s.activeCtx.context = d.defaultContext) := fun hsame =>
        hctx (hdefault.trans hsame.2.symm)
      rw [if_neg hother]
      rfl

omit [DecidableEq ν] in
theorem Inv.earlier_stored (h : Inv d s before pending) {earlier : SettingsCtx κ}
    (hearlier : s.contextBeforeActivation = some earlier) : earlier.context ∈ s.stored := by
  rcases h.recorded with ⟨-, hnone, -⟩ | ⟨-, recorded, hsome, hcontext⟩
  · rw [hnone] at hearlier
    cases hearlier
  · rw [hsome] at hearlier
    cases hearlier
    rw [hcontext]
    exact h.beforeStored

omit [DecidableEq ν] in
/-- A refused batch is undone when the active set and the keys that follow tags are restored. -/
theorem Refused.undone_iff {u : CtxSettings κ ν τ} (hr : Refused d batch failed u t)
    (hmembers : u.members = s.members)
    (happlied : s.appliedMembers d readings = (u.applyEntries d batch.parameters failed).members)
    {selected : SettingsCtx κ} (hactive : batch.contextBefore.getD u.activeCtx = selected) {p : Prop}
    (hauto : (∀ ctx keys, s.isStored ctx = true → s.autoUpdateParameters ctx = some keys → t.isStored ctx = true →
      t.autoUpdateParameters ctx = some keys) ↔ p) :
    s.Undone d readings before t ↔ selected = before ∧ p := by
  rw [← hauto, ← hactive, ← hr.activeCtx]
  constructor
  · intro h
    exact ⟨h.activeCtx, h.autoUpdateParameters⟩
  · rintro ⟨hctx, hkeys⟩
    refine ⟨fun k m hm hmoved hvalid => ?_, hctx, hkeys, hr.activeParameters⟩
    rw [happlied, ← hmembers] at hmoved
    rw [← hmembers] at hvalid ⊢
    exact hr.members k m hm hmoved hvalid

omit [DecidableEq ν] in
/-- A batch whose reset does not store the defaults. -/
theorem undone_iff_of_kept (h : Inv d s before pending) (hnot : ¬ s.ResetAccepted d readings)
    (hreset : s.takeBatch.2.resetBatch d s.takeBatch.1 readings = (.ok (failed, s.takeBatch.1), s.takeBatch.2))
    (hr : Refused d s.takeBatch.1 failed s.takeBatch.2 t) :
    s.Undone d readings before t ↔
      s.contextBeforeActivation.getD (s.selectedByReset d readings) = before ∧ s.PrunesAlone d readings := by
  refine hr.undone_iff (s := s) rfl (by rw [appliedMembers, hreset]) ?_ ⟨fun _ haccepted => absurd haccepted hnot, ?_⟩
  · rw [selectedByReset, if_neg fun haccepted => hnot haccepted.1]
    rfl
  · intro _ ctx keys _ hkeys _
    rw [hr.autoUpdateParameters]
    have hnone : s.takeBatch.1.autoUpdateBefore = none := h.beforeReset
    rw [hnone]
    exact hkeys

omit [DecidableEq ν] in
/-- A batch whose reset stores the defaults. -/
theorem undone_iff_of_reset (h : Inv d s before pending) (haccepted : s.ResetAccepted d readings)
    {found : Option (SettingsCtx κ)} {u : CtxSettings κ ν τ}
    (hact : (s.takeBatch.2.withDefaultSet d readings).activateContext d ⟨0, d.defaultContext⟩ readings.activation =
      (.ok found, u))
    (hreset : s.takeBatch.2.resetBatch d s.takeBatch.1 readings =
      (.ok (∅, ((u.followAgain d ⟨readings.reset, d.defaultContext⟩).overDefaults d s.takeBatch.1 readings.pruning).1),
        ((u.followAgain d ⟨readings.reset, d.defaultContext⟩).overDefaults d s.takeBatch.1 readings.pruning).2))
    (hr : Refused d ((u.followAgain d ⟨readings.reset, d.defaultContext⟩).overDefaults d s.takeBatch.1 readings.pruning).1
      ∅ ((u.followAgain d ⟨readings.reset, d.defaultContext⟩).overDefaults d s.takeBatch.1 readings.pruning).2 t) :
    s.Undone d readings before t ↔
      s.contextBeforeActivation.getD (s.selectedByReset d readings) = before ∧ s.PrunesAlone d readings := by
  have hw : (s.takeBatch.2.withDefaultSet d readings).WellFormed d :=
    h.takeBatch.wellFormed.addStored h.takeBatch.wellFormed.defaults ⟨readings.reset, d.defaultContext⟩
  have hstaging := (s.takeBatch.2.withDefaultSet d readings).activateContext_staging d ⟨0, d.defaultContext⟩ readings.activation
  rw [hact] at hstaging
  have hstored : u.stored = (s.withDefaultSet d readings).stored := hstaging.stored
  refine hr.undone_iff (s := s) hstaging.members (by rw [appliedMembers, hreset]) ?_ ?_
  · rw [← activateContext_selectedByReset h haccepted hact]
    change (s.contextBeforeActivation.or u.contextBeforeActivation).getD u.activeCtx = _
    cases s.contextBeforeActivation <;> rfl
  · have hkept : ∀ ctx keys, s.autoUpdateParameters ctx = some keys → u.autoUpdateParameters ctx = some keys := by
      intro ctx keys hkeys
      have hadded : (s.takeBatch.2.withDefaultSet d readings).autoUpdateParameters ctx = some keys := by
        unfold withDefaultSet addStoredParameters
        dsimp only
        split
        · exact hkeys
        · next hnone =>
          refine (Function.update_of_ne (fun heq => hnone ?_) _ _).trans hkeys
          rw [← heq]
          exact Option.isSome_iff_exists.mpr ⟨keys, hkeys⟩
      have hafter := activateContext_autoUpdate hw ⟨0, d.defaultContext⟩ readings.activation hadded
      rw [hact] at hafter
      exact hafter
    have hisStored : ∀ ctx, t.isStored ctx =
        ((s.withDefaultSet d readings).removeExpiredStoredParameters d readings.pruning).isStored ctx := by
      intro ctx
      rw [hr.isStored ctx]
      unfold isStored
      change ((setsOf (keepUnexpired d.expiryTime readings.pruning u.stored) ctx.context).any _) = _
      rw [hstored]
      rfl
    have hauto : ∀ ctx keys, s.autoUpdateParameters ctx = some keys → (t.autoUpdateParameters ctx = some keys ↔
        eraseExpired d.expiryTime readings.pruning (s.withDefaultSet d readings).stored s.autoUpdateParameters ctx =
          some keys) := by
      intro ctx keys hkeys
      have ht : t.autoUpdateParameters ctx =
          (eraseExpired d.expiryTime readings.pruning (s.withDefaultSet d readings).stored
            (u.followAgain d ⟨readings.reset, d.defaultContext⟩).autoUpdateParameters ctx).map fun keys =>
              (u.autoUpdateParameters ctx).getD keys := by
        rw [hr.autoUpdateParameters, ← hstored]
        rfl
      rw [ht, hkept ctx keys hkeys]
      unfold eraseExpired
      split
      · exact Iff.rfl
      · rw [hkeys]
        have hfollow : (u.followAgain d ⟨readings.reset, d.defaultContext⟩).autoUpdateParameters ctx =
            some d.writableMembers := if_pos (Or.inr (by rw [hkept ctx keys hkeys]; rfl))
        rw [hfollow]
        exact Iff.rfl
    constructor
    · intro hall _ ctx keys hctx hkeys hstill
      exact (hauto ctx keys hkeys).mp (hall ctx keys hctx hkeys ((hisStored ctx).trans hstill))
    · intro hall ctx keys hctx hkeys hstill
      exact (hauto ctx keys hkeys).mpr (hall haccepted ctx keys hctx hkeys ((hisStored ctx).symm.trans hstill))

end CtxSettings

open CtxSettings

variable {κ ν : Type} {τ : Key → Type} [LinearOrder κ] [DecidableEq ν] {d : BlockDescriptor κ ν τ} {r : Run κ ν τ}

/-- A batch that the callback refuses is undone exactly when the record, or the active set, is what was active before the
    batch, and the reset's pruning erases no set next to one that stays. -/
theorem refused_undone (h : (Run.system d).Reachable r) {readings : Readings}
    (hrefused : CallbackRefused (r.settings.applyStagedParameters d readings).1)
    (hreset : ∀ f, d.reset = some f → ∀ members, f members = members) :
    r.settings.Undone d readings r.before (r.settings.applyStagedParameters d readings).2 ↔
      r.Returns d readings ∧ r.settings.PrunesAlone d readings := by
  have hinv := Inv.reach h
  let resetDone (failed : PropertyMap ν) : Bool := RESET_DEFAULTS ∈ r.settings.stagedParameters ∧ failed.entries = []
  have happly : ∀ {failed batch u}, r.settings.takeBatch.2.resetBatch d r.settings.takeBatch.1 readings =
      (.ok (failed, batch), u) → r.settings.applyStagedParameters d readings =
        u.applyBatch d batch failed (resetDone failed) readings.restored := by
    intro failed batch u heq
    rw [applyStagedParameters, heq]
  have hstored : ∀ earlier, r.settings.contextBeforeActivation = some earlier → earlier.context ∈ r.settings.stored :=
    fun earlier => hinv.earlier_stored
  obtain ⟨hnone, heq⟩ | ⟨-, hne, heq⟩ | ⟨hsome, hempty, found, u, hact, heq⟩ :=
    resetBatch_cases hinv.takeBatch.wellFormed r.settings.takeBatch.1 readings
  · rw [happly heq] at hrefused ⊢
    exact undone_iff_of_kept hinv (fun haccepted => hnone haccepted.1) heq (applyBatch_refused hrefused hreset rfl hstored)
  · rw [happly heq] at hrefused ⊢
    exact undone_iff_of_kept hinv (fun haccepted => hne haccepted.2) heq (applyBatch_refused hrefused hreset rfl hstored)
  · rw [happly heq] at hrefused ⊢
    refine undone_iff_of_reset hinv ⟨hsome, hempty⟩ hact heq (applyBatch_refused hrefused hreset rfl fun earlier hearlier => ?_)
    have hadd : Rest d (r.settings.takeBatch.2.withDefaultSet d readings) :=
      ⟨hinv.takeBatch.wellFormed.addStored hinv.takeBatch.wellFormed.defaults _,
        mem_stored_addStored hinv.takeBatch.active _ _, ⟨rfl, rfl, rfl, rfl⟩⟩
    have hu := hadd.inv.activateContext ⟨0, d.defaultContext⟩ readings.activation
    have hstaging := (r.settings.takeBatch.2.withDefaultSet d readings).activateContext_staging d ⟨0, d.defaultContext⟩
      readings.activation
    rw [show (r.settings.takeBatch.2.withDefaultSet d readings).activateContext d ⟨0, d.defaultContext⟩
      readings.activation = _ from hact] at hu hstaging
    refine mem_stored_removeExpired (d := d) (s := (u.followAgain d ⟨readings.reset, d.defaultContext⟩).cleared) ?_
      readings.pruning
    change earlier.context ∈ u.stored
    change r.settings.contextBeforeActivation.or u.contextBeforeActivation = some earlier at hearlier
    cases hrecord : r.settings.contextBeforeActivation with
    | none =>
      rw [hrecord] at hearlier
      exact hu.earlier_stored hearlier
    | some recorded =>
      rw [hrecord] at hearlier
      cases hearlier
      rw [hstaging.stored]
      exact mem_stored_addStored (d := d) (hstored earlier hrecord) r.settings.defaultParameters _

/-! ### A block that refuses every change -/

def refusingBlock : BlockDescriptor Nat Nat fun _ => Nat := gainBlock (some fun members _ _ => (members, .error "refused"))

def refusingStart : Option (CtxSettings Nat Nat fun _ => Nat) :=
  (CtxSettings.constructed refusingBlock (fun _ => 0) ∅).init refusingBlock ∅ initReadings

theorem refusingStart_isSome : refusingStart.isSome := by
  decide

def refusingRun : Run Nat Nat fun _ => Nat :=
  ⟨refusingStart.get refusingStart_isSome, (refusingStart.get refusingStart_isSome).activeCtx, ∅⟩

theorem refusingRun_start : (Run.system refusingBlock).start refusingRun :=
  ⟨fun _ => 0, ∅, ∅, initReadings, (Option.some_get refusingStart_isSome).symm, rfl, rfl⟩

def beforeRefusedContext : Run Nat Nat fun _ => Nat :=
  ((Run.system refusingBlock).run refusingRun otherContext).get (by decide)

theorem refusedContext_undone : beforeRefusedContext.settings.Undone refusingBlock readings beforeRefusedContext.before
    (beforeRefusedContext.settings.applyStagedParameters refusingBlock readings).2 := by
  have hrefused : CallbackRefused (beforeRefusedContext.settings.applyStagedParameters refusingBlock readings).1 := trivial
  have hreturns : beforeRefusedContext.Returns refusingBlock readings := by
    unfold Run.Returns
    decide
  exact (refused_undone (Transition.System.reachable_get _ otherContext refusingRun_start (by decide)) hrefused
    fun f hf => (by cases hf)).mpr ⟨hreturns, fun haccepted => absurd haccepted (by decide)⟩

/-- A newer set of the active context becomes active. -/
def sameContext : List (Act Nat Nat) :=
  [.set (gain 5) ⟨30, 0⟩ 21 21, .activateContext ⟨40, 0⟩ 22]

def beforeRefusedSet : Run Nat Nat fun _ => Nat :=
  ((Run.system refusingBlock).run refusingRun sameContext).get (by decide)

/-- The refused set stays active. -/
theorem refusedSet_not_undone : (Run.system refusingBlock).Reachable beforeRefusedSet ∧
    CallbackRefused (beforeRefusedSet.settings.applyStagedParameters refusingBlock readings).1 ∧
    ¬ beforeRefusedSet.settings.Undone refusingBlock readings beforeRefusedSet.before
      (beforeRefusedSet.settings.applyStagedParameters refusingBlock readings).2 := by
  refine ⟨Transition.System.reachable_get _ sameContext refusingRun_start (by decide), trivial, fun h => ?_⟩
  have hactive := h.activeCtx
  revert hactive
  decide

end GnuRadio.Settings
