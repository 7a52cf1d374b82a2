import GnuRadio.Theorems.Settings.WellFormed

/-! What an apply does: the members that take a staged value, the defaults that a reset stages, and the four ways in which
    a batch ends. -/

namespace GnuRadio.Settings.CtxSettings

open Function

variable {κ ν : Type} {τ : Key → Type} [LinearOrder κ] [DecidableEq ν]
variable {d : BlockDescriptor κ ν τ} {s t : CtxSettings κ ν τ} {batch : Batch κ ν} {readings : Readings} {k : Key}

/-! ### The loop over a batch -/

omit [LinearOrder κ] [DecidableEq ν] in
theorem applyEntry_other (applied : Applied ν τ) {key : Key} (value : ν) (h : k ≠ key) :
    (applyEntry d applied key value).members k = applied.members k ∧
      (applyEntry d applied key value).staged.lookup k = applied.staged.lookup k ∧
      (applyEntry d applied key value).failedParameters.lookup k = applied.failedParameters.lookup k := by
  unfold applyEntry
  split
  · exact ⟨rfl, rfl, rfl⟩
  · split
    · exact ⟨rfl, rfl, AList.lookup_insert_ne h⟩
    · refine ⟨update_of_ne h _ _, ?_, rfl⟩
      dsimp only
      split
      · exact AList.lookup_insert_ne h
      · rfl

omit [LinearOrder κ] [DecidableEq ν] in
theorem applyEntry_self (applied : Applied ν τ) {m : Member ν (τ k)} (value : ν) (hm : d.writable k = some m) :
    (applyEntry d applied k value).members k = (m.applyStaged value).getD (applied.members k) ∧
      (m.applyStaged value = none → k ∈ (applyEntry d applied k value).failedParameters) ∧
      (d.settingsChanged.isSome → (m.applyStaged value).isSome →
        (applyEntry d applied k value).staged.lookup k = some value) := by
  unfold applyEntry
  rw [hm]
  dsimp only
  cases hx : m.applyStaged value with
  | none =>
    refine ⟨rfl, fun _ => (AList.mem_insert _).mpr (Or.inl rfl), fun _ h => ?_⟩
    cases h
  | some x =>
    refine ⟨update_self _ _ _, fun h => ?_, fun hc _ => ?_⟩
    · cases h
    · rw [if_pos hc]
      exact AList.lookup_insert _

omit [LinearOrder κ] [DecidableEq ν] in
/-- The loop over entries with distinct keys, at one writable member. -/
theorem foldl_applyEntry {entries : List (Sigma fun _ : Key => ν)} (hnodup : entries.NodupKeys) {m : Member ν (τ k)}
    (hm : d.writable k = some m) (applied : Applied ν τ) :
    let after := entries.foldl (fun applied e => applyEntry d applied e.1 e.2) applied
    after.members k = ((entries.dlookup k).bind m.applyStaged).getD (applied.members k) ∧
      ((∃ v, entries.dlookup k = some v ∧ m.applyStaged v = none) → k ∈ after.failedParameters) ∧
      (k ∈ applied.failedParameters → k ∈ after.failedParameters) ∧
      (d.settingsChanged.isSome → ∀ v, entries.dlookup k = some v → (m.applyStaged v).isSome →
        after.staged.lookup k = some v) ∧
      (entries.dlookup k = none → after.staged.lookup k = applied.staged.lookup k) := by
  induction entries generalizing applied with
  | nil =>
    refine ⟨rfl, ?_, id, ?_, fun _ => rfl⟩
    · rintro ⟨v, hv, -⟩
      cases hv
    · intro _ v hv
      cases hv
  | cons e entries ih =>
    obtain ⟨key, value⟩ := e
    obtain ⟨hkey, htail⟩ := List.nodupKeys_cons.mp hnodup
    obtain ⟨hmembers, hfailed, hmono, hstaged, hnone⟩ := ih htail (applyEntry d applied key value)
    by_cases hk : k = key
    · subst hk
      have hd : entries.dlookup k = none := List.dlookup_eq_none.mpr hkey
      obtain ⟨hmem, hfail, hst⟩ := applyEntry_self applied value hm
      rw [hd] at hmembers
      refine ⟨?_, ?_, fun h => hmono ?_, ?_, ?_⟩
      · rw [List.dlookup_cons_eq]
        exact hmembers.trans hmem
      · rintro ⟨v, hv, hx⟩
        rw [List.dlookup_cons_eq] at hv
        cases hv
        exact hmono (hfail hx)
      · unfold applyEntry
        rw [hm]
        dsimp only
        split
        · exact (AList.mem_insert _).mpr (Or.inl rfl)
        · exact h
      · intro hc v hv hx
        rw [List.dlookup_cons_eq] at hv
        cases hv
        exact (hnone hd).trans (hst hc hx)
      · intro h
        rw [List.dlookup_cons_eq] at h
        cases h
    · obtain ⟨hmem, hst, hf⟩ := applyEntry_other (d := d) applied value hk
      have hd := List.dlookup_cons_ne entries (⟨key, value⟩ : Sigma fun _ : Key => ν) hk
      rw [hd]
      refine ⟨by rw [← hmem]; exact hmembers, hfailed, fun h => hmono ?_, hstaged, fun h => (hnone h).trans hst⟩
      rw [← AList.lookup_isSome] at h ⊢
      rw [hf]
      exact h

omit [LinearOrder κ] [DecidableEq ν] in
theorem applyEntries_members {m : Member ν (τ k)} (hm : d.writable k = some m) (parameters failed : PropertyMap ν) :
    (s.applyEntries d parameters failed).members k =
      ((parameters.lookup k).bind m.applyStaged).getD (s.members k) :=
  (foldl_applyEntry parameters.nodupKeys hm _).1

omit [LinearOrder κ] [DecidableEq ν] in
theorem applyEntries_failed {m : Member ν (τ k)} (hm : d.writable k = some m) {parameters failed : PropertyMap ν} {v : ν}
    (hv : parameters.lookup k = some v) (hx : m.applyStaged v = none) :
    k ∈ (s.applyEntries d parameters failed).failedParameters :=
  (foldl_applyEntry parameters.nodupKeys hm _).2.1 ⟨v, hv, hx⟩

omit [LinearOrder κ] [DecidableEq ν] in
theorem applyEntries_staged {m : Member ν (τ k)} (hm : d.writable k = some m) (hc : d.settingsChanged.isSome)
    {parameters failed : PropertyMap ν} {v : ν} (hv : parameters.lookup k = some v) (hx : (m.applyStaged v).isSome) :
    (s.applyEntries d parameters failed).staged.lookup k = some v :=
  (foldl_applyEntry parameters.nodupKeys hm _).2.2.2.1 hc v hv hx

/-! ### The reset of a batch -/

omit [DecidableEq ν] in
theorem resetBatch_cases (hw : s.WellFormed d) (batch : Batch κ ν) (readings : Readings) :
    (RESET_DEFAULTS ∉ batch.parameters ∧ s.resetBatch d batch readings = (.ok (∅, batch), s)) ∨
      (RESET_DEFAULTS ∈ batch.parameters ∧ (s.refusedDefaults d readings.reset).entries ≠ [] ∧
        s.resetBatch d batch readings = (.ok (s.refusedDefaults d readings.reset, batch), s)) ∨
      (RESET_DEFAULTS ∈ batch.parameters ∧ (s.refusedDefaults d readings.reset).entries = [] ∧
        ∃ found t, (s.addStoredParameters d s.defaultParameters ⟨readings.reset, d.defaultContext⟩).activateContext d
            ⟨0, d.defaultContext⟩ readings.activation = (.ok found, t) ∧
          s.resetBatch d batch readings =
            (.ok (∅, ((t.followAgain d ⟨readings.reset, d.defaultContext⟩).overDefaults d batch readings.pruning).1),
              ((t.followAgain d ⟨readings.reset, d.defaultContext⟩).overDefaults d batch readings.pruning).2)) := by
  unfold resetBatch
  by_cases hreset : RESET_DEFAULTS ∈ batch.parameters
  · by_cases hrefused : (s.refusedDefaults d readings.reset).entries = []
    · refine Or.inr (Or.inr ⟨hreset, hrefused, ?_⟩)
      obtain ⟨found, t, hact⟩ := activateContext_ok (hw.addStored hw.defaults ⟨readings.reset, d.defaultContext⟩)
        ⟨0, d.defaultContext⟩ readings.activation
      refine ⟨found, t, hact, ?_⟩
      rw [if_neg (not_not.mpr hreset), if_neg (not_not.mpr hrefused), stageDefaults, hact]
    · exact Or.inr (Or.inl ⟨hreset, hrefused, by rw [if_neg (not_not.mpr hreset), if_pos hrefused]⟩)
  · exact Or.inl ⟨hreset, if_pos hreset⟩

/-! ### The end of a batch -/

/-- Nothing is staged, and no activation and no reset is recorded. -/
structure Idle (s : CtxSettings κ ν τ) : Prop where
  staged : s.stagedParameters = ∅
  activated : s.contextActivated = false
  before : s.contextBeforeActivation = none
  beforeReset : s.autoUpdateBeforeReset = none

/-- What the end of an apply leaves of the settings. -/
structure Finished (d : BlockDescriptor κ ν τ) (resetDone : Bool) (s t : CtxSettings κ ν τ) : Prop where
  stored : t.stored = s.stored
  autoUpdateParameters : t.autoUpdateParameters = s.autoUpdateParameters
  activeCtx : t.activeCtx = s.activeCtx
  contextActivated : t.contextActivated = s.contextActivated
  contextBeforeActivation : t.contextBeforeActivation = s.contextBeforeActivation
  autoUpdateBeforeReset : t.autoUpdateBeforeReset = s.autoUpdateBeforeReset
  stagedParameters : t.stagedParameters = s.stagedParameters
  members : t.members = if resetDone then (d.reset.getD id) s.members else s.members
  activeParameters : t.activeParameters = d.storeCurrentParameters s.members s.activeParameters
  defaultParameters : t.defaultParameters = s.defaultParameters ∨
    t.defaultParameters = d.storeCurrentParameters s.members s.defaultParameters

omit [LinearOrder κ] [DecidableEq ν] in
theorem finishApply_finished (s : CtxSettings κ ν τ) (batch : Batch κ ν) (resetDone : Bool) (applied : Applied ν τ)
    (forwardParameters : PropertyMap ν) (callbackRefusal : Option (PropertyMap ν × String)) :
    Finished d resetDone s (s.finishApply d batch resetDone applied forwardParameters callbackRefusal).2 := by
  refine ⟨rfl, rfl, rfl, rfl, rfl, rfl, rfl, rfl, rfl, ?_⟩
  unfold finishApply
  dsimp only
  split
  · exact Or.inr rfl
  · exact Or.inl rfl

/-- The settings when the callback is called, and the values that it gets. -/
def beforeCallback (d : BlockDescriptor κ ν τ) (s : CtxSettings κ ν τ) (batch : Batch κ ν) (failed : PropertyMap ν) :
    CtxSettings κ ν τ :=
  { s with members := (s.applyEntries d batch.parameters failed).members }.updateActiveParameters d

def callbackSettings (d : BlockDescriptor κ ν τ) (s : CtxSettings κ ν τ) (batch : Batch κ ν) (failed : PropertyMap ν) :
    PropertyMap ν :=
  s.newSettings d (d.storeCurrentParameters s.members ∅) (s.applyEntries d batch.parameters failed).staged
    batch.contextActivated

/-- A batch ends without a refusal by the callback, or the refusal is undone and then returned or thrown. -/
theorem applyBatch_cases (s : CtxSettings κ ν τ) (batch : Batch κ ν) (failed : PropertyMap ν) (resetDone : Bool)
    (now : Nat) :
    (∃ members result t, s.applyBatch d batch failed resetDone now = (.ok result, t) ∧
        result.callbackRefusal = none ∧
        result.failedParameters.lookup = (s.applyEntries d batch.parameters failed).failedParameters.lookup ∧
        (members = (s.beforeCallback d batch failed).members ∨
          ∃ settingsChanged, d.settingsChanged = some settingsChanged ∧
            members = (settingsChanged (s.beforeCallback d batch failed).members (d.storeCurrentParameters s.members ∅)
              (s.callbackSettings d batch failed)).1) ∧
        Finished d resetDone { s.beforeCallback d batch failed with members := members } t) ∨
      ∃ settingsChanged members error, d.settingsChanged = some settingsChanged ∧
        settingsChanged (s.beforeCallback d batch failed).members (d.storeCurrentParameters s.members ∅)
          (s.callbackSettings d batch failed) = (members, .error error) ∧
        let undone := { s.beforeCallback d batch failed with members := members }.undo d batch
          (d.storeCurrentParameters s.members ∅) (s.callbackSettings d batch failed) now
        ((∃ result t, s.applyBatch d batch failed resetDone now = (.ok result, t) ∧
            result.callbackRefusal = some (s.callbackSettings d batch failed, error) ∧ Finished d resetDone undone t) ∨
          s.applyBatch d batch failed resetDone now = (.error (.settingsChanged error), undone)) := by
  unfold applyBatch
  dsimp only
  have hunion : ∀ f : PropertyMap ν, (f ∪ (∅ : PropertyMap ν)).lookup = f.lookup := fun f => by rw [AList.union_empty]
  have hquiet := finishApply_finished (d := d) (s.beforeCallback d batch failed) batch resetDone
    (s.applyEntries d batch.parameters failed) ∅ none
  split
  · exact Or.inl ⟨_, _, _, rfl, rfl, hunion _, Or.inl rfl, hquiet⟩
  · next settingsChanged hcallback =>
    split
    · exact Or.inl ⟨_, _, _, rfl, rfl, hunion _, Or.inl rfl, hquiet⟩
    · split
      · next members forward hcall =>
        refine Or.inl ⟨members, _, _, rfl, rfl, hunion _, Or.inr ⟨settingsChanged, hcallback, ?_⟩,
          finishApply_finished { s.beforeCallback d batch failed with members := members } batch resetDone
            (s.applyEntries d batch.parameters failed) forward none⟩
        exact (congrArg Prod.fst hcall).symm
      · next members error hcall =>
        refine Or.inr ⟨settingsChanged, members, error, hcallback, hcall, ?_⟩
        split
        · refine Or.inl ⟨_, _, rfl, rfl, ?_⟩
          exact finishApply_finished _ batch resetDone
            ((s.applyEntries d batch.parameters failed).withdraw (s.callbackSettings d batch failed)) ∅
            (some (s.callbackSettings d batch failed, error))
        · exact Or.inr rfl

/-! ### The values that a refusal puts back -/

/-- The members and the values of stored sets may differ, and nothing else. -/
structure SameSets (s t : CtxSettings κ ν τ) : Prop where
  contexts : ∀ context, (setsOf t.stored context).map (·.context) = (setsOf s.stored context).map (·.context)
  mem_stored : ∀ context, context ∈ t.stored ↔ context ∈ s.stored
  defaultParameters : t.defaultParameters = s.defaultParameters
  autoUpdateParameters : t.autoUpdateParameters = s.autoUpdateParameters
  activeCtx : t.activeCtx = s.activeCtx
  contextActivated : t.contextActivated = s.contextActivated
  contextBeforeActivation : t.contextBeforeActivation = s.contextBeforeActivation
  autoUpdateBeforeReset : t.autoUpdateBeforeReset = s.autoUpdateBeforeReset
  stagedParameters : t.stagedParameters = s.stagedParameters
  activeParameters : t.activeParameters = s.activeParameters

omit [DecidableEq ν] in
theorem SameSets.refl (s : CtxSettings κ ν τ) : SameSets s s :=
  ⟨fun _ => rfl, fun _ => Iff.rfl, rfl, rfl, rfl, rfl, rfl, rfl, rfl, rfl⟩

omit [DecidableEq ν] in
theorem SameSets.trans {u : CtxSettings κ ν τ} (h : SameSets s t) (h' : SameSets t u) : SameSets s u where
  contexts := fun context => (h'.contexts context).trans (h.contexts context)
  mem_stored := fun context => (h'.mem_stored context).trans (h.mem_stored context)
  defaultParameters := h'.defaultParameters.trans h.defaultParameters
  autoUpdateParameters := h'.autoUpdateParameters.trans h.autoUpdateParameters
  activeCtx := h'.activeCtx.trans h.activeCtx
  contextActivated := h'.contextActivated.trans h.contextActivated
  contextBeforeActivation := h'.contextBeforeActivation.trans h.contextBeforeActivation
  autoUpdateBeforeReset := h'.autoUpdateBeforeReset.trans h.autoUpdateBeforeReset
  stagedParameters := h'.stagedParameters.trans h.stagedParameters
  activeParameters := h'.activeParameters.trans h.activeParameters

omit [DecidableEq ν] in
theorem modifySet_contexts (ctx : SettingsCtx κ) (f : PropertyMap ν → PropertyMap ν) (vec : List (CtxSettingsPair κ ν)) :
    (modifySet ctx f vec).map (·.context) = vec.map (·.context) := by
  induction vec with
  | nil => rfl
  | cons pair vec ih =>
    unfold modifySet
    split
    · rfl
    · rw [List.map_cons, List.map_cons, ih]

omit [DecidableEq ν] in
theorem mem_modifySet {ctx : SettingsCtx κ} {f : PropertyMap ν → PropertyMap ν} {vec : List (CtxSettingsPair κ ν)}
    {pair : CtxSettingsPair κ ν} (h : pair ∈ modifySet ctx f vec) :
    pair ∈ vec ∨ ∃ old ∈ vec, pair = ⟨old.context, f old.settings⟩ := by
  induction vec with
  | nil => cases h
  | cons first vec ih =>
    unfold modifySet at h
    split at h
    · rcases List.mem_cons.mp h with rfl | h
      · exact Or.inr ⟨first, .head _, rfl⟩
      · exact Or.inl (.tail _ h)
    · rcases List.mem_cons.mp h with rfl | h
      · exact Or.inl (.head _)
      · rcases ih h with h | ⟨old, hold, rfl⟩
        · exact Or.inl (.tail _ h)
        · exact Or.inr ⟨old, .tail _ hold, rfl⟩

theorem setsOf_restoreStored (stored : StoredParameters κ ν) (batchCtx : SettingsCtx κ) (key : Key)
    (refusedValue previous : ν) (context : κ) :
    setsOf (restoreStored stored batchCtx key refusedValue previous) context =
      if context = batchCtx.context then
        modifySet batchCtx
          (fun settings => if settings.lookup key = some refusedValue then settings.insert key previous else settings)
          (setsOf stored context)
      else
        setsOf stored context := by
  rw [setsOf, restoreStored, AList.lookup_mapValues, setsOf]
  cases stored.lookup context with
  | none =>
    split <;> rfl
  | some vec =>
    rw [Option.map_some, Option.getD_some, Option.getD_some]

theorem restoreEntry_sameSets (s : CtxSettings κ ν τ) (oldSettings : PropertyMap ν) (batchCtx : SettingsCtx κ)
    (contextActivated : Bool) (key : Key) (refusedValue : ν) :
    SameSets s (s.restoreEntry d oldSettings batchCtx contextActivated key refusedValue) := by
  unfold restoreEntry
  split
  · next m previous _ _ =>
    split
    · exact SameSets.refl s
    · refine ⟨fun context => ?_, fun context => ?_, rfl, rfl, rfl, rfl, rfl, rfl, rfl, rfl⟩
      · dsimp only
        split
        · rfl
        · rw [setsOf_restoreStored]
          split
          · exact modifySet_contexts _ _ _
          · rfl
      · dsimp only
        split
        · exact Iff.rfl
        · exact AList.mem_mapValues
  · exact SameSets.refl s

theorem restoreEntry_wellFormed (hw : s.WellFormed d) {oldSettings : PropertyMap ν} (hold : d.Converted oldSettings)
    (batchCtx : SettingsCtx κ) (contextActivated : Bool) (key : Key) (refusedValue : ν) :
    (s.restoreEntry d oldSettings batchCtx contextActivated key refusedValue).WellFormed d := by
  have hsame := s.restoreEntry_sameSets (d := d) oldSettings batchCtx contextActivated key refusedValue
  refine ⟨fun context pair hpair => ?_, fun context pair hpair => ?_, by rw [hsame.defaultParameters]; exact hw.defaults⟩
  · have hctx : pair.context ∈ (setsOf s.stored context).map (·.context) := by
      rw [← hsame.contexts context]
      exact List.mem_map_of_mem hpair
    obtain ⟨old, hmem, heq⟩ := List.mem_map.mp hctx
    rw [← heq]
    exact hw.context context old hmem
  · unfold restoreEntry at hpair
    split at hpair
    · next m previous hm hprevious =>
      split at hpair
      · exact hw.stored context pair hpair
      · dsimp only at hpair
        split at hpair
        · exact hw.stored context pair hpair
        · rw [setsOf_restoreStored] at hpair
          split at hpair
          · rcases mem_modifySet hpair with hpair | ⟨old, hmem, rfl⟩
            · exact hw.stored context pair hpair
            · dsimp only
              split
              · refine (hw.stored context old hmem).insert fun m' hm' => ?_
                rw [BlockDescriptor.writable_member hm] at hm'
                cases hm'
                exact hold key m previous hm hprevious
              · exact hw.stored context old hmem
          · exact hw.stored context pair hpair
    · exact hw.stored context pair hpair

theorem restoreRefused_sameSets (s : CtxSettings κ ν τ) (refused oldSettings : PropertyMap ν) (batchCtx : SettingsCtx κ)
    (contextActivated : Bool) : SameSets s (s.restoreRefused d refused oldSettings batchCtx contextActivated) := by
  unfold restoreRefused
  induction refused.entries generalizing s with
  | nil => exact SameSets.refl s
  | cons e entries ih =>
    exact (s.restoreEntry_sameSets oldSettings batchCtx contextActivated e.1 e.2).trans (ih _)

theorem restoreRefused_wellFormed (hw : s.WellFormed d) {oldSettings : PropertyMap ν} (hold : d.Converted oldSettings)
    (refused : PropertyMap ν) (batchCtx : SettingsCtx κ) (contextActivated : Bool) :
    (s.restoreRefused d refused oldSettings batchCtx contextActivated).WellFormed d := by
  unfold restoreRefused
  induction refused.entries generalizing s with
  | nil => exact hw
  | cons e entries ih => exact ih (restoreEntry_wellFormed hw hold batchCtx contextActivated e.1 e.2)

/-- A refused member takes back its previous value. -/
theorem restoreRefused_members (s : CtxSettings κ ν τ) {m : Member ν (τ k)} (hm : d.writable k = some m)
    {refused oldSettings : PropertyMap ν} {x : τ k} (hold : oldSettings.lookup k = some (m.read x))
    (hx : m.validate x = true) (hk : k ∈ refused) (batchCtx : SettingsCtx κ) (contextActivated : Bool) :
    (s.restoreRefused d refused oldSettings batchCtx contextActivated).members k = x := by
  have self : ∀ (s : CtxSettings κ ν τ) (v : ν),
      (s.restoreEntry d oldSettings batchCtx contextActivated k v).members k = x := by
    intro s v
    simp only [restoreEntry, hm, hold, m.applyStaged_read hx, update_self]
  have other : ∀ (s : CtxSettings κ ν τ) (key : Key) (v : ν), s.members k = x →
      (s.restoreEntry d oldSettings batchCtx contextActivated key v).members k = x := by
    intro s key v hs
    by_cases heq : k = key
    · subst heq
      exact self s v
    · unfold restoreEntry
      split
      · split
        · exact hs
        · exact (update_of_ne heq _ _).trans hs
      · exact hs
  have keep : ∀ (entries : List (Sigma fun _ : Key => ν)) (s : CtxSettings κ ν τ), s.members k = x →
      (entries.foldl (fun s e => s.restoreEntry d oldSettings batchCtx contextActivated e.1 e.2) s).members k = x := by
    intro entries
    induction entries with
    | nil => exact fun s hs => hs
    | cons e entries ih => exact fun s hs => ih _ (other s e.1 e.2 hs)
  have hkeys : k ∈ refused.entries.map Sigma.fst := AList.mem_keys.mp hk
  unfold restoreRefused
  generalize refused.entries = entries at hkeys
  induction entries generalizing s with
  | nil => cases hkeys
  | cons e entries ih =>
    rw [List.foldl_cons]
    rcases List.mem_cons.mp hkeys with heq | hkeys
    · refine keep entries _ ?_
      rw [← heq]
      exact self s e.2
    · exact ih _ hkeys

end GnuRadio.Settings.CtxSettings
