import GnuRadio.Theorems.Settings.Apply

/-! What holds in every run of a block's settings: stored values are well formed, the active context is stored, an
    activation of another context is recorded until the next apply, and the pending values are staged. -/

namespace GnuRadio.Settings

variable {κ ν : Type} {τ : Key → Type} [LinearOrder κ]

namespace CtxSettings

variable {d : BlockDescriptor κ ν τ} {s t : CtxSettings κ ν τ} {before best ctx : SettingsCtx κ} {pending : PropertyMap ν}

/-- No other context was activated since `before` was active, or the record holds a set of its context. -/
def Recorded (s : CtxSettings κ ν τ) (before : SettingsCtx κ) : Prop :=
  (s.contextActivated = false ∧ s.contextBeforeActivation = none ∧ s.activeCtx.context = before.context) ∨
    (s.contextActivated = true ∧ ∃ earlier, s.contextBeforeActivation = some earlier ∧ earlier.context = before.context)

/-- The settings of a run, with the set that was active when the batch began and the pending values. -/
structure Inv (d : BlockDescriptor κ ν τ) (s : CtxSettings κ ν τ) (before : SettingsCtx κ) (pending : PropertyMap ν) :
    Prop where
  wellFormed : s.WellFormed d
  active : s.activeCtx.context ∈ s.stored
  beforeStored : before.context ∈ s.stored
  beforeReset : s.autoUpdateBeforeReset = none
  recorded : s.Recorded before
  pendingStaged : ∀ k m v, d.writable k = some m → pending.lookup k = some v →
    s.stagedParameters.lookup k = some v ∧ ∃ x, v = m.read x

namespace Inv

/-- The pending values only get fewer. -/
theorem filter (h : Inv d s before pending) (p : Key → ν → Bool) : Inv d s before (pending.filter p) :=
  { h with pendingStaged := fun k m v hm hv => h.pendingStaged k m v hm (AList.mem_lookup_filter.mp hv).1 }

theorem setStaged (h : Inv d s before pending) (parameters : PropertyMap ν) :
    Inv d (s.setStaged d parameters).2 before
      (match (s.setStaged d parameters).1 with
        | .ok _ => pending.filter fun key _ => key ∉ parameters
        | .error _ => pending) := by
  obtain ⟨refusal, heq⟩ | ⟨ret, converted, heq, hkeys⟩ := setStaged_cases (d := d) s parameters
  · rw [heq]
    exact h
  · rw [heq]
    refine ⟨h.wellFormed.of_eq rfl rfl, h.active, h.beforeStored, h.beforeReset, h.recorded, fun k m v hm hv => ?_⟩
    obtain ⟨hv, hk⟩ := AList.mem_lookup_filter.mp hv
    obtain ⟨hstaged, hx⟩ := h.pendingStaged k m v hm hv
    refine ⟨?_, hx⟩
    have hnot : k ∉ converted := fun hmem => absurd (hkeys k hmem).1 (by simpa using hk)
    exact (AList.lookup_union_right hnot).trans hstaged

/-- The values that a set of another context takes. -/
theorem lookup_activatedValues {values : PropertyMap ν} (hvalues : s.storedSet best = some values) {k : Key} {v : ν}
    (hv : (s.activatedValues d best).lookup k = some v) :
    values.lookup k = some v ∧
      if best.context = s.activeCtx.context then k ∉ s.followedIn d best else k ∉ s.stagedParameters := by
  rw [activatedValues, hvalues] at hv
  obtain ⟨hv, hk⟩ := AList.mem_lookup_filter.mp hv
  refine ⟨hv, ?_⟩
  split
  · next h => simpa [h, followedIn] using hk
  · next h => simpa [h] using hk

theorem activateContext (h : Inv d s before pending) (ctx : SettingsCtx κ) (now : Nat) :
    Inv d (s.activateContext d ctx now).2 before (s.pendingAfter d (s.activateContext d ctx now).2 pending) := by
  obtain ⟨⟨found, heq⟩, -⟩ | ⟨best, values, hfind, hne, hvalues, hcase⟩ := activateContext_cases h.wellFormed ctx now
  · rw [heq, pendingAfter, if_pos rfl]
    exact h
  · obtain ⟨hmem, values', hvalues', hconv⟩ := h.wellFormed.find hfind
    rw [hvalues] at hvalues'
    cases hvalues'
    rcases hcase with ⟨hctx, converted, heq, hlookup⟩ | ⟨hctx, heq⟩
    · have hstaging := s.activateContext_staging d ctx now
      rw [heq] at hstaging ⊢
      rw [pendingAfter, if_neg hne]
      have hact : (s.withAutoUpdateEntry d best).contextActivated = s.contextActivated := by
        unfold withAutoUpdateEntry
        split <;> rfl
      have hbef : (s.withAutoUpdateEntry d best).contextBeforeActivation = s.contextBeforeActivation := by
        unfold withAutoUpdateEntry
        split <;> rfl
      refine ⟨hstaging.wellFormed h.wellFormed, ?_, ?_, ?_, ?_, fun k m v hm hv => ?_⟩
      · rw [hstaging.stored]
        exact hmem
      · rw [hstaging.stored]
        exact h.beforeStored
      · rw [hstaging.autoUpdateBeforeReset]
        exact h.beforeReset
      · rcases h.recorded with ⟨ha, hb, hc⟩ | ⟨ha, earlier, hb, hc⟩
        · exact Or.inl ⟨hact.trans ha, hbef.trans hb, hctx.trans hc⟩
        · exact Or.inr ⟨hact.trans ha, earlier, hbef.trans hb, hc⟩
      · obtain ⟨hv, hk⟩ := lookup_activatedValues hvalues hv
        rw [if_pos hctx] at hk
        refine ⟨?_, hconv k m v hm hv⟩
        have hl : converted.lookup k = some v := by
          rw [hlookup, if_pos ⟨by rw [hm]; rfl, hk⟩, hv]
        have hunion := AList.lookup_union converted (s.withAutoUpdateEntry d best).stagedParameters k
        rw [hl] at hunion
        exact hunion
    · have hmoved : (s.moveTo best values).activeCtx ≠ s.activeCtx := hne
      rw [heq, pendingAfter, if_neg hmoved]
      refine ⟨h.wellFormed.of_eq rfl rfl, hmem, h.beforeStored, h.beforeReset, ?_, fun k m v hm hv => ?_⟩
      · refine Or.inr ⟨rfl, ?_⟩
        unfold moveTo
        dsimp only
        rcases h.recorded with ⟨ha, -, hc⟩ | ⟨ha, earlier, hb, hc⟩
        · rw [ha]
          exact ⟨s.activeCtx, rfl, hc⟩
        · rw [ha, hb]
          exact ⟨earlier, rfl, hc⟩
      · obtain ⟨hv, hk⟩ := lookup_activatedValues hvalues hv
        rw [if_neg hctx] at hk
        refine ⟨?_, hconv k m v hm hv⟩
        exact (AList.lookup_union_right hk).trans hv

end Inv

/-! ### Tags -/

variable [DecidableEq ν]

/-- What a tag's keys keep of the settings. -/
structure TagKept (d : BlockDescriptor κ ν τ) (keys : List Key) (s t : CtxSettings κ ν τ) : Prop where
  staging : Staging s t
  sameActive : SameActive s t
  lookup : ∀ k, (d.member k).isSome → k ∉ keys → t.stagedParameters.lookup k = s.stagedParameters.lookup k

theorem stageTag_kept (s : CtxSettings κ ν τ) (map : PropertyMap ν) (hasContext activeCtxChanged : Bool)
    (ctx : SettingsCtx κ) (present : Nat) :
    TagKept d (s.coupledKeys d map activeCtxChanged (s.followedKeys d ctx present).1) s
      (s.stageTag d map hasContext activeCtxChanged ctx present) := by
  refine s.stageTag_keeps d map hasContext activeCtxChanged ctx present ?_ ?_ ?_ ?_ ?_
  · obtain ⟨hsame, hstaged⟩ := s.followedKeys_sameActive d ctx present
    exact ⟨s.followedKeys_staging d ctx present, hsame, fun k _ _ => by rw [hstaged]⟩
  · intro t ht key value
    refine ⟨ht.staging.trans (t.stageControlKey_staging key value),
      ht.sameActive.trans (t.stageControlKey_sameActive key value), fun k hk hnot => ?_⟩
    exact (t.stageControlKey_lookup d key value hk).trans (ht.lookup k hk hnot)
  · intro t ht e he
    refine ⟨ht.staging.trans (t.stageCoupled_staging d map activeCtxChanged _ e.1 e.2),
      ht.sameActive.trans (t.stageCoupled_sameActive d map activeCtxChanged _ e.1 e.2), fun k hk hnot => ?_⟩
    refine (stageCoupled_lookup d ht.staging.activeParameters map activeCtxChanged _ e.1 e.2 k fun heq => ?_).trans
      (ht.lookup k hk hnot)
    subst heq
    rw [ht.staging.tagCouplings] at he
    by_contra hstages
    refine hnot (List.mem_map.mpr ⟨e, List.mem_filter.mpr ⟨he, ?_⟩, rfl⟩)
    simpa using hstages
  · exact fun t ht => ht.staging.tagCouplings
  · intro t changed ht
    have hsame : SameActive t { t with changed := changed } := ⟨rfl, rfl, rfl⟩
    exact ⟨ht.staging.with_changed changed, ht.sameActive.trans hsame, ht.lookup⟩

namespace Inv

omit [DecidableEq ν] in
/-- The tagged keys are no part of what a run keeps. -/
theorem withTaggedKeys (h : Inv d s before pending) (taggedKeys : Finset Key) :
    Inv d { s with taggedKeys := taggedKeys } before pending :=
  ⟨h.wellFormed.of_eq rfl rfl, h.active, h.beforeStored, h.beforeReset, h.recorded, h.pendingStaged⟩

omit [DecidableEq ν] in
theorem tagKept (h : Inv d s before pending) {keys : List Key} (hk : TagKept d keys s t) :
    Inv d t before (pending.filter fun key _ => key ∉ keys) := by
  refine ⟨hk.staging.wellFormed h.wellFormed, ?_, ?_, ?_, ?_, fun k m v hm hv => ?_⟩
  · rw [hk.sameActive.activeCtx, hk.staging.stored]
    exact h.active
  · rw [hk.staging.stored]
    exact h.beforeStored
  · rw [hk.staging.autoUpdateBeforeReset]
    exact h.beforeReset
  · unfold Recorded
    rw [hk.sameActive.activeCtx, hk.sameActive.contextActivated, hk.sameActive.contextBeforeActivation]
    exact h.recorded
  · obtain ⟨hv, hnot⟩ := AList.mem_lookup_filter.mp hv
    obtain ⟨hstaged, hx⟩ := h.pendingStaged k m v hm hv
    refine ⟨?_, hx⟩
    rw [hk.lookup k (by rw [BlockDescriptor.writable_member hm]; rfl) (by simpa using hnot)]
    exact hstaged

theorem activateFromTag (h : Inv d s before pending) (ctx : SettingsCtx κ) (now : Nat) :
    Inv d (s.activateFromTag d ctx now).2 before (s.pendingAfter d (s.activateFromTag d ctx now).2 pending) := by
  have hactivated := h.activateContext ctx now
  obtain ⟨keys, heq⟩ : ∃ keys, (s.activateFromTag d ctx now).2 =
      { (s.activateContext d ctx now).2 with taggedKeys := keys } := by
    unfold CtxSettings.activateFromTag
    split
    · next t ht => exact ⟨t.taggedKeys, by rw [ht]⟩
    · next t ht => exact ⟨_, by rw [ht]⟩
  rw [heq]
  exact hactivated.withTaggedKeys keys

theorem autoUpdate (h : Inv d s before pending) (map : PropertyMap ν) (now present : Nat) :
    Inv d (s.autoUpdate d map now present).2 before
      ((s.pendingAfter d (s.autoUpdate d map now present).2 pending).filter fun key _ =>
        key ∉ s.tagKeys d map now present) := by
  cases hctx : createSettingsCtxFromTag d map now with
  | none =>
    have hkept := s.stageTag_kept (d := d) map false false s.activeCtx present
    have hupdate : (s.autoUpdate d map now present).2 = s.stageTag d map false false s.activeCtx present := by
      rw [CtxSettings.autoUpdate, hctx]
    have hkeys : s.tagKeys d map now present = s.coupledKeys d map false (s.followedKeys d s.activeCtx present).1 := by
      rw [tagKeys, hctx]
    rw [hupdate, hkeys, pendingAfter, if_pos hkept.sameActive.activeCtx]
    exact h.tagKept hkept
  | some tagCtx =>
    have hactivated := h.activateFromTag tagCtx now
    rcases hact : s.activateFromTag d tagCtx now with ⟨refusal | best, t⟩
    · have hupdate : (s.autoUpdate d map now present).2 = t := by
        rw [CtxSettings.autoUpdate, hctx]
        dsimp only
        rw [hact]
      rw [hact] at hactivated
      rw [hupdate]
      exact hactivated.filter _
    · let ctx := best.getD t.activeCtx
      have hkept := t.stageTag_kept (d := d) map true (s.activeCtx ≠ ctx) ctx present
      have hupdate : (s.autoUpdate d map now present).2 = t.stageTag d map true (s.activeCtx ≠ ctx) ctx present := by
        rw [CtxSettings.autoUpdate, hctx]
        dsimp only
        rw [hact]
      have hkeys : s.tagKeys d map now present =
          t.coupledKeys d map (s.activeCtx ≠ ctx) (t.followedKeys d ctx present).1 := by
        rw [tagKeys, hctx]
        dsimp only
        rw [hact]
      rw [hact] at hactivated
      rw [hupdate, hkeys, pendingAfter, hkept.sameActive.activeCtx, ← pendingAfter]
      exact hactivated.tagKept hkept

end Inv

/-! ### Sets -/

omit [DecidableEq ν] in
theorem mem_stored_removeExpired {context : κ} (h : context ∈ s.stored) (now : Nat) :
    context ∈ (s.removeExpiredStoredParameters d now).stored :=
  AList.mem_mapValues.mpr h

omit [DecidableEq ν] in
theorem mem_stored_addStored {context : κ} (h : context ∈ s.stored) (newParameters : PropertyMap ν)
    (ctx : SettingsCtx κ) : context ∈ (s.addStoredParameters d newParameters ctx).stored :=
  (AList.mem_insert _).mpr (Or.inr h)

omit [DecidableEq ν] in
theorem mem_stored_set {context : κ} (h : context ∈ s.stored) (parameters : PropertyMap ν) (ctx : SettingsCtx κ)
    (now pruneTime : Nat) : context ∈ (s.set d parameters ctx now pruneTime).2.stored := by
  unfold CtxSettings.set
  split
  · exact h
  · exact AList.mem_mapValues.mpr ((AList.mem_insert _).mpr (Or.inr h))

omit [DecidableEq ν] in
theorem Inv.set (h : Inv d s before pending) (parameters : PropertyMap ν) (ctx : SettingsCtx κ) (now pruneTime : Nat) :
    Inv d (s.set d parameters ctx now pruneTime).2 before pending := by
  have hw := h.wellFormed.set parameters ctx now pruneTime
  have hactive := mem_stored_set (d := d) h.active parameters ctx now pruneTime
  have hbefore := mem_stored_set (d := d) h.beforeStored parameters ctx now pruneTime
  unfold CtxSettings.set at hw hactive hbefore ⊢
  split
  · exact h
  · next taken htaken =>
    rw [htaken] at hw hactive hbefore
    exact ⟨hw, hactive, hbefore, h.beforeReset, h.recorded, h.pendingStaged⟩

/-! ### Applies -/

/-- The settings between two batches. -/
structure Rest (d : BlockDescriptor κ ν τ) (s : CtxSettings κ ν τ) : Prop where
  wellFormed : s.WellFormed d
  active : s.activeCtx.context ∈ s.stored
  idle : s.Idle

omit [DecidableEq ν] in
theorem Rest.inv (h : Rest d s) : Inv d s s.activeCtx ∅ where
  wellFormed := h.wellFormed
  active := h.active
  beforeStored := h.active
  beforeReset := h.idle.beforeReset
  recorded := Or.inl ⟨h.idle.activated, h.idle.before, rfl⟩
  pendingStaged := fun k m v _ hv => by
    rw [AList.lookup_empty] at hv
    cases hv

omit [DecidableEq ν] in
theorem Inv.takeBatch (h : Inv d s before pending) : Rest d s.takeBatch.2 :=
  ⟨h.wellFormed.of_eq rfl rfl, h.active, ⟨rfl, rfl, rfl, rfl⟩⟩

omit [DecidableEq ν] in
theorem Rest.resetBatch (h : Rest d s) (batch : Batch κ ν) (readings : Readings) :
    Rest d (s.resetBatch d batch readings).2 := by
  obtain ⟨-, heq⟩ | ⟨-, -, heq⟩ | ⟨-, -, found, t, hact, heq⟩ := resetBatch_cases h.wellFormed batch readings
  · rw [heq]
    exact h
  · rw [heq]
    exact h
  · have hadd : Rest d (s.addStoredParameters d s.defaultParameters ⟨readings.reset, d.defaultContext⟩) :=
      ⟨h.wellFormed.addStored h.wellFormed.defaults _, mem_stored_addStored h.active _ _,
        ⟨h.idle.staged, h.idle.activated, h.idle.before, h.idle.beforeReset⟩⟩
    have hinv := hadd.inv.activateContext ⟨0, d.defaultContext⟩ readings.activation
    rw [hact] at hinv
    rw [heq]
    have hcleared : (t.followAgain d ⟨readings.reset, d.defaultContext⟩).cleared.WellFormed d := hinv.wellFormed.of_eq rfl rfl
    exact ⟨hcleared.removeExpired readings.pruning, mem_stored_removeExpired hinv.active readings.pruning,
      ⟨rfl, rfl, rfl, rfl⟩⟩

omit [LinearOrder κ] [DecidableEq ν] in
theorem converted_oldSettings (members : Members τ) : d.Converted (d.storeCurrentParameters members ∅) :=
  BlockDescriptor.Converted.empty.storeCurrentParameters members

omit [DecidableEq ν] in
theorem Finished.wellFormed {resetDone : Bool} (hf : Finished d resetDone s t) (hw : s.WellFormed d) : t.WellFormed d := by
  refine ⟨?_, ?_, ?_⟩
  · rw [hf.stored]
    exact hw.context
  · rw [hf.stored]
    exact hw.stored
  · rcases hf.defaultParameters with hd | hd
    · rw [hd]
      exact hw.defaults
    · rw [hd]
      exact hw.defaults.storeCurrentParameters _

omit [DecidableEq ν] in
theorem Finished.rest {resetDone : Bool} (hf : Finished d resetDone s t) (h : Rest d s) : Rest d t := by
  refine ⟨hf.wellFormed h.wellFormed, ?_, ?_⟩
  · rw [hf.activeCtx, hf.stored]
    exact h.active
  · exact ⟨hf.stagedParameters.trans h.idle.staged, hf.contextActivated.trans h.idle.activated,
      hf.contextBeforeActivation.trans h.idle.before, hf.autoUpdateBeforeReset.trans h.idle.beforeReset⟩

omit [DecidableEq ν] in
theorem SameSets.rest (hs : SameSets s t) (hw : t.WellFormed d) (h : Rest d s) : Rest d t := by
  refine ⟨hw, ?_, ⟨hs.stagedParameters.trans h.idle.staged, hs.contextActivated.trans h.idle.activated,
    hs.contextBeforeActivation.trans h.idle.before, hs.autoUpdateBeforeReset.trans h.idle.beforeReset⟩⟩
  rw [hs.activeCtx, hs.mem_stored]
  exact h.active

omit [DecidableEq ν] in
theorem Rest.restoreContext (h : Rest d s) (earlier refused : SettingsCtx κ) (now : Nat) :
    Rest d (s.restoreContext d earlier refused now) := by
  refine ⟨h.wellFormed.of_eq rfl rfl, ?_, ⟨h.idle.staged, h.idle.activated, ?_, h.idle.beforeReset⟩⟩
  · unfold CtxSettings.restoreContext
    dsimp only
    split
    · split
      · next hmem => exact hmem
      · cases hfind : s.findBestMatchSettingsCtx d ⟨now, d.defaultContext⟩ with
        | none => exact h.active
        | some best => exact (h.wellFormed.find hfind).1
    · exact h.active
  · unfold CtxSettings.restoreContext
    dsimp only
    rw [h.idle.before, if_neg (by simp)]

theorem Rest.undo (h : Rest d s) (batch : Batch κ ν) {oldSettings : PropertyMap ν} (hold : d.Converted oldSettings)
    (refused : PropertyMap ν) (now : Nat) : Rest d (s.undo d batch oldSettings refused now) := by
  have hrefused : Rest d (s.restoreRefused d refused oldSettings batch.batchCtx batch.contextActivated) :=
    (s.restoreRefused_sameSets refused oldSettings batch.batchCtx batch.contextActivated).rest
      (restoreRefused_wellFormed h.wellFormed hold refused batch.batchCtx batch.contextActivated) h
  have hauto : ∀ {u : CtxSettings κ ν τ}, Rest d u → ∀ autoUpdate activeParameters,
      Rest d { u with autoUpdateParameters := autoUpdate, activeParameters := activeParameters } := by
    intro u hu autoUpdate activeParameters
    exact ⟨hu.wellFormed.of_eq rfl rfl, hu.active, hu.idle.1, hu.idle.2, hu.idle.3, hu.idle.4⟩
  unfold CtxSettings.undo
  dsimp only
  cases batch.contextBefore with
  | none => cases batch.autoUpdateBefore <;> exact hauto hrefused _ _
  | some earlier =>
    have hcontext := hrefused.restoreContext earlier batch.batchCtx now
    cases batch.autoUpdateBefore <;> exact hauto hcontext _ _

theorem Rest.applyBatch (h : Rest d s) (batch : Batch κ ν) (failed : PropertyMap ν) (resetDone : Bool) (now : Nat) :
    Rest d (s.applyBatch d batch failed resetDone now).2 := by
  have hcalled : ∀ members : Members τ, Rest d { s.beforeCallback d batch failed with members := members } :=
    fun members => ⟨h.wellFormed.of_eq rfl rfl, h.active, h.idle.1, h.idle.2, h.idle.3, h.idle.4⟩
  obtain ⟨members, result, t, heq, -, -, -, hf⟩ | ⟨_, members, error, -, -, hcase⟩ :=
    applyBatch_cases (d := d) s batch failed resetDone now
  · rw [heq]
    exact hf.rest (hcalled members)
  · have hundo := (hcalled members).undo batch (converted_oldSettings s.members) (s.callbackSettings d batch failed) now
    rcases hcase with ⟨result, t, heq, -, hf⟩ | heq
    · rw [heq]
      exact hf.rest hundo
    · rw [heq]
      exact hundo

theorem Inv.applyStagedParameters (h : Inv d s before pending) (readings : Readings) :
    Rest d (s.applyStagedParameters d readings).2 := by
  have hreset := h.takeBatch.resetBatch s.takeBatch.1 readings
  unfold CtxSettings.applyStagedParameters
  split
  · next refusal t ht =>
    rw [ht] at hreset
    exact hreset
  · next failed batch t ht =>
    rw [ht] at hreset
    exact hreset.applyBatch batch failed _ readings.restored

/-! ### Runs -/

omit [DecidableEq ν] in
/-- A context that is stored is its own best match. -/
theorem WellFormed.find_context (hw : s.WellFormed d) (hmem : ctx.context ∈ s.stored)
    (h : s.findBestMatchSettingsCtx d ctx = some best) : best.context = ctx.context := by
  have hbest : findBestMatchCtx d.matchPred s.stored ctx.context = some ctx.context := if_pos hmem
  obtain ⟨context, hcontext, hbest'⟩ := Option.bind_eq_some_iff.mp h
  rw [hbest] at hcontext
  cases hcontext
  obtain ⟨pair, hpair, rfl⟩ := bestSettingsCtx_mem hbest'
  exact hw.context _ pair hpair

omit [DecidableEq ν] in
/-- The settings after `init()`. -/
theorem init_rest {members : Members τ} {tagCouplings : AList fun _ : Key => Key} {initBlockParameters : PropertyMap ν}
    {readings : InitReadings}
    (h : (CtxSettings.constructed d members tagCouplings).init d initBlockParameters readings = some t) :
    Inv d t t.activeCtx ∅ := by
  have hw := WellFormed.constructed (d := d) members tagCouplings
  let s₀ : CtxSettings κ ν τ := { CtxSettings.constructed d members tagCouplings with
    defaultParameters := d.storeCurrentParameters members ∅ }
  have hw₀ : s₀.WellFormed d := ⟨hw.context, hw.stored, converted_oldSettings members⟩
  have hw₁ := hw₀.set initBlockParameters ⟨0, d.defaultContext⟩ readings.set readings.pruning
  have hkeep : ∀ {u : CtxSettings κ ν τ}, Inv d u u.activeCtx ∅ → ∀ autoUpdate,
      Inv d { u with autoUpdateParameters := autoUpdate } u.activeCtx ∅ := fun hu autoUpdate =>
    ⟨hu.wellFormed.of_eq rfl rfl, hu.active, hu.beforeStored, hu.beforeReset, hu.recorded, hu.pendingStaged⟩
  unfold CtxSettings.init at h
  dsimp only at h
  generalize hset : CtxSettings.set d _ initBlockParameters ⟨0, d.defaultContext⟩ readings.set readings.pruning = result at h
  change s₀.set d initBlockParameters ⟨0, d.defaultContext⟩ readings.set readings.pruning = result at hset
  obtain ⟨refusal | notSet, s₁⟩ := result
  · cases h
  · rw [hset] at hw₁
    dsimp only at h hw₁
    split at h
    · -- the set stored the default context and left the rest alone
      have hs₁ : d.defaultContext ∈ s₁.stored ∧ s₁.activeCtx = ⟨0, d.defaultContext⟩ ∧ s₁.contextActivated = false ∧
          s₁.contextBeforeActivation = none ∧ s₁.autoUpdateBeforeReset = none := by
        unfold CtxSettings.set at hset
        split at hset
        · cases hset
        · cases hset
          refine ⟨AList.mem_mapValues.mpr ((AList.mem_insert _).mpr (Or.inl ?_)), rfl, rfl, rfl, rfl⟩
          unfold SettingsCtx.orNow
          split <;> rfl
      obtain ⟨hmem, hactive, hnot, hbefore, hreset⟩ := hs₁
      have hrest : ∀ {found u}, s₁.activateContext d ⟨0, d.defaultContext⟩ readings.activation = (.ok found, u) →
          Inv d u u.activeCtx ∅ := by
        intro found u hu
        obtain ⟨⟨found', heq⟩, -⟩ | ⟨best, values, hfind, -, -, ⟨hctx, converted, heq, -⟩ | ⟨hctx, -⟩⟩ :=
          activateContext_cases hw₁ ⟨0, d.defaultContext⟩ readings.activation
        · rw [hu] at heq
          cases heq
          refine ⟨hw₁, ?_, ?_, hreset, Or.inl ⟨hnot, hbefore, rfl⟩, fun k m v _ hv => ?_⟩
          · rw [hactive]
            exact hmem
          · rw [hactive]
            exact hmem
          · rw [AList.lookup_empty] at hv
            cases hv
        · have hstaging := s₁.activateContext_staging d ⟨0, d.defaultContext⟩ readings.activation
          rw [hu] at hstaging
          rw [hu] at heq
          have hsame := (s₁.withAutoUpdateEntry_sameActive d best).1
          cases heq
          have hbest : best.context ∈ s₁.stored := (hw₁.find hfind).1
          rw [← hstaging.stored] at hbest
          refine ⟨hstaging.wellFormed hw₁, hbest, hbest, ?_, Or.inl ⟨?_, ?_, rfl⟩, fun k m v _ hv => ?_⟩
          · exact hstaging.autoUpdateBeforeReset.trans hreset
          · exact hsame.contextActivated.trans hnot
          · exact hsame.contextBeforeActivation.trans hbefore
          · rw [AList.lookup_empty] at hv
            cases hv
        · refine absurd ?_ hctx
          rw [hw₁.find_context ?_ hfind, SettingsCtx.orNow_context, hactive]
          rw [SettingsCtx.orNow_context]
          exact hmem
      split at h
      · next hact =>
        have hinv := hrest hact
        split at h
        · cases h
          exact hkeep hinv _
        · cases h
          exact hinv
      · cases h
    · cases h

theorem Inv.reach {r : Run κ ν τ} (h : (Run.system d).Reachable r) : Inv d r.settings r.before r.pending := by
  refine h.invariant (I := fun r => Inv d r.settings r.before r.pending) ?_ ?_
  · rintro r ⟨members, tagCouplings, parameters, readings, hinit, hbefore, hpending⟩
    rw [hbefore, hpending]
    exact init_rest hinit
  · intro r a r' hr _ hs
    cases Option.some.inj hs
    cases a with
    | set parameters ctx now pruneTime => exact hr.set parameters ctx now pruneTime
    | setStaged parameters => exact hr.setStaged parameters
    | activateContext ctx now => exact hr.activateContext ctx now
    | autoUpdate map now present => exact hr.autoUpdate map now present
    | applyStagedParameters readings => exact (hr.applyStagedParameters readings).inv

end CtxSettings

end GnuRadio.Settings
