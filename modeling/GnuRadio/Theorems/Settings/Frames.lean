import GnuRadio.Settings.CtxSettings

/-! What staging, activations and tags leave as it is: the stored sets, the block's members and the active parameters. -/

namespace GnuRadio.Settings

theorem SettingsCtx.orNow_context {κ : Type} (ctx : SettingsCtx κ) (now : Nat) :
    (ctx.orNow now).context = ctx.context := by
  unfold SettingsCtx.orNow
  split <;> rfl

namespace CtxSettings

variable {κ ν : Type} {τ : Key → Type}
variable (d : BlockDescriptor κ ν τ) (s : CtxSettings κ ν τ)

/-- The state differs at most in what is staged and in the active context. -/
structure Staging (s t : CtxSettings κ ν τ) : Prop where
  stored : t.stored = s.stored
  defaultParameters : t.defaultParameters = s.defaultParameters
  autoUpdateBeforeReset : t.autoUpdateBeforeReset = s.autoUpdateBeforeReset
  tagCouplings : t.tagCouplings = s.tagCouplings
  activeParameters : t.activeParameters = s.activeParameters
  members : t.members = s.members

namespace Staging

variable {s t u : CtxSettings κ ν τ}

theorem refl (s : CtxSettings κ ν τ) : Staging s s := ⟨rfl, rfl, rfl, rfl, rfl, rfl⟩

theorem trans (h : Staging s t) (h' : Staging t u) : Staging s u where
  stored := h'.stored.trans h.stored
  defaultParameters := h'.defaultParameters.trans h.defaultParameters
  autoUpdateBeforeReset := h'.autoUpdateBeforeReset.trans h.autoUpdateBeforeReset
  tagCouplings := h'.tagCouplings.trans h.tagCouplings
  activeParameters := h'.activeParameters.trans h.activeParameters
  members := h'.members.trans h.members

theorem with_changed (h : Staging s t) (changed : Bool) : Staging s { t with changed := changed } :=
  ⟨h.stored, h.defaultParameters, h.autoUpdateBeforeReset, h.tagCouplings, h.activeParameters, h.members⟩

end Staging

theorem setStaged_staging (parameters : PropertyMap ν) : Staging s (s.setStaged d parameters).2 := by
  unfold setStaged
  split
  · exact Staging.refl s
  · exact ⟨rfl, rfl, rfl, rfl, rfl, rfl⟩

theorem stageControlKey_staging (key : Key) (value : ν) : Staging s (s.stageControlKey key value).1 := by
  unfold stageControlKey
  split
  · exact ⟨rfl, rfl, rfl, rfl, rfl, rfl⟩
  · split
    · exact ⟨rfl, rfl, rfl, rfl, rfl, rfl⟩
    · exact Staging.refl s

/-- A loop keeps what each of its turns keeps. -/
theorem stageEach_keeps {β : Type} {turn : CtxSettings κ ν τ → β → CtxSettings κ ν τ × Bool}
    {P : CtxSettings κ ν τ → Prop} {keys : List β} (h : ∀ s, P s → ∀ key ∈ keys, P (turn s key).1)
    (s : CtxSettings κ ν τ) (wasChanged : Bool) (hs : P s) : P (s.stageEach turn keys wasChanged).1 := by
  induction keys generalizing s wasChanged with
  | nil => exact hs
  | cons key keys ih =>
    exact ih (fun s hs key hkey => h s hs key (.tail _ hkey)) _ _ (h s hs key (.head _))

section
variable [DecidableEq ν]

theorem stageCoupled_staging (map : PropertyMap ν) (activeCtxChanged : Bool) (autoUpdateParams : Finset Key)
    (setting tagKey : Key) :
    Staging s (s.stageCoupled d map activeCtxChanged autoUpdateParams setting tagKey).1 := by
  unfold stageCoupled
  split
  · split
    · split
      · exact ⟨rfl, rfl, rfl, rfl, rfl, rfl⟩
      · exact Staging.refl s
    · exact Staging.refl s
  · exact Staging.refl s

end

/-- The active context and the record of its activation are the same. -/
structure SameActive (s t : CtxSettings κ ν τ) : Prop where
  activeCtx : t.activeCtx = s.activeCtx
  contextActivated : t.contextActivated = s.contextActivated
  contextBeforeActivation : t.contextBeforeActivation = s.contextBeforeActivation

theorem SameActive.refl (s : CtxSettings κ ν τ) : SameActive s s := ⟨rfl, rfl, rfl⟩

theorem SameActive.trans {s t u : CtxSettings κ ν τ} (h : SameActive s t) (h' : SameActive t u) : SameActive s u :=
  ⟨h'.activeCtx.trans h.activeCtx, h'.contextActivated.trans h.contextActivated,
    h'.contextBeforeActivation.trans h.contextBeforeActivation⟩

theorem stageControlKey_sameActive (key : Key) (value : ν) : SameActive s (s.stageControlKey key value).1 := by
  unfold stageControlKey
  split
  · exact ⟨rfl, rfl, rfl⟩
  · split
    · exact ⟨rfl, rfl, rfl⟩
    · exact SameActive.refl s

/-- A control key is the name of no member. -/
theorem stageControlKey_lookup (key : Key) (value : ν) {k : Key} (hk : (d.member k).isSome) :
    (s.stageControlKey key value).1.stagedParameters.lookup k = s.stagedParameters.lookup k := by
  unfold stageControlKey
  split
  · exact AList.lookup_insert_ne (d.notControlKey k hk).1
  · split
    · exact AList.lookup_insert_ne (d.notControlKey k hk).2
    · rfl

section
variable [DecidableEq ν]

theorem stageCoupled_sameActive (map : PropertyMap ν) (activeCtxChanged : Bool) (autoUpdateParams : Finset Key)
    (setting tagKey : Key) :
    SameActive s (s.stageCoupled d map activeCtxChanged autoUpdateParams setting tagKey).1 := by
  unfold stageCoupled
  split
  · split
    · split
      · exact ⟨rfl, rfl, rfl⟩
      · exact SameActive.refl s
    · exact SameActive.refl s
  · exact SameActive.refl s

/-- A coupled key stages its own setting, and whether it does depends on the active parameters alone. -/
theorem stageCoupled_lookup {s t : CtxSettings κ ν τ} (h : t.activeParameters = s.activeParameters) (map : PropertyMap ν)
    (activeCtxChanged : Bool) (autoUpdateParams : Finset Key) (setting tagKey k : Key)
    (hk : k = setting → (s.stageCoupled d map activeCtxChanged autoUpdateParams setting tagKey).2 = false) :
    (t.stageCoupled d map activeCtxChanged autoUpdateParams setting tagKey).1.stagedParameters.lookup k =
      t.stagedParameters.lookup k := by
  unfold stageCoupled isActiveValue at hk ⊢
  rw [h]
  split
  · next value m hvalue hm =>
    rw [hvalue, hm] at hk
    dsimp only at hk
    split
    · next hactive =>
      rw [if_pos hactive] at hk
      split
      · next staged hstaged =>
        rw [hstaged] at hk
        have hne : k ≠ setting := fun heq => Bool.noConfusion (hk heq)
        exact AList.lookup_insert_ne hne
      · rfl
    · rfl
  · rfl

end

variable [LinearOrder κ]

theorem withAutoUpdateEntry_staging (ctx : SettingsCtx κ) : Staging s (s.withAutoUpdateEntry d ctx) := by
  unfold withAutoUpdateEntry
  split
  · exact Staging.refl s
  · exact ⟨rfl, rfl, rfl, rfl, rfl, rfl⟩

theorem withAutoUpdateEntry_sameActive (ctx : SettingsCtx κ) :
    SameActive s (s.withAutoUpdateEntry d ctx) ∧
      (s.withAutoUpdateEntry d ctx).stagedParameters = s.stagedParameters := by
  unfold withAutoUpdateEntry
  split
  · exact ⟨SameActive.refl s, rfl⟩
  · exact ⟨⟨rfl, rfl, rfl⟩, rfl⟩

theorem followedKeys_sameActive (ctx : SettingsCtx κ) (now : Nat) :
    SameActive s (s.followedKeys d ctx now).2 ∧ (s.followedKeys d ctx now).2.stagedParameters = s.stagedParameters := by
  unfold followedKeys
  split
  · exact s.withAutoUpdateEntry_sameActive d ctx
  · exact ⟨SameActive.refl s, rfl⟩

theorem followedKeys_staging (ctx : SettingsCtx κ) (now : Nat) : Staging s (s.followedKeys d ctx now).2 := by
  unfold followedKeys
  split
  · exact s.withAutoUpdateEntry_staging d ctx
  · exact Staging.refl s

theorem activateContext_staging (ctx : SettingsCtx κ) (now : Nat) : Staging s (s.activateContext d ctx now).2 := by
  unfold activateContext
  dsimp only
  split
  · exact Staging.refl s
  · next best _ =>
    split
    · exact Staging.refl s
    · split
      · split
        · exact Staging.refl s
        · next parameters _ =>
          have hentry := s.withAutoUpdateEntry_staging d best
          have hstaged := (s.withAutoUpdateEntry d best).setStaged_staging d
            (parameters.filter fun key _ => decide (key ∉ ((s.withAutoUpdateEntry d best).autoUpdateParameters best).getD ∅))
          split
          · next t ht =>
            rw [ht] at hstaged
            exact hentry.trans hstaged
          · next t ht =>
            rw [ht] at hstaged
            have h := hentry.trans hstaged
            exact ⟨h.stored, h.defaultParameters, h.autoUpdateBeforeReset, h.tagCouplings, h.activeParameters, h.members⟩
      · split
        · exact Staging.refl s
        · exact ⟨rfl, rfl, rfl, rfl, rfl, rfl⟩

variable [DecidableEq ν]

theorem activateFromTag_staging (ctx : SettingsCtx κ) (now : Nat) : Staging s (s.activateFromTag d ctx now).2 := by
  have h := s.activateContext_staging d ctx now
  unfold activateFromTag
  split
  · next t ht =>
    rw [ht] at h
    exact h
  · next t ht =>
    rw [ht] at h
    exact ⟨h.stored, h.defaultParameters, h.autoUpdateBeforeReset, h.tagCouplings, h.activeParameters, h.members⟩

/-- A tag's keys move no context, and they stage no setting but the coupled ones. -/
theorem stageTag_keeps (map : PropertyMap ν) (hasContext activeCtxChanged : Bool) (ctx : SettingsCtx κ) (present : Nat)
    {P : CtxSettings κ ν τ → Prop} (hentry : P (s.followedKeys d ctx present).2)
    (hcontrol : ∀ t, P t → ∀ key value, P (t.stageControlKey key value).1)
    (hcoupled : ∀ t, P t → ∀ e ∈ t.tagCouplings.entries,
      P (t.stageCoupled d map activeCtxChanged (s.followedKeys d ctx present).1 e.1 e.2).1)
    (hcouplings : ∀ t, P t → t.tagCouplings = s.tagCouplings)
    (hchanged : ∀ t changed, P t → P { t with changed := changed }) :
    P (s.stageTag d map hasContext activeCtxChanged ctx present) := by
  have hcontrols : P ((s.followedKeys d ctx present).2.stageEach
      (fun t (e : Sigma fun _ : Key => ν) => t.stageControlKey e.1 e.2) map.entries false).1 :=
    stageEach_keeps (fun t ht e _ => hcontrol t ht e.1 e.2) _ _ hentry
  refine hchanged _ _ (stageEach_keeps (fun t ht e he => hcoupled t ht e ?_) _ _ hcontrols)
  rw [hcouplings t ht, ← hcouplings _ hcontrols]
  exact he

theorem stageTag_staging (map : PropertyMap ν) (hasContext activeCtxChanged : Bool) (ctx : SettingsCtx κ)
    (present : Nat) : Staging s (s.stageTag d map hasContext activeCtxChanged ctx present) :=
  s.stageTag_keeps d map hasContext activeCtxChanged ctx present (s.followedKeys_staging d ctx present)
    (fun t ht key value => ht.trans (t.stageControlKey_staging key value))
    (fun t ht e _ => ht.trans (t.stageCoupled_staging d map activeCtxChanged _ e.1 e.2))
    (fun _ ht => ht.tagCouplings) (fun _ changed ht => ht.with_changed changed)

theorem autoUpdate_staging (map : PropertyMap ν) (now present : Nat) :
    Staging s (s.autoUpdate d map now present).2 := by
  unfold autoUpdate
  split
  · exact s.stageTag_staging d map _ _ _ _
  · next tagCtx _ =>
    have h := s.activateFromTag_staging d tagCtx now
    split
    · next ht =>
      rw [ht] at h
      exact h
    · next ht =>
      rw [ht] at h
      exact h.trans (stageTag_staging d _ map _ _ _ _)

end CtxSettings

end GnuRadio.Settings
