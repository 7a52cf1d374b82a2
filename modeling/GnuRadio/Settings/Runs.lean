import GnuRadio.Library.Transition
import GnuRadio.Settings.Apply

/-! Runs of a block's settings after `init()`: sets, staged values, activations, tags and applies in any order. A run
    keeps which set was active when the present batch began, and the values that the last activation staged and that
    nothing staged since. -/

namespace GnuRadio.Settings

inductive Act (κ ν : Type) where
  | set (parameters : PropertyMap ν) (ctx : SettingsCtx κ) (now pruneTime : Nat)
  | setStaged (parameters : PropertyMap ν)
  | activateContext (ctx : SettingsCtx κ) (now : Nat)
  | autoUpdate (map : PropertyMap ν) (now present : Nat)
  | applyStagedParameters (readings : Readings)

/-- `before` was active when the last apply was done. `pending` are the values of the active set that the apply has to
    write: those that its activation staged, and that no later value replaced. -/
structure Run (κ ν : Type) (τ : Key → Type) where
  settings : CtxSettings κ ν τ
  before : SettingsCtx κ
  pending : PropertyMap ν

variable {κ ν : Type} {τ : Key → Type} [LinearOrder κ]

namespace CtxSettings

/-- The values that are stored for a set. -/
def storedSet (s : CtxSettings κ ν τ) (ctx : SettingsCtx κ) : Option (PropertyMap ν) :=
  ((setsOf s.stored ctx.context).find? (·.context = ctx)).map (·.settings)

variable (d : BlockDescriptor κ ν τ) (s t : CtxSettings κ ν τ)

/-- The values of a set that its activation takes. A set of the active context leaves alone the settings that follow
    tags in it; a set of another context leaves alone the settings that have a staged value. -/
def activatedValues (best : SettingsCtx κ) : PropertyMap ν :=
  ((s.storedSet best).getD ∅).filter fun key _ =>
    if best.context = s.activeCtx.context then
      key ∉ ((s.withAutoUpdateEntry d best).autoUpdateParameters best).getD ∅
    else
      key ∉ s.stagedParameters

/-- An activation that selects another set makes its values pending. -/
def pendingAfter (pending : PropertyMap ν) : PropertyMap ν :=
  if t.activeCtx = s.activeCtx then pending else s.activatedValues d t.activeCtx

/-- The settings that a tag's coupled keys stage. -/
def coupledKeys [DecidableEq ν] (map : PropertyMap ν) (activeCtxChanged : Bool) (autoUpdateParams : Finset Key) : List Key :=
  (s.tagCouplings.entries.filter fun e => (s.stageCoupled d map activeCtxChanged autoUpdateParams e.1 e.2).2).map (·.1)

/-- The settings that a tag stages by a coupled key, after its context. -/
def tagKeys [DecidableEq ν] (map : PropertyMap ν) (now present : Nat) : List Key :=
  match createSettingsCtxFromTag d map now with
  | none => s.coupledKeys d map false (s.followedKeys d s.activeCtx present).1
  | some tagCtx =>
    match s.activateFromTag d tagCtx now with
    | (.error _, _) => []
    | (.ok best, t) =>
      t.coupledKeys d map (s.activeCtx ≠ best.getD t.activeCtx) (t.followedKeys d (best.getD t.activeCtx) present).1

end CtxSettings

namespace Run

variable [DecidableEq ν] (d : BlockDescriptor κ ν τ)

def step (r : Run κ ν τ) : Act κ ν → Run κ ν τ
  | .set parameters ctx now pruneTime => { r with settings := (r.settings.set d parameters ctx now pruneTime).2 }
  | .setStaged parameters =>
    { r with
      settings := (r.settings.setStaged d parameters).2
      pending :=
        match (r.settings.setStaged d parameters).1 with
        | .ok _ => r.pending.filter fun key _ => key ∉ parameters
        | .error _ => r.pending }
  | .activateContext ctx now =>
    let t := (r.settings.activateContext d ctx now).2
    { r with settings := t, pending := r.settings.pendingAfter d t r.pending }
  | .autoUpdate map now present =>
    let t := (r.settings.autoUpdate d map now present).2
    { r with
      settings := t
      pending := (r.settings.pendingAfter d t r.pending).filter fun key _ => key ∉ r.settings.tagKeys d map now present }
  | .applyStagedParameters readings =>
    let t := (r.settings.applyStagedParameters d readings).2
    { settings := t, before := t.activeCtx, pending := ∅ }

/-- A run starts after `init()`. -/
def system : Transition.System (Run κ ν τ) (Act κ ν) where
  start r := ∃ members tagCouplings initBlockParameters readings,
    (CtxSettings.constructed d members tagCouplings).init d initBlockParameters readings = some r.settings ∧
      r.before = r.settings.activeCtx ∧ r.pending = ∅
  step r a := some (r.step d a)

end Run

/-! ### Refused batches -/

/-- The callback refused the batch, and the apply returned the refusal or threw it. -/
def CallbackRefused {κ ν : Type} : Except (Thrown κ ν) (ApplyStagedParametersResult ν) → Prop
  | .ok result => result.callbackRefusal.isSome
  | .error (.settingsChanged _) => True
  | .error (.stored _) => False

namespace CtxSettings

variable [DecidableEq ν] (d : BlockDescriptor κ ν τ) (s : CtxSettings κ ν τ) (readings : Readings)

/-- The members as the callback finds them. -/
def appliedMembers : Members τ :=
  match s.takeBatch.2.resetBatch d s.takeBatch.1 readings with
  | (.error _, t) => t.members
  | (.ok (failedDefaults, batch), t) => (t.applyEntries d batch.parameters failedDefaults).members

/-- The batch is undone: the members that it moved are back, unless their limits refuse that, the set `before` is active,
    the sets follow the keys that they followed, and `get()` reads the members. -/
structure Undone (before : SettingsCtx κ) (t : CtxSettings κ ν τ) : Prop where
  members : ∀ k m, d.writable k = some m → s.appliedMembers d readings k ≠ s.members k → m.validate (s.members k) = true →
    t.members k = s.members k
  activeCtx : t.activeCtx = before
  autoUpdateParameters : ∀ ctx keys, s.isStored ctx = true → s.autoUpdateParameters ctx = some keys → t.isStored ctx = true →
    t.autoUpdateParameters ctx = some keys
  get : ∀ k m, d.member k = some m → (t.get []).lookup k = some (m.read (t.members k))

/-- The batch has a reset that the limits do not refuse. -/
def ResetAccepted : Prop :=
  RESET_DEFAULTS ∈ s.stagedParameters ∧ (s.refusedDefaults d readings.reset).entries = []

instance : Decidable (s.ResetAccepted d readings) := inferInstanceAs (Decidable (_ ∧ _))

/-- The settings with the set of defaults that a reset stores. -/
def withDefaultSet : CtxSettings κ ν τ := s.addStoredParameters d s.defaultParameters ⟨readings.reset, d.defaultContext⟩

/-- The set that is active when the reset in a batch has selected among the sets of the active context. -/
def selectedByReset : SettingsCtx κ :=
  if s.ResetAccepted d readings ∧ s.activeCtx.context = d.defaultContext then
    ((s.withDefaultSet d readings).findBestMatchSettingsCtx d
      (SettingsCtx.orNow ⟨0, d.defaultContext⟩ readings.activation)).getD s.activeCtx
  else
    s.activeCtx

/-- The pruning after a reset erases no set while another set for its context and time stays. -/
def PrunesAlone : Prop :=
  s.ResetAccepted d readings → ∀ ctx keys, s.isStored ctx = true → s.autoUpdateParameters ctx = some keys →
    ((s.withDefaultSet d readings).removeExpiredStoredParameters d readings.pruning).isStored ctx = true →
      eraseExpired d.expiryTime readings.pruning (s.withDefaultSet d readings).stored s.autoUpdateParameters ctx = some keys

end CtxSettings

/-- The record of the active context, or the active set when there is no record, is what was active before the batch. -/
def Run.Returns [DecidableEq ν] (d : BlockDescriptor κ ν τ) (r : Run κ ν τ) (readings : Readings) : Prop :=
  r.settings.contextBeforeActivation.getD (r.settings.selectedByReset d readings) = r.before

end GnuRadio.Settings

/-! Runs of `set()` calls, activations and tags on a block's settings under a clock that does not go back, with a record
    of the sets that `set()` wrote. -/

namespace GnuRadio.Settings

/-- A call with the clock readings that it takes. -/
inductive StoreAct (κ ν : Type) where
  | set (parameters : PropertyMap ν) (ctx : SettingsCtx κ) (now pruneTime : Nat)
  | activateContext (ctx : SettingsCtx κ) (now : Nat)
  | autoUpdate (map : PropertyMap ν) (now present : Nat)

/-- `written` are the sets that `set()` wrote, the oldest call first. -/
structure StoreRun (κ ν : Type) (τ : Key → Type) where
  settings : CtxSettings κ ν τ
  clock : Nat
  written : List (CtxSettingsPair κ ν)

namespace StoreRun

variable {κ ν : Type} {τ : Key → Type} [LinearOrder κ] [DecidableEq ν] (d : BlockDescriptor κ ν τ)

/-- The sets of `context` among those written. -/
def writtenFor (r : StoreRun κ ν τ) (context : κ) : List (CtxSettingsPair κ ν) :=
  r.written.filter fun pair => pair.context.context = context

/-- A call whose readings go back is no step. -/
def step (r : StoreRun κ ν τ) : StoreAct κ ν → Option (StoreRun κ ν τ)
  | .set parameters ctx now pruneTime =>
    if r.clock ≤ now ∧ now ≤ pruneTime then
      some
        { settings := (r.settings.set d parameters ctx now pruneTime).2
          clock := pruneTime
          written := match r.settings.newSet d parameters ctx now with
            | .ok taken => r.written ++ [⟨ctx.orNow now, taken.newParameters⟩]
            | .error _ => r.written }
    else
      none
  | .activateContext ctx now =>
    if r.clock ≤ now then
      some { r with settings := (r.settings.activateContext d ctx now).2, clock := now }
    else
      none
  | .autoUpdate map now present =>
    if r.clock ≤ now ∧ now ≤ present then
      some { r with settings := (r.settings.autoUpdate d map now present).2, clock := present }
    else
      none

/-- A run starts with no set stored, after the clock's first reading. -/
def system : Transition.System (StoreRun κ ν τ) (StoreAct κ ν) where
  start r := 0 < r.clock ∧ r.settings.stored = ∅ ∧ r.written = []
  step := step d

/-- For a context with a set, and a time that is not past, `getStored()` returns the values of the set with the greatest
    time up to it, and of the most recent call among the sets of that time. -/
def AnswersByLatest (r : StoreRun κ ν τ) : Prop :=
  ∀ keys ctx now, r.writtenFor ctx.context ≠ [] → r.clock ≤ now → (ctx.time = 0 ∨ r.clock ≤ ctx.time) →
    r.settings.getStored d keys ctx now =
      (Timeline.latest CtxSettingsPair.time (r.writtenFor ctx.context) (ctx.orNow now).time).map
        (CtxSettings.selectKeys keys ·.settings)

/-- The times of a context's stored sets, with that of a new set. -/
def timesWith (stored : StoredParameters κ ν) (new : SettingsCtx κ) (context : κ) : List Nat :=
  (setsOf stored context).map CtxSettingsPair.time ++ if context = new.context then [new.time] else []

/-- No two of the times are the greatest before `now`, or one is `now` itself. -/
def OneLatestPast (times : List Nat) (now : Nat) : Prop :=
  now ∈ times ∨ ∀ u ∈ times, u < now → (∀ x ∈ times, x < now → x ≤ u) → times.count u ≤ 1

/-- The pruning of an accepted `set()` finds one latest past set in each context. -/
def PrunesOneLatest (r : StoreRun κ ν τ) : StoreAct κ ν → Prop
  | .set parameters ctx now pruneTime =>
    ∀ taken, r.settings.newSet d parameters ctx now = .ok taken →
      ∀ context, OneLatestPast (timesWith r.settings.stored (ctx.orNow now) context) pruneTime
  | _ => True

instance (times : List Nat) (now : Nat) : Decidable (OneLatestPast times now) :=
  inferInstanceAs (Decidable (now ∈ times ∨ ∀ u ∈ times, u < now → (∀ x ∈ times, x < now → x ≤ u) → times.count u ≤ 1))

omit [DecidableEq ν] in
/-- A context without sets has no past one. -/
theorem oneLatestPast_of_not_mem {stored : StoredParameters κ ν} {new : SettingsCtx κ} {context : κ}
    (h : context ∉ new.context :: stored.keys) (now : Nat) : OneLatestPast (timesWith stored new context) now := by
  have hnew : context ≠ new.context := fun heq => h (heq ▸ (.head _))
  have hnone : stored.lookup context = none := AList.lookup_eq_none.mpr fun hm => h (.tail _ hm)
  rw [timesWith, setsOf, hnone, if_neg hnew]
  exact Or.inr fun u hu => nomatch hu

instance (r : StoreRun κ ν τ) : (a : StoreAct κ ν) → Decidable (PrunesOneLatest d r a)
  | .set parameters ctx now pruneTime =>
    match hnew : r.settings.newSet d parameters ctx now with
    | .error _ => .isTrue fun taken h => by rw [hnew] at h; cases h
    | .ok taken =>
      decidable_of_iff
        (∀ context ∈ (ctx.orNow now).context :: r.settings.stored.keys,
          OneLatestPast (timesWith r.settings.stored (ctx.orNow now) context) pruneTime)
        ⟨fun h _ _ context => by
          by_cases hc : context ∈ (ctx.orNow now).context :: r.settings.stored.keys
          · exact h context hc
          · exact oneLatestPast_of_not_mem hc pruneTime,
        fun h context _ => h taken hnew context⟩
  | .activateContext _ _ => .isTrue trivial
  | .autoUpdate _ _ _ => .isTrue trivial

end StoreRun

end GnuRadio.Settings
