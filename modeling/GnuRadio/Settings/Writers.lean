import GnuRadio.Settings.CtxSettings

/-! The calls that write a block's settings with the block's meta information: set(), setStaged(), setTagCouplings() and
    loadParametersFromPropertyMap() (Settings.cpp). A call throws or returns the values that no setting takes. -/

namespace GnuRadio.Settings

/-! ### Tag keys -/

def END_OF_STREAM : Key := "gr:end_of_stream"

/-- The keys that the framework acts on itself. -/
def kControlKeys : List Key := [END_OF_STREAM, RESET_DEFAULTS, STORE_DEFAULTS, CONTEXT, CONTEXT_TIME]

/-- The text after the first colon, the whole key when it has none. -/
def nameOf (key : Key) : List Char :=
  match key.toList.dropWhile (· ≠ ':') with
  | [] => key.toList
  | _ :: name => name

/-- Why a key cannot be a coupling's tag key. -/
def refuseTagKey (key : Key) : Option String :=
  let printable := key.toList.all fun c => 0x20 < c.toNat && c.toNat ≠ 0x7F
  if key.toList.head? = some ':' ∨ nameOf key = [] ∨ !printable then
    some "the key is not domain:name with a name and no space"
  else if key ∈ kControlKeys then some "the framework acts on this key in every block"
  else none

/-! ### Writers -/

/-- What a writer throws. -/
inductive WriteError (κ ν : Type) where
  | refusal (refusal : Refusal κ ν)
  | coupling (setting : Key) (key : ν) (reason : String)
  | notLoaded (failed : PropertyMap ν)

/-- What the values of a map hold. `asString` is none for a value that is no string, and `contextText` is empty for a
    context that is none. `mergeMaps` puts the entries of a map into another map, none when one of the two is no map. -/
structure Values (κ ν : Type) where
  asString : ν → Option String
  contextText : κ → String
  mergeMaps : ν → ν → Option ν

/-- `metaInformation` is none for a block without. -/
structure Block (κ ν : Type) (τ : Key → Type) where
  settings : CtxSettings κ ν τ
  metaInformation : Option (PropertyMap ν)

namespace Block

variable {κ ν : Type} {τ : Key → Type} [LinearOrder κ] (d : BlockDescriptor κ ν τ) (values : Values κ ν)
variable (b : Block κ ν τ)

/-- One turn of `updateMaps()`. -/
def updateMap (dest : PropertyMap ν) (key : Key) (value : ν) : PropertyMap ν :=
  dest.insert key (((dest.lookup key).bind (values.mergeMaps value)).getD value)

def updateMaps (src dest : PropertyMap ν) : PropertyMap ν :=
  src.entries.foldl (fun dest e => updateMap values dest e.1 e.2) dest

/-- `setImpl()` with the values that it does not take, which go to the meta information. -/
def set (parameters : PropertyMap ν) (ctx : SettingsCtx κ) (now pruneTime : Nat) :
    Except (WriteError κ ν) (PropertyMap ν) × Block κ ν τ :=
  match b.settings.set d parameters ctx now pruneTime with
  | (.error refusal, settings) => (.error (.refusal refusal), { b with settings := settings })
  | (.ok ret, settings) =>
    (.ok ret, { settings := settings, metaInformation := b.metaInformation.map (updateMaps values ret) })

def setStaged (parameters : PropertyMap ν) : Except (WriteError κ ν) (PropertyMap ν) × Block κ ν τ :=
  match b.settings.setStaged d parameters with
  | (.error refusal, settings) => (.error (.refusal refusal), { b with settings := settings })
  | (.ok ret, settings) => (.ok ret, { b with settings := settings })

/-- The couplings so far, and the settings that follow their keys from now on. -/
structure Coupled where
  table : AList fun _ : Key => Key
  following : List Key

/-- One turn of `setTagCouplings()`'s loop. -/
def couple (coupled : Coupled) (setting : Key) (key : ν) : Except (WriteError κ ν) Coupled :=
  if (d.writable setting).isNone then
    .error (.coupling setting key "the block has no writable setting of that name")
  else
    match values.asString key with
    | none => .error (.coupling setting key "the key is not a string")
    | some spelled =>
      if spelled = "" then
        .ok { coupled with table := coupled.table.erase setting }
      else
        match refuseTagKey (canonicalKey spelled) with
        | some reason => .error (.coupling setting key reason)
        | none =>
          .ok { table := coupled.table.insert setting (canonicalKey spelled)
                following := coupled.following ++ [setting] }

def setTagCouplings (couplings : PropertyMap ν) : Except (WriteError κ ν) Unit × Block κ ν τ :=
  match couplings.entries.foldlM (fun coupled e => couple d values coupled e.1 e.2) ⟨b.settings.tagCouplings, []⟩ with
  | .error thrown => (.error thrown, b)
  | .ok coupled =>
    (.ok (),
      { b with
        settings := { b.settings with
          tagCouplings := coupled.table
          autoUpdateParameters := fun ctx =>
            (b.settings.autoUpdateParameters ctx).map (· ∪ coupled.following.toFinset) } })

/-- One turn of `loadParametersFromPropertyMap()`'s loop, over the parameters to set and the meta information. -/
def sortParameter (toMeta : Bool) (sorted : PropertyMap ν × Option (PropertyMap ν)) (key : Key) (value : ν) :
    PropertyMap ν × Option (PropertyMap ν) :=
  if (d.writable key).isSome then (sorted.1.insert key value, sorted.2)
  else if toMeta then (sorted.1, sorted.2.map (·.insert key value))
  else sorted

/-- The parameters that `loadParametersFromPropertyMap()` sets, and the meta information with the others. -/
def sortParameters (parameters : PropertyMap ν) (ctx : SettingsCtx κ) : PropertyMap ν × Option (PropertyMap ν) :=
  parameters.entries.foldl
    (fun sorted e => sortParameter d (values.contextText ctx.context = "") sorted e.1 e.2) (∅, b.metaInformation)

/-- The meta information is written first. -/
def loadParametersFromPropertyMap (parameters : PropertyMap ν) (ctx : SettingsCtx κ) (now pruneTime : Nat) :
    Except (WriteError κ ν) Unit × Block κ ν τ :=
  let sorted := b.sortParameters d values parameters ctx
  match { b with metaInformation := sorted.2 }.set d values sorted.1 ctx now pruneTime with
  | (.error thrown, b) => (.error thrown, b)
  | (.ok failed, b) => if failed.entries = [] then (.ok (), b) else (.error (.notLoaded failed), b)

/-- A call with the clock readings that it takes. -/
inductive Write (κ ν : Type) where
  | set (parameters : PropertyMap ν) (ctx : SettingsCtx κ) (now pruneTime : Nat)
  | setStaged (parameters : PropertyMap ν)
  | setTagCouplings (couplings : PropertyMap ν)
  | loadParametersFromPropertyMap (parameters : PropertyMap ν) (ctx : SettingsCtx κ) (now pruneTime : Nat)

/-- What a call throws, if it does, and the block after it. -/
def write : Write κ ν → Option (WriteError κ ν) × Block κ ν τ
  | .set parameters ctx now pruneTime =>
    match b.set d values parameters ctx now pruneTime with
    | (.error thrown, b) => (some thrown, b)
    | (.ok _, b) => (none, b)
  | .setStaged parameters =>
    match b.setStaged d parameters with
    | (.error thrown, b) => (some thrown, b)
    | (.ok _, b) => (none, b)
  | .setTagCouplings couplings =>
    match b.setTagCouplings d values couplings with
    | (.error thrown, b) => (some thrown, b)
    | (.ok _, b) => (none, b)
  | .loadParametersFromPropertyMap parameters ctx now pruneTime =>
    match b.loadParametersFromPropertyMap d values parameters ctx now pruneTime with
    | (.error thrown, b) => (some thrown, b)
    | (.ok _, b) => (none, b)

/-! ### What a call that throws leaves -/

/-- The block is as it was, as far as the writers write it. -/
structure Untouched (b b' : Block κ ν τ) : Prop where
  stored : b'.settings.stored = b.settings.stored
  stagedParameters : b'.settings.stagedParameters = b.settings.stagedParameters
  tagCouplings : b'.settings.tagCouplings = b.settings.tagCouplings
  autoUpdateParameters : b'.settings.autoUpdateParameters = b.settings.autoUpdateParameters
  metaInformation : b'.metaInformation.map (fun m key => m.lookup key) =
    b.metaInformation.map fun m key => m.lookup key

/-- A value of a parameter map that `setImpl()` does not refuse. -/
def Takes (key : Key) (value : ν) : Prop :=
  d.isMonostate value ∨ ∀ m, d.writable key = some m → ∃ x, m.convertParameter value = .ok x ∧ m.validate x = true

/-- No cap refuses the set, and no value of its parameters is refused. -/
structure Accepts (parameters : PropertyMap ν) (ctx : SettingsCtx κ) (now : Nat) : Prop where
  caps : refuseStoredSet b.settings.stored (ctx.orNow now) (now < (ctx.orNow now).time) now = none
  values : ∀ e ∈ parameters.entries, Takes d e.1 e.2

/-- The meta information already holds each parameter that is no setting, or takes none: the context has a name, or the
    block has no meta information. -/
def HoldsOthers (parameters : PropertyMap ν) (ctx : SettingsCtx κ) : Prop :=
  values.contextText ctx.context = "" → ∀ m, b.metaInformation = some m →
    ∀ e ∈ parameters.entries, d.writable e.1 = none → m.lookup e.1 = some e.2

/-- The calls that leave the block untouched when they throw. -/
def LeavesWhole : Write κ ν → Prop
  | .loadParametersFromPropertyMap parameters ctx now _ =>
    b.Accepts d parameters ctx now ∨ b.HoldsOthers d values parameters ctx
  | _ => True

end Block

end GnuRadio.Settings
