import GnuRadio.Library.KeyedMap
import GnuRadio.Library.Timeline
import Mathlib.Algebra.Ring.Nat
import Mathlib.Data.Finset.Basic
import Mathlib.Data.List.Sort

/-! The stored sets of a block's settings: the sets of each context sorted by their time, the lookup of the set for a
    context and a time, the caps on new sets, and the removal of expired sets (Settings.cpp and SettingsCtx.hpp). -/

namespace GnuRadio.Settings

abbrev Key := String

abbrev PropertyMap (ν : Type) := AList fun _ : Key => ν

/-- `time` is in ns, and a `time` of 0 is undefined. -/
structure SettingsCtx (κ : Type) where
  time : Nat
  context : κ
  deriving DecidableEq, Repr

structure CtxSettingsPair (κ ν : Type) where
  context : SettingsCtx κ
  settings : PropertyMap ν
  deriving DecidableEq

/-- `_storedParameters`. -/
abbrev StoredParameters (κ ν : Type) := AList fun _ : κ => List (CtxSettingsPair κ ν)

/-- `_autoUpdateParameters`: the keys that follow tags in each set. -/
abbrev AutoUpdateParameters (κ : Type) := SettingsCtx κ → Option (Finset Key)

/-- Whether a stored context matches the one that is searched, at a search's attempt. Nothing ends the search. -/
abbrev MatchPredicate (κ : Type) := κ → κ → Nat → Option Bool

def kMaxContexts : Nat := 256

def kMaxPendingSets : Nat := 16

/-- Why a set or a staged value is refused. -/
inductive Refusal (κ ν : Type) where
  | contexts (context : κ)
  | pendingSets (context : κ)
  | conversion (key : Key) (error : String)
  | limits (key : Key) (value : ν) (reason : String)
  deriving DecidableEq

variable {κ ν : Type} [LinearOrder κ]

abbrev CtxSettingsPair.time (pair : CtxSettingsPair κ ν) : Nat := pair.context.time

/-- The sets of a context, none when the context is not stored. -/
def setsOf (stored : StoredParameters κ ν) (context : κ) : List (CtxSettingsPair κ ν) :=
  (stored.lookup context).getD []

def refuseStoredSet (stored : StoredParameters κ ν) (ctx : SettingsCtx κ) (forLaterTime : Bool) (now : Nat) :
    Option (Refusal κ ν) :=
  if setsOf stored ctx.context = [] then
    if kMaxContexts ≤ (stored.entries.filter fun e => e.2 ≠ []).length then some (.contexts ctx.context) else none
  else if !forLaterTime then
    none
  else if kMaxPendingSets ≤ ((setsOf stored ctx.context).filter fun pair => now < pair.time).length then
    some (.pendingSets ctx.context)
  else
    none

/-! ### Lookup -/

/-- The stored contexts at one attempt. Nothing goes on to the next attempt. -/
def matchAttempt (matchPred : MatchPredicate κ) (contextToSearch : κ) (attempt : Nat) : List κ → Option (Option κ)
  | [] => none
  | context :: contexts =>
    match matchPred context contextToSearch attempt with
    | none => some none
    | some true => some (some context)
    | some false => matchAttempt matchPred contextToSearch attempt contexts

def kMaxMatchAttempts : Nat := 64

def findBestMatchCtx (matchPred : MatchPredicate κ) (stored : StoredParameters κ ν) (contextToSearch : κ) : Option κ :=
  if contextToSearch ∈ stored then
    some contextToSearch
  else
    ((List.range kMaxMatchAttempts).findSome? fun attempt =>
      matchAttempt matchPred contextToSearch attempt (stored.keys.insertionSort (· ≤ ·))).join

/-- The set of a context for a time: `lower_bound` in the sorted vector, with the end of the vector tried first. -/
def bestSettingsCtx (vec : List (CtxSettingsPair κ ν)) (time : Nat) : Option (SettingsCtx κ) :=
  match vec.getLast? with
  | none => none
  | some back =>
    if time = 0 ∨ back.time ≤ time then
      some back.context
    else
      match vec.dropWhile (·.time < time) with
      | [] => some back.context
      | lower :: _ =>
        if lower.time = time then
          some lower.context
        else
          (vec.takeWhile (·.time < time)).getLast?.map (·.context)

def findBestMatchSettingsCtx (matchPred : MatchPredicate κ) (stored : StoredParameters κ ν) (ctx : SettingsCtx κ) :
    Option (SettingsCtx κ) :=
  (findBestMatchCtx matchPred stored ctx.context).bind fun best => bestSettingsCtx (setsOf stored best) ctx.time

def getBestMatchStoredParameters (matchPred : MatchPredicate κ) (stored : StoredParameters κ ν) (ctx : SettingsCtx κ) :
    Option (PropertyMap ν) :=
  (findBestMatchSettingsCtx matchPred stored ctx).bind fun best =>
    ((setsOf stored best.context).find? (·.context = best)).map (·.settings)

def getBestMatchAutoUpdateParameters (matchPred : MatchPredicate κ) (stored : StoredParameters κ ν)
    (autoUpdate : AutoUpdateParameters κ) (ctx : SettingsCtx κ) : Option (Finset Key) :=
  (findBestMatchSettingsCtx matchPred stored ctx).bind autoUpdate

/-! ### Storage -/

/-- `addStoredParameters()` on the vector of the set's context. -/
def addSet (stored : StoredParameters κ ν) (newParameters : PropertyMap ν) (ctx : SettingsCtx κ) : StoredParameters κ ν :=
  stored.insert ctx.context (Timeline.insert CtxSettingsPair.time ⟨ctx, newParameters⟩ (setsOf stored ctx.context))

/-- The sets that a pruning at `now` erases from a context's vector, and those it keeps: always one past set. -/
def pruned (now : Nat) (vec : List (CtxSettingsPair κ ν)) : List (CtxSettingsPair κ ν) × List (CtxSettingsPair κ ν) :=
  let past := vec.takeWhile (·.time < now)
  match vec.dropWhile (·.time < now) with
  | [] => (vec.dropLast, vec.getLast?.toList)
  | lower :: later =>
    if lower.time = now then
      (past, lower :: later)
    else if 2 ≤ past.length then
      (past.dropLast, past.getLast?.toList ++ lower :: later)
    else
      ([], vec)

/-- A set expires when its time and `expiry_time`, which add up to 64 bits, are past. -/
def isExpired (expiryTime : Option Nat) (now : Nat) (pair : CtxSettingsPair κ ν) : Bool :=
  expiryTime.any fun expiry => (pair.time + expiry) % 2 ^ 64 ≤ now

/-- The sets that leave a context's vector, and those that stay. -/
def removeExpired (expiryTime : Option Nat) (now : Nat) (vec : List (CtxSettingsPair κ ν)) :
    List (CtxSettingsPair κ ν) × List (CtxSettingsPair κ ν) :=
  let (erased, kept) := pruned now (vec.filter fun pair => !isExpired expiryTime now pair)
  (vec.filter (isExpired expiryTime now) ++ erased, kept)

/-- `removeExpiredStoredParameters()` on the stored sets. -/
def keepUnexpired (expiryTime : Option Nat) (now : Nat) (stored : StoredParameters κ ν) : StoredParameters κ ν :=
  stored.mapValues fun _ vec => (removeExpired expiryTime now vec).2

/-- `removeExpiredStoredParameters()` on the keys that follow tags: an erased set's entry goes with it. -/
def eraseExpired (expiryTime : Option Nat) (now : Nat) (stored : StoredParameters κ ν)
    (autoUpdate : AutoUpdateParameters κ) : AutoUpdateParameters κ := fun ctx =>
  if ∃ e ∈ stored.entries, ∃ pair ∈ (removeExpired expiryTime now e.2).1, pair.context = ctx then none else autoUpdate ctx

end GnuRadio.Settings
