import Mathlib.Data.List.DropRight
import Mathlib.Data.List.Infix

/-! Trigger filters (TriggerMatcher.hpp): `parse()` of a condition, and `verifyFilterState()` and `filter()` of
    `BasicTriggerNameCtxMatcher`, whose configuration and state are entries of a map that belongs to the caller. A byte is
    the character of its value. -/

namespace GnuRadio.TriggerMatcher

open Function

abbrev Text := List Char

inductive MatchResult
  | matching
  | notMatching
  | ignore
  deriving DecidableEq, Repr

/-! ### Conditions -/

def isspace (c : Char) : Bool := c = ' ' || (9 ≤ c.toNat && c.toNat ≤ 13)

def trim (str : Text) : Text := (str.dropWhile isspace).rdropWhile isspace

/-- What `parse()` writes. -/
structure Condition where
  triggerName : Text
  triggerNameEnds : Bool
  triggerCtx : Text
  triggerCtxEnds : Bool
  deriving DecidableEq, Repr

/-- Strips a leading `'^'`, and says whether there was one. -/
def stripEnds : Text → Text × Bool
  | '^' :: rest => (trim rest, true)
  | text => (text, false)

def multipleSeparators (trigger : Text) : String :=
  "invalid trigger input: multiple '/' separators found: '" ++ String.ofList trigger ++ "'"

/-- Without a separator, `triggerCtxEnds` stays as it is. -/
def parse (trigger : Text) (triggerCtxEnds : Bool) : Except String Condition :=
  if '/' ∈ trigger then
    let ctx := (trigger.dropWhile (· ≠ '/')).tail
    if '/' ∈ ctx then .error (multipleSeparators trigger)
    else
      let (triggerName, triggerNameEnds) := stripEnds (trim (trigger.takeWhile (· ≠ '/')))
      let (triggerCtx, triggerCtxEnds) := stripEnds (trim ctx)
      .ok ⟨triggerName, triggerNameEnds, triggerCtx, triggerCtxEnds⟩
  else
    let (triggerName, triggerNameEnds) := stripEnds (trim trigger)
    .ok ⟨triggerName, triggerNameEnds, [], triggerCtxEnds⟩

/-! ### The state map -/

/-- A `pmt::Value`, as far as the matcher tells the types apart. -/
inductive Value
  | bool (value : Bool)
  | string (value : Text)
  | other
  deriving DecidableEq, Repr

/-- The keys of the two parts of a filter, and the others. -/
inductive Key
  | filter
  | startDefined
  | stopDefined
  | startTriggerName
  | startCtx
  | stopTriggerName
  | stopCtx
  | startTriggerNameEnds
  | startCtxEnds
  | stopTriggerNameEnds
  | stopCtxEnds
  | triggerActive
  | waitingForStartNonMatch
  | waitingForStopNonMatch
  | isSingleTrigger
  deriving DecidableEq, Repr

namespace Value

variable (value : Bool) (text : Text)

/-- `get_if<bool>()`. -/
def getBool : Value → Option Bool
  | bool value => some value
  | _ => none

/-- `value_or(std::string_view{})`, whose `data()` is null if the value is not a string. -/
def getText : Value → Option Text
  | string value => some value
  | _ => none

@[simp] theorem getBool_bool : (bool value).getBool = some value := rfl

@[simp] theorem getBool_string : (string text).getBool = none := rfl

@[simp] theorem getText_bool : (bool value).getText = none := rfl

@[simp] theorem getText_string : (string text).getText = some text := rfl

end Value

/-- The entries of these keys. A key that `operator[]` adds has no value yet, and every read takes it like a missing one. -/
abbrev PropertyMap := Key → Option Value

namespace PropertyMap

variable (state : PropertyMap)

def set (key : Key) (value : Value) : PropertyMap := update state key (some value)

def getBool (key : Key) : Option Bool := (state key).bind Value.getBool

def getText (key : Key) : Option Text := (state key).bind Value.getText

/-- The value of a flag, `false` if there is none. -/
def flag (key : Key) : Bool := (state.getBool key).getD false

def reset : PropertyMap :=
  ((state.set .triggerActive (.bool false)).set .waitingForStartNonMatch (.bool false)).set .waitingForStopNonMatch
    (.bool false)

def isSingleTrigger : Bool :=
  match state.getBool .startDefined, state.getBool .stopDefined with
  | some startDefined, some endDefined => startDefined ^^ endDefined
  | _, _ => false

variable {state} (key key' : Key) (value : Value)

@[simp] theorem getBool_set :
    (state.set key value).getBool key' = if key' = key then value.getBool else state.getBool key' := by
  unfold set getBool
  split
  · next h => rw [h, update_self, Option.bind_some]
  · next h => rw [update_of_ne h]

@[simp] theorem getText_set :
    (state.set key value).getText key' = if key' = key then value.getText else state.getText key' := by
  unfold set getText
  split
  · next h => rw [h, update_self, Option.bind_some]
  · next h => rw [update_of_ne h]

@[simp] theorem flag_set :
    (state.set key value).flag key' = if key' = key then value.getBool.getD false else state.flag key' := by
  unfold flag
  rw [getBool_set]
  split <;> rfl

end PropertyMap

/-- The keys of one part of a filter. -/
structure Part where
  defined : Key
  triggerName : Key
  ctx : Key
  triggerNameEnds : Key
  ctxEnds : Key

def start : Part := ⟨.startDefined, .startTriggerName, .startCtx, .startTriggerNameEnds, .startCtxEnds⟩

def stop : Part := ⟨.stopDefined, .stopTriggerName, .stopCtx, .stopTriggerNameEnds, .stopCtxEnds⟩

/-! ### Configuration -/

def unmatchedBracketPair (criteria : Text) : String := "unmatched bracket pair: '" ++ String.ofList criteria ++ "'"

/-- The criteria without the brackets around them. -/
def stripBrackets (matchCriteria : Text) : Except String Text :=
  if matchCriteria.head? = some '[' ∧ matchCriteria.getLast? = some ']' then .ok matchCriteria.tail.dropLast
  else if matchCriteria.head? = some '[' ∨ matchCriteria.getLast? = some ']' then
    .error (unmatchedBracketPair matchCriteria)
  else .ok matchCriteria

/-- The start part and the stop part. -/
def parts (criteria : Text) : Text × Text :=
  if ',' ∈ criteria then (trim (criteria.takeWhile (· ≠ ',')), trim (criteria.dropWhile (· ≠ ',')).tail)
  else (criteria, [])

/-- How a part of `verifyFilterState()` ends: it goes on, returns early, or throws. -/
inductive Flow
  | goesOn
  | returns
  | throws (what : String)
  deriving DecidableEq, Repr

def writeCondition (part : Part) (condition : Condition) (state : PropertyMap) : PropertyMap :=
  let ends := (state.set part.triggerNameEnds (.bool condition.triggerNameEnds)).set part.ctxEnds
    (.bool condition.triggerCtxEnds)
  ((ends.set part.triggerName (.string condition.triggerName)).set part.ctx (.string condition.triggerCtx)).set
    part.defined (.bool true)

/-- One part of the criteria is parsed into its entries. -/
def configurePart (part : Part) (text : Text) (state : PropertyMap) : Flow × PropertyMap :=
  if text = [] then (.goesOn, (state.set part.triggerName (.string [])).set part.ctx (.string []))
  else
    match state.getText part.triggerName, state.getBool part.triggerNameEnds, state.getText part.ctx,
        state.getBool part.ctxEnds with
    | some _, some _, some _, some ctxEnds =>
      match parse text ctxEnds with
      | .error what => (.throws what, state)
      | .ok condition => (.goesOn, writeCondition part condition state)
    | _, _, _, _ => (.returns, state)

/-- `std::swap` of two entries. -/
def swap (a b : Key) (state : PropertyMap) : PropertyMap :=
  update (update state a (state b)) b (state a)

theorem swap_apply (a b key : Key) (state : PropertyMap) :
    swap a b state key = if key = b then state a else if key = a then state b else state key := by
  unfold swap
  by_cases hb : key = b
  · rw [if_pos hb, hb, update_self]
  · rw [if_neg hb, update_of_ne hb]
    by_cases ha : key = a
    · rw [if_pos ha, ha, update_self]
    · rw [if_neg ha, update_of_ne ha]

@[simp] theorem getBool_swap (a b key : Key) (state : PropertyMap) : (swap a b state).getBool key =
    if key = b then state.getBool a else if key = a then state.getBool b else state.getBool key := by
  unfold PropertyMap.getBool
  rw [swap_apply]
  split
  · rfl
  · split <;> rfl

@[simp] theorem getText_swap (a b key : Key) (state : PropertyMap) : (swap a b state).getText key =
    if key = b then state.getText a else if key = a then state.getText b else state.getText key := by
  unfold PropertyMap.getText
  rw [swap_apply]
  split
  · rfl
  · split <;> rfl

def clearStop (state : PropertyMap) : PropertyMap :=
  (state.set .stopTriggerName (.string [])).set .stopCtx (.string [])

/-- What follows once both parts are parsed: a stop part alone becomes the start part, and two equal parts one. -/
def configureSingle (state : PropertyMap) : PropertyMap :=
  let state :=
    if state.isSingleTrigger ∧ state.getBool .stopDefined = some true then
      clearStop (swap .startCtx .stopCtx (swap .startTriggerName .stopTriggerName state))
    else state
  let state :=
    if state.getText .startTriggerName = state.getText .stopTriggerName ∧ state.getText .startCtx = state.getText .stopCtx
    then clearStop ((state.set .startDefined (.bool true)).set .stopDefined (.bool false))
    else state
  state.set .isSingleTrigger (.bool state.isSingleTrigger)

def defaultConfig (matchCriteria : Text) (state : PropertyMap) : PropertyMap :=
  let state := state.set .filter (.string matchCriteria)
  let state := (state.set .startDefined (.bool false)).set .stopDefined (.bool false)
  let state := (state.set .startTriggerName (.string [])).set .startCtx (.string [])
  let state := (state.set .stopTriggerName (.string [])).set .stopCtx (.string [])
  let state := (state.set .startTriggerNameEnds (.bool false)).set .startCtxEnds (.bool false)
  let state := (state.set .stopTriggerNameEnds (.bool false)).set .stopCtxEnds (.bool false)
  state.reset

/-- The part of `verifyFilterState()` that runs for criteria that the state does not hold yet. -/
def configure (matchCriteria : Text) (state : PropertyMap) : Flow × PropertyMap :=
  let state := defaultConfig matchCriteria state
  if matchCriteria = [] then (.returns, state)
  else
    match stripBrackets matchCriteria with
    | .error what => (.throws what, state)
    | .ok criteria =>
      match configurePart start (parts criteria).1 state with
      | (.goesOn, state) =>
        match configurePart stop (parts criteria).2 state with
        | (.goesOn, state) => (.goesOn, configureSingle state)
        | ends => ends
      | ends => ends

def verifyFilterState (matchCriteria : Text) (state : PropertyMap) : Flow × PropertyMap :=
  if (state .filter).isSome ∧ (state.getText .filter).getD [] = matchCriteria then (.returns, state)
  else configure matchCriteria state

/-! ### Filtering -/

inductive TagKey
  | triggerName
  | context
  | other (name : Text)
  deriving DecidableEq, Repr

abbrev Tag := List (TagKey × Value)

/-- The text of an entry of a tag, empty if there is none. -/
def Tag.text (tag : Tag) (key : TagKey) : Text :=
  match List.lookup key tag with
  | some (.string value) => value
  | _ => []

/-- Whether a match waits for the tag that ends it. -/
def ends (part : Part) (state : PropertyMap) : Bool :=
  match state.getBool part.triggerNameEnds, state.getBool part.ctxEnds with
  | some nameEnds, some ctxEnds => nameEnds || ctxEnds
  | _, _ => false

/-- The last part of `filter()`, for a filter with a start part and a stop part. -/
def filterRange (triggerActive startMatch stopMatch : Bool) (state : PropertyMap) : MatchResult × PropertyMap :=
  if !triggerActive || state.flag .waitingForStartNonMatch then
    if startMatch then
      let state := (state.set .triggerActive (.bool true)).set .waitingForStartNonMatch (.bool (ends start state))
      (if state.flag .waitingForStartNonMatch then .ignore else .matching, state)
    else if state.flag .waitingForStartNonMatch then (.matching, state.set .waitingForStartNonMatch (.bool false))
    else (.ignore, state)
  else if stopMatch || state.flag .waitingForStopNonMatch then
    let state := state.set .waitingForStopNonMatch (.bool (ends stop state))
    if !state.flag .waitingForStopNonMatch then (.notMatching, state.reset)
    else if !stopMatch then (.notMatching, state.reset)
    else (.ignore, state)
  else (.ignore, state)

/-- The part of `filter()` behind `verifyFilterState()`. -/
def filterTag (tag : Tag) (state : PropertyMap) : MatchResult × PropertyMap :=
  match state.getBool .startDefined, state.getBool .stopDefined with
  | some startDefined, some stopDefined =>
    if !startDefined && !stopDefined || tag.isEmpty then (.ignore, state)
    else
      match state.getBool .triggerActive, state.getText .startTriggerName, state.getText .startCtx,
          state.getText .stopTriggerName, state.getText .stopCtx with
      | some triggerActive, some startTriggerName, some startCtx, some stopTriggerName, some stopCtx =>
        let triggerName := tag.text .triggerName
        let triggerCtx := tag.text .context
        -- the single filter looks for the context of the tag in its own, the range filter for its own in that of the tag
        if state.isSingleTrigger ∧ (startTriggerName = [] ∨ triggerName = startTriggerName) ∧
            (startCtx = [] ∨ triggerCtx <:+: startCtx) then
          (.matching, state.set .waitingForStartNonMatch (.bool (ends start state)))
        else if startDefined && stopDefined then
          let startMatch :=
            (startTriggerName = [] ∨ triggerName = startTriggerName) ∧ (startCtx = [] ∨ startCtx <:+: triggerCtx)
          let stopMatch := (stopTriggerName = [] ∨ triggerName = stopTriggerName) ∧ (stopCtx = [] ∨ stopCtx <:+: triggerCtx)
          filterRange triggerActive startMatch stopMatch state
        else (.ignore, state)
      | _, _, _, _, _ => (.ignore, state)
  | _, _ => (.ignore, state)

def filter (filterDefinition : Text) (tag : Tag) (state : PropertyMap) : Except String MatchResult × PropertyMap :=
  match verifyFilterState filterDefinition state with
  | (.throws what, state) => (.error what, state)
  | (_, state) => (.ok (filterTag tag state).1, (filterTag tag state).2)

/-- The results of successive calls on one state map. -/
def filterAll (filterDefinition : Text) : List Tag → PropertyMap → List (Except String MatchResult)
  | [], _ => []
  | tag :: tags, state =>
    (filter filterDefinition tag state).1 :: filterAll filterDefinition tags (filter filterDefinition tag state).2

end GnuRadio.TriggerMatcher
