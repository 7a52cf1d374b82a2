import GnuRadio.Theorems.TriggerMatcher.Configuration

/-! A filter with a start part and a stop part opens and closes windows. -/

namespace GnuRadio.TriggerMatcher

variable {state : PropertyMap} {definition : Text} {a b : Condition} {tag : Tag}

/-- A match waits for the tag that ends it. -/
def Condition.ends (c : Condition) : Bool := c.triggerNameEnds || c.triggerCtxEnds

/-- The condition of a range filter on a tag. -/
def Condition.holds (c : Condition) (tag : Tag) : Bool :=
  (c.triggerName = [] ∨ tag.text .triggerName = c.triggerName) ∧
    (c.triggerCtx = [] ∨ c.triggerCtx <:+: tag.text .context)

/-- Whether a window is open, and whether the condition for its next edge has held and has to end first. -/
structure Window where
  isOpen : Bool
  pending : Bool
  deriving DecidableEq, Repr

namespace Window

def closed : Window := ⟨false, false⟩

/-- The window opens or closes. -/
def toggle (w : Window) : MatchResult × Window := (if w.isOpen then .notMatching else .matching, ⟨!w.isOpen, false⟩)

/-- What a tag does. Without `'^'`, a window opens or closes when its condition holds. With it, at the first later tag on
    which the condition no longer holds. -/
def next (start stop : Condition) (tag : Tag) (w : Window) : MatchResult × Window :=
  let edge := if w.isOpen then stop else start
  if edge.holds tag then if edge.ends then (.ignore, { w with pending := true }) else w.toggle
  else if edge.ends && w.pending then w.toggle
  else (.ignore, w)

end Window

/-- The results on successive tags, of which those that `skips` picks are ignored. -/
def windows (skips : Tag → Bool) (start stop : Condition) : List Tag → Window → List MatchResult
  | [], _ => []
  | tag :: tags, w =>
    if skips tag then .ignore :: windows skips start stop tags w
    else (w.next start stop tag).1 :: windows skips start stop tags (w.next start stop tag).2

/-- Openings and closings take turns. -/
def Alternates : Bool → List MatchResult → Prop
  | _, [] => True
  | isOpen, result :: results => result = (if isOpen then .notMatching else .matching) ∧ Alternates (!isOpen) results

theorem Window.next_cases (start stop : Condition) (tag : Tag) (w : Window) :
    w.next start stop tag = w.toggle ∨
      (w.next start stop tag).1 = .ignore ∧ (w.next start stop tag).2.isOpen = w.isOpen := by
  unfold Window.next
  generalize (if w.isOpen then stop else start) = edge
  dsimp only
  split
  · split
    · exact .inr ⟨rfl, rfl⟩
    · exact .inl rfl
  · split
    · exact .inl rfl
    · exact .inr ⟨rfl, rfl⟩

theorem Window.toggle_ne_ignore (w : Window) : w.toggle.1 ≠ .ignore := by
  unfold Window.toggle
  split <;> simp

theorem alternates_windows (skips : Tag → Bool) (start stop : Condition) (tags : List Tag) (w : Window) :
    Alternates w.isOpen ((windows skips start stop tags w).filter (· ≠ .ignore)) := by
  induction tags generalizing w with
  | nil => trivial
  | cons tag tags ih =>
    unfold windows
    split
    · exact ih w
    · obtain ht | ⟨hignore, hopen⟩ := Window.next_cases start stop tag w
      · rw [ht, List.filter_cons_of_pos (by simpa using w.toggle_ne_ignore)]
        exact ⟨rfl, ih w.toggle.2⟩
      · rw [hignore, List.filter_cons_of_neg (by simp), ← hopen]
        exact ih _

/-- The text of a filter with two parts, which differ in their names or contexts. -/
structure RangeFilter (definition : Text) (a b : Condition) : Prop where
  parsed : ∃ body, stripBrackets definition = .ok body ∧ (parts body).1 ≠ [] ∧ (parts body).2 ≠ [] ∧
    parse (parts body).1 false = .ok a ∧ parse (parts body).2 false = .ok b
  distinct : a.triggerName ≠ b.triggerName ∨ a.triggerCtx ≠ b.triggerCtx

/-- The state holds a range filter and the window that it has come to. -/
structure Ranges (definition : Text) (a b : Condition) (w : Window) (state : PropertyMap) : Prop where
  filter : state.getText .filter = some definition
  startDefined : state.getBool .startDefined = some true
  stopDefined : state.getBool .stopDefined = some true
  startTriggerName : state.getText .startTriggerName = some a.triggerName
  startCtx : state.getText .startCtx = some a.triggerCtx
  stopTriggerName : state.getText .stopTriggerName = some b.triggerName
  stopCtx : state.getText .stopCtx = some b.triggerCtx
  startEnds : ends start state = a.ends
  stopEnds : ends stop state = b.ends
  triggerActive : state.getBool .triggerActive = some (w.isOpen || w.pending)
  startWaits : state.flag .waitingForStartNonMatch = (!w.isOpen && w.pending)
  stopWaits : state.flag .waitingForStopNonMatch = (w.isOpen && w.pending)
  pending : w.pending = true → (if w.isOpen then b else a).ends = true

theorem RangeFilter.ne_nil (h : RangeFilter definition a b) : definition ≠ [] := by
  rintro rfl
  obtain ⟨⟨body, hbody, hne, -⟩, -⟩ := h
  cases hbody
  exact hne rfl

theorem RangeFilter.configure (h : RangeFilter definition a b) (state : PropertyMap) :
    (configure definition state).1 = .goesOn ∧ Ranges definition a b .closed (configure definition state).2 := by
  have hnil := h.ne_nil
  obtain ⟨⟨body, hbody, hstart, hstop, ha, hb⟩, hd⟩ := h
  have hwrite : (TriggerMatcher.configure definition state) =
      (.goesOn, configureSingle (writeCondition stop b (writeCondition start a (defaultConfig definition state)))) := by
    have hfresh : stop.Fresh (writeCondition start a (defaultConfig definition state)) := by
      have hkept := configurePart_stop_fresh (parts body).1 (stop_fresh definition state)
      rwa [configurePart_parses (start_fresh definition state) hstart ha] at hkept
    simp [TriggerMatcher.configure, hnil, hbody, configurePart_parses (start_fresh definition state) hstart ha,
      configurePart_parses hfresh hstop hb]
  rw [hwrite]
  refine ⟨rfl, ?_⟩
  have hdiffer : ¬ (a.triggerName = b.triggerName ∧ a.triggerCtx = b.triggerCtx) := by
    rintro ⟨hn, hc⟩
    exact hd.elim (· hn) (· hc)
  constructor <;>
    simp [configureSingle, PropertyMap.isSingleTrigger, writeCondition, start, stop, defaultConfig, PropertyMap.reset, ends,
      Condition.ends, Window.closed, hdiffer]

theorem filterTag_ranges {w : Window} (h : Ranges definition a b w state) (htag : tag.isEmpty = false) :
    filterTag tag state = filterRange (w.isOpen || w.pending) (a.holds tag) (b.holds tag) state := by
  have hsingle : state.isSingleTrigger = false := by
    simp [PropertyMap.isSingleTrigger, h.startDefined, h.stopDefined]
  simp [filterTag, h.startDefined, h.stopDefined, htag, h.triggerActive, h.startTriggerName, h.startCtx, h.stopTriggerName,
    h.stopCtx, hsingle, Condition.holds]

/-- The three flags change, and the configuration stays. -/
theorem Ranges.move {w w' : Window} {state' : PropertyMap} (h : Ranges definition a b w state)
    (hsame : ∀ key, key ≠ .triggerActive → key ≠ .waitingForStartNonMatch → key ≠ .waitingForStopNonMatch →
      state' key = state key)
    (hactive : state'.getBool .triggerActive = some (w'.isOpen || w'.pending))
    (hstart : state'.flag .waitingForStartNonMatch = (!w'.isOpen && w'.pending))
    (hstop : state'.flag .waitingForStopNonMatch = (w'.isOpen && w'.pending))
    (hpending : w'.pending = true → (if w'.isOpen then b else a).ends = true) : Ranges definition a b w' state' := by
  have hbool {key : Key} (h₁ : key ≠ .triggerActive) (h₂ : key ≠ .waitingForStartNonMatch)
      (h₃ : key ≠ .waitingForStopNonMatch) : state'.getBool key = state.getBool key := by
    rw [PropertyMap.getBool, hsame key h₁ h₂ h₃, PropertyMap.getBool]
  have htext {key : Key} (h₁ : key ≠ .triggerActive) (h₂ : key ≠ .waitingForStartNonMatch)
      (h₃ : key ≠ .waitingForStopNonMatch) : state'.getText key = state.getText key := by
    rw [PropertyMap.getText, hsame key h₁ h₂ h₃, PropertyMap.getText]
  have hends (part : Part) (h₁ : part.triggerNameEnds ≠ .triggerActive)
      (h₂ : part.triggerNameEnds ≠ .waitingForStartNonMatch) (h₃ : part.triggerNameEnds ≠ .waitingForStopNonMatch)
      (h₄ : part.ctxEnds ≠ .triggerActive) (h₅ : part.ctxEnds ≠ .waitingForStartNonMatch)
      (h₆ : part.ctxEnds ≠ .waitingForStopNonMatch) : ends part state' = ends part state := by
    rw [ends, hbool h₁ h₂ h₃, hbool h₄ h₅ h₆, ends]
  exact {
    filter := (htext (by simp) (by simp) (by simp)).trans h.filter
    startDefined := (hbool (by simp) (by simp) (by simp)).trans h.startDefined
    stopDefined := (hbool (by simp) (by simp) (by simp)).trans h.stopDefined
    startTriggerName := (htext (by simp) (by simp) (by simp)).trans h.startTriggerName
    startCtx := (htext (by simp) (by simp) (by simp)).trans h.startCtx
    stopTriggerName := (htext (by simp) (by simp) (by simp)).trans h.stopTriggerName
    stopCtx := (htext (by simp) (by simp) (by simp)).trans h.stopCtx
    startEnds := (hends start (by simp [start]) (by simp [start]) (by simp [start]) (by simp [start]) (by simp [start])
      (by simp [start])).trans h.startEnds
    stopEnds := (hends stop (by simp [stop]) (by simp [stop]) (by simp [stop]) (by simp [stop]) (by simp [stop])
      (by simp [stop])).trans h.stopEnds
    triggerActive := hactive
    startWaits := hstart
    stopWaits := hstop
    pending := hpending }

theorem set_same {key key' : Key} {value : Value} (h : key' ≠ key) : state.set key value key' = state key' :=
  Function.update_of_ne h _ _

theorem reset_same {key : Key} (h₁ : key ≠ .triggerActive) (h₂ : key ≠ .waitingForStartNonMatch)
    (h₃ : key ≠ .waitingForStopNonMatch) : state.reset key = state key := by
  rw [PropertyMap.reset, set_same h₃, set_same h₂, set_same h₁]

/-- A tag on which no window is open. -/
theorem Ranges.step_closed {pending : Bool} (h : Ranges definition a b ⟨false, pending⟩ state) (tag : Tag) :
    (filterRange pending (a.holds tag) (b.holds tag) state).1 = (Window.next a b tag ⟨false, pending⟩).1 ∧
      Ranges definition a b (Window.next a b tag ⟨false, pending⟩).2
        (filterRange pending (a.holds tag) (b.holds tag) state).2 := by
  have hwaits : state.flag .waitingForStartNonMatch = pending := by simpa using h.startWaits
  have hbranch : (!pending || pending) = true := by cases pending <;> rfl
  have hstop : state.flag .waitingForStopNonMatch = false := by simpa using h.stopWaits
  unfold filterRange Window.next
  rw [hwaits, if_pos hbranch, if_neg (by simp : ¬ (⟨false, pending⟩ : Window).isOpen = true)]
  dsimp only
  cases ha : a.holds tag with
  | true =>
    have hends := h.startEnds
    cases he : a.ends with
    | true =>
      refine ⟨by simp [hends, he], h.move (fun key h₁ h₂ _ => ?_) ?_ ?_ ?_ ?_⟩
      · simp only [if_true]
        rw [set_same h₂, set_same h₁]
      all_goals simp [hends, he, hstop]
    | false =>
      refine ⟨by simp [hends, he, Window.toggle], h.move (fun key h₁ h₂ _ => ?_) ?_ ?_ ?_ ?_⟩
      · simp only [if_true]
        rw [set_same h₂, set_same h₁]
      all_goals simp [hends, he, hstop, Window.toggle]
  | false =>
    cases pending with
    | true =>
      have he : a.ends = true := by simpa using h.pending rfl
      refine ⟨by simp [he, Window.toggle], h.move (fun key _ h₂ _ => ?_) ?_ ?_ ?_ ?_⟩
      · simp only [Bool.false_eq_true, if_false, if_true]
        exact set_same h₂
      all_goals simp [he, hstop, h.triggerActive, Window.toggle]
    | false => exact ⟨by simp, by simpa using h⟩

/-- A tag on which a window is open. -/
theorem Ranges.step_open {pending : Bool} (h : Ranges definition a b ⟨true, pending⟩ state) (tag : Tag) :
    (filterRange true (a.holds tag) (b.holds tag) state).1 = (Window.next a b tag ⟨true, pending⟩).1 ∧
      Ranges definition a b (Window.next a b tag ⟨true, pending⟩).2
        (filterRange true (a.holds tag) (b.holds tag) state).2 := by
  have hwaits : state.flag .waitingForStopNonMatch = pending := by simpa using h.stopWaits
  have hstart : state.flag .waitingForStartNonMatch = false := by simpa using h.startWaits
  have hends := h.stopEnds
  have hreset {st : PropertyMap} (hst : ∀ key, key ≠ .waitingForStopNonMatch → st key = state key) :
      Ranges definition a b ⟨false, false⟩ st.reset := by
    refine h.move (fun key h₁ h₂ h₃ => (reset_same h₁ h₂ h₃).trans (hst key h₃)) ?_ ?_ ?_ ?_ <;> simp [PropertyMap.reset]
  unfold filterRange Window.next
  rw [hwaits, hstart, if_neg (by simp), if_pos rfl]
  dsimp only
  cases hb : b.holds tag with
  | true =>
    cases he : b.ends with
    | true =>
      refine ⟨by simp [hends, he], ?_⟩
      simp only [Bool.true_or, if_true, PropertyMap.flag_set, hends, he]
      refine h.move (fun key _ _ h₃ => set_same h₃) ?_ ?_ ?_ ?_ <;> simp [h.triggerActive, hstart, he]
    | false =>
      refine ⟨by simp [hends, he, Window.toggle], ?_⟩
      simp only [Bool.true_or, if_true, PropertyMap.flag_set, hends, he]
      exact hreset fun key h₃ => set_same h₃
  | false =>
    cases pending with
    | true =>
      have he : b.ends = true := by simpa using h.pending rfl
      refine ⟨by simp [hends, he, Window.toggle], ?_⟩
      simp only [Bool.or_true, if_true, PropertyMap.flag_set, hends, he]
      exact hreset fun key h₃ => set_same h₃
    | false => exact ⟨by simp, by simpa using h⟩

/-- One call on a tag with entries does what the window does. -/
theorem Ranges.step {w : Window} (h : Ranges definition a b w state) (htag : tag.isEmpty = false) :
    (filterTag tag state).1 = (w.next a b tag).1 ∧ Ranges definition a b (w.next a b tag).2 (filterTag tag state).2 := by
  rw [filterTag_ranges h htag]
  obtain ⟨isOpen, pending⟩ := w
  cases isOpen with
  | false => exact h.step_closed tag
  | true => exact h.step_open tag

theorem filterTag_empty (h : tag.isEmpty = true) : filterTag tag state = (.ignore, state) := by
  unfold filterTag
  split
  · rw [if_pos (by simp [h])]
  · rfl

/-- A run of calls on a state that holds the filter. -/
theorem Ranges.run {w : Window} (h : Ranges definition a b w state) (tags : List Tag) :
    filterAll definition tags state = (windows List.isEmpty a b tags w).map .ok := by
  induction tags generalizing w state with
  | nil => rfl
  | cons tag tags ih =>
    unfold filterAll windows
    rw [filter_held h.filter]
    cases htag : tag.isEmpty with
    | true =>
      rw [filterTag_empty htag]
      exact congrArg (_ :: ·) (ih h)
    | false =>
      obtain ⟨hresult, hstate⟩ := h.step htag
      rw [hresult, ih hstate]
      rfl

theorem RangeFilter.filterAll (h : RangeFilter definition a b) (hnew : state.getText .filter ≠ some definition)
    (tags : List Tag) :
    TriggerMatcher.filterAll definition tags state = (windows List.isEmpty a b tags .closed).map .ok := by
  cases tags with
  | nil => rfl
  | cons tag tags =>
    obtain ⟨hflow, hranges⟩ := h.configure state
    have hheld := hranges.run (tag :: tags)
    rw [← hheld, TriggerMatcher.filterAll, TriggerMatcher.filterAll, filter_held hranges.filter, filter,
      verifyFilterState_new h.ne_nil hnew]
    cases hc : TriggerMatcher.configure definition state with
    | mk flow st =>
      rw [hc] at hflow
      dsimp only at hflow
      subst hflow
      rfl

/-- The results of a range filter are openings and closings of windows in turn, as its two conditions come and go on the
    tags with entries. -/
theorem range_windows (h : RangeFilter definition a b) (hnew : state.getText .filter ≠ some definition) (tags : List Tag) :
    filterAll definition tags state = (windows List.isEmpty a b tags .closed).map .ok ∧
      Alternates false ((windows List.isEmpty a b tags .closed).filter (· ≠ .ignore)) :=
  ⟨h.filterAll hnew tags, alternates_windows _ _ _ tags .closed⟩

/-- The window opens on the first tag behind `a` that is not one. -/
def behindA : Text := ['[', '^', 'a', ',', ' ', 'b', ']']

theorem behindA_range : RangeFilter behindA ⟨['a'], true, [], false⟩ ⟨['b'], false, [], false⟩ :=
  ⟨⟨['^', 'a', ',', ' ', 'b'], rfl, by decide, by decide, rfl, rfl⟩, .inl (by decide)⟩

theorem behindA_windows : filterAll behindA
      [[(.triggerName, .string ['a'])], [], [(.triggerName, .string ['c'])], [(.triggerName, .string ['b'])]] (fun _ => none) =
        [.ok .ignore, .ok .ignore, .ok .matching, .ok .notMatching] ∧ Alternates false [.matching, .notMatching] :=
  range_windows behindA_range (by simp [PropertyMap.getText]) _

/-- A tag without entries ends no condition, and two parts that differ by their `'^'` only are one single filter. -/
theorem not_all_windows :
    (¬ ∀ tags, filterAll behindA tags (fun _ => none) =
      (windows (fun _ => false) ⟨['a'], true, [], false⟩ ⟨['b'], false, [], false⟩ tags .closed).map .ok) ∧
    ¬ ∀ tags, filterAll ['[', '^', 'a', ',', 'a', ']'] tags (fun _ => none) =
      (windows (fun _ => false) ⟨['a'], true, [], false⟩ ⟨['a'], false, [], false⟩ tags .closed).map .ok := by
  constructor
  · intro h
    have hempty : [Except.ok .ignore, .ok .ignore] = [Except.ok .ignore, .ok MatchResult.matching] :=
      h [[(.triggerName, .string ['a'])], []]
    cases hempty
  · intro h
    have hsingle : [Except.ok MatchResult.matching] = [Except.ok .ignore] := h [[(.triggerName, .string ['a'])]]
    cases hsingle

end GnuRadio.TriggerMatcher
