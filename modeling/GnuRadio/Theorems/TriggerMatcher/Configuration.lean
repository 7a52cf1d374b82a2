import GnuRadio.TriggerMatcher
import Mathlib.Algebra.Order.Group.Nat

/-! What a filter's definition configures. A definition that cannot be parsed is refused once: the state holds it from then
    on. -/

namespace GnuRadio.TriggerMatcher

variable {state : PropertyMap} {definition text : Text} {a : Condition} {part : Part}

/-! ### Definitions -/

/-- There is a second separator behind the first. -/
theorem separator_twice (text : Text) : '/' ∈ (text.dropWhile (· ≠ '/')).tail ↔ 1 < text.count '/' := by
  induction text with
  | nil => simp
  | cons c text ih =>
    by_cases hc : c = '/'
    · subst hc
      rw [List.dropWhile_cons_of_neg (by simp), List.tail_cons, List.count_cons_self, ← List.count_pos_iff]
      omega
    · rw [List.dropWhile_cons_of_pos (by simpa using hc), List.count_cons_of_ne hc]
      exact ih

theorem parse_throws_iff (text : Text) (ctxEnds : Bool) : (∃ what, parse text ctxEnds = .error what) ↔ 1 < text.count '/' := by
  rw [← separator_twice]
  unfold parse
  constructor
  · rintro ⟨what, h⟩
    split at h
    · dsimp only at h
      split at h
      · assumption
      · cases h
    · cases h
  · intro h
    have hmem : '/' ∈ text := List.dropWhile_subset _ (List.mem_of_mem_tail h)
    rw [if_pos hmem]
    dsimp only
    rw [if_pos h]
    exact ⟨_, rfl⟩

/-- A bracket without the other, or a part with more than one separator. -/
def Malformed (definition : Text) : Prop :=
  (definition.head? = some '[' ∧ definition.getLast? ≠ some ']') ∨
  (definition.head? ≠ some '[' ∧ definition.getLast? = some ']') ∨
  ∃ body, stripBrackets definition = .ok body ∧ (1 < (parts body).1.count '/' ∨ 1 < (parts body).2.count '/')

theorem stripBrackets_throws_iff : (∃ what, stripBrackets definition = .error what) ↔
    (definition.head? = some '[' ∧ definition.getLast? ≠ some ']') ∨
      (definition.head? ≠ some '[' ∧ definition.getLast? = some ']') := by
  unfold stripBrackets
  by_cases hh : definition.head? = some '[' <;> by_cases hl : definition.getLast? = some ']' <;> simp [hh, hl]

theorem Malformed.ne_nil (h : Malformed definition) : definition ≠ [] := by
  rintro rfl
  obtain ⟨h, -⟩ | ⟨-, h⟩ | ⟨body, hbody, h⟩ := h
  · cases h
  · cases h
  · cases hbody
    obtain h | h := h <;> cases h

/-! ### Configuration -/

/-- The entries of a part are as `verifyFilterState()` starts them. -/
structure Part.Fresh (part : Part) (state : PropertyMap) : Prop where
  triggerName : state.getText part.triggerName = some []
  triggerNameEnds : state.getBool part.triggerNameEnds = some false
  ctx : state.getText part.ctx = some []
  ctxEnds : state.getBool part.ctxEnds = some false

theorem start_fresh (definition : Text) (state : PropertyMap) : start.Fresh (defaultConfig definition state) :=
  ⟨by simp [defaultConfig, start, PropertyMap.reset], by simp [defaultConfig, start, PropertyMap.reset],
    by simp [defaultConfig, start, PropertyMap.reset], by simp [defaultConfig, start, PropertyMap.reset]⟩

theorem configurePart_parses (h : part.Fresh state) (htext : text ≠ []) (hp : parse text false = .ok a) :
    configurePart part text state = (.goesOn, writeCondition part a state) := by
  simp [configurePart, htext, h.triggerName, h.triggerNameEnds, h.ctx, h.ctxEnds, hp]

theorem configurePart_throws_iff (text : Text) (h : part.Fresh state) :
    (∃ what, (configurePart part text state).1 = .throws what) ↔ 1 < text.count '/' := by
  by_cases htext : text = []
  · subst htext
    simp [configurePart]
  · rw [← parse_throws_iff text false]
    cases hp : parse text false <;>
      simp [configurePart, htext, h.triggerName, h.triggerNameEnds, h.ctx, h.ctxEnds, hp]

theorem configurePart_goesOn (h : part.Fresh state) (hn : ¬ 1 < text.count '/') :
    (configurePart part text state).1 = .goesOn := by
  by_cases htext : text = []
  · subst htext
    rfl
  · cases hp : parse text false with
    | error what => exact absurd ((parse_throws_iff text false).mp ⟨what, hp⟩) hn
    | ok condition => rw [configurePart_parses h htext hp]

/-- A part writes its own entries only. -/
theorem configurePart_stop_fresh (text : Text) (h : stop.Fresh state) : stop.Fresh (configurePart start text state).2 := by
  obtain ⟨h₁, h₂, h₃, h₄⟩ := h
  unfold configurePart
  split
  · exact ⟨by simpa [start, stop] using h₁, by simpa [start, stop] using h₂, by simpa [start, stop] using h₃,
      by simpa [start, stop] using h₄⟩
  · split
    · split
      · exact ⟨h₁, h₂, h₃, h₄⟩
      · exact ⟨by simpa [start, stop, writeCondition] using h₁, by simpa [start, stop, writeCondition] using h₂,
          by simpa [start, stop, writeCondition] using h₃, by simpa [start, stop, writeCondition] using h₄⟩
    · exact ⟨h₁, h₂, h₃, h₄⟩

theorem stop_fresh (definition : Text) (state : PropertyMap) : stop.Fresh (defaultConfig definition state) :=
  ⟨by simp [defaultConfig, stop, PropertyMap.reset], by simp [defaultConfig, stop, PropertyMap.reset],
    by simp [defaultConfig, stop, PropertyMap.reset], by simp [defaultConfig, stop, PropertyMap.reset]⟩

theorem configure_throws_iff : (∃ what, (configure definition state).1 = .throws what) ↔ Malformed definition := by
  by_cases hnil : definition = []
  · subst hnil
    exact iff_of_false (by simp [configure]) fun h => h.ne_nil rfl
  unfold Malformed
  rw [← or_assoc, ← stripBrackets_throws_iff]
  cases hbody : stripBrackets definition with
  | error what => simp [configure, hnil, hbody]
  | ok body =>
    have hstart := configurePart_throws_iff (parts body).1 (start_fresh definition state)
    have hstop := configurePart_throws_iff (parts body).2
      (configurePart_stop_fresh (parts body).1 (stop_fresh definition state))
    have hgoes : _ → (configurePart start (parts body).1 (defaultConfig definition state)).1 = .goesOn :=
      configurePart_goesOn (start_fresh definition state)
    simp only [reduceCtorEq, exists_false, Except.ok.injEq, exists_eq_left', false_or]
    simp only [configure, if_neg hnil, hbody]
    rw [← hstart, ← hstop]
    rw [← hstart] at hgoes
    cases hp : configurePart start (parts body).1 (defaultConfig definition state) with
    | mk flow st =>
      rw [hp] at hgoes
      cases flow with
      | goesOn =>
        cases hq : configurePart stop (parts body).2 st with
        | mk flow st' => cases flow <;> simp [hq]
      | returns => exact absurd (hgoes (by simp)) (by simp)
      | throws what => simp

theorem configurePart_filter (text : Text) (state : PropertyMap) :
    (configurePart start text state).2.getText .filter = state.getText .filter ∧
      (configurePart stop text state).2.getText .filter = state.getText .filter := by
  constructor <;> unfold configurePart <;> split
  · simp [start]
  · split
    · split <;> simp [start, writeCondition]
    · rfl
  · simp [stop]
  · split
    · split <;> simp [stop, writeCondition]
    · rfl

theorem configureSingle_filter (state : PropertyMap) :
    (configureSingle state).getText .filter = state.getText .filter := by
  unfold configureSingle
  dsimp only
  split <;> split <;> simp [clearStop]

/-- The state holds the criteria whatever comes of them. -/
theorem configure_filter (definition : Text) (state : PropertyMap) :
    (configure definition state).2.getText .filter = some definition := by
  have hdefault : (defaultConfig definition state).getText .filter = some definition := by
    simp [defaultConfig, PropertyMap.reset]
  unfold configure
  dsimp only
  split
  · exact hdefault
  · split
    · exact hdefault
    · next body _ =>
      have hstart := (configurePart_filter (parts body).1 (defaultConfig definition state)).1
      split
      · next st hst =>
        have hstop := (configurePart_filter (parts body).2 st).2
        rw [hst] at hstart
        split
        · next st' hst' =>
          rw [hst'] at hstop
          exact (configureSingle_filter st').trans (hstop.trans (hstart.trans hdefault))
        · exact hstop.trans (hstart.trans hdefault)
      · exact hstart.trans hdefault

/-- Criteria that the state holds are taken as verified. -/
theorem verifyFilterState_held (h : state.getText .filter = some definition) :
    verifyFilterState definition state = (.returns, state) := by
  have hsome : (state .filter).isSome := by
    cases hf : state .filter with
    | none => simp [PropertyMap.getText, hf] at h
    | some value => rfl
  rw [verifyFilterState, if_pos ⟨hsome, by rw [h]; rfl⟩]

theorem verifyFilterState_new (hnil : definition ≠ []) (h : state.getText .filter ≠ some definition) :
    verifyFilterState definition state = configure definition state := by
  rw [verifyFilterState, if_neg]
  rintro ⟨-, hd⟩
  cases ht : state.getText .filter with
  | none =>
    rw [ht] at hd
    exact hnil hd.symm
  | some held =>
    rw [ht] at hd h
    exact h (congrArg some hd)

/-! ### Definitions that cannot be parsed -/

/-- A call throws. -/
def Throws (result : Except String MatchResult) : Prop := ∃ what, result = .error what

theorem filter_held (h : state.getText .filter = some definition) (tag : Tag) :
    filter definition tag state = (.ok (filterTag tag state).1, (filterTag tag state).2) := by
  rw [filter, verifyFilterState_held h]

/-- The first call with a malformed definition throws, and leaves the definition in the state. -/
theorem filter_malformed (hm : Malformed definition) (h : state.getText .filter ≠ some definition) (tag : Tag) :
    Throws (filter definition tag state).1 ∧ (filter definition tag state).2.getText .filter = some definition := by
  obtain ⟨what, hwhat⟩ := configure_throws_iff.mpr hm
  have hkept := configure_filter definition state
  rw [filter, verifyFilterState_new hm.ne_nil h]
  cases hc : configure definition state with
  | mk flow st =>
    rw [hc] at hwhat hkept
    dsimp only at hwhat
    subst hwhat
    exact ⟨⟨what, rfl⟩, hkept⟩

/-- Every call throws, and none finds a match or its end. -/
def Rejected (results : List (Except String MatchResult)) : Prop :=
  ∀ result ∈ results, Throws result ∧ result ≠ .ok .matching ∧ result ≠ .ok .notMatching

/-- A malformed definition is rejected on every use if and only if it is used once at most, on a state that does not hold
    it. -/
theorem malformed_rejected_iff (hm : Malformed definition) (state : PropertyMap) (tags : List Tag) :
    Rejected (filterAll definition tags state) ↔
      tags = [] ∨ tags.length = 1 ∧ state.getText .filter ≠ some definition := by
  cases tags with
  | nil => exact iff_of_true (nofun) (.inl rfl)
  | cons tag tags =>
    by_cases hheld : state.getText .filter = some definition
    · refine iff_of_false (fun h => ?_) (by simp [hheld])
      obtain ⟨⟨what, hthrows⟩, -⟩ := h _ (.head _)
      rw [filter_held hheld] at hthrows
      cases hthrows
    · obtain ⟨⟨what, hthrows⟩, hkept⟩ := filter_malformed hm hheld tag
      cases tags with
      | nil =>
        refine iff_of_true (fun result hr => ?_) (.inr ⟨rfl, hheld⟩)
        rw [filterAll, filterAll, List.mem_singleton, hthrows] at hr
        subst hr
        exact ⟨⟨what, rfl⟩, by simp, by simp⟩
      | cons next tags =>
        refine iff_of_false (fun h => ?_) (by simp)
        obtain ⟨⟨what', hthrows'⟩, -⟩ := h _ (.tail _ (.head _))
        rw [filter_held hkept] at hthrows'
        cases hthrows'

/-- A stop part with two separators. -/
def twoSeparators : Text := ['[', 'a', ',', 'b', '/', 'c', '/', 'd', ']']

theorem twoSeparators_malformed : Malformed twoSeparators :=
  .inr (.inr ⟨['a', ',', 'b', '/', 'c', '/', 'd'], rfl, .inr (by decide)⟩)

theorem twoSeparators_rejected : Rejected (filterAll twoSeparators [[]] fun _ => none) :=
  (malformed_rejected_iff twoSeparators_malformed (fun _ => none) [[]]).mpr (.inr ⟨rfl, by simp [PropertyMap.getText]⟩)

/-- The second call takes the start part for the whole filter. -/
theorem twoSeparators_matches :
    ¬ ∀ definition state tags, Malformed definition → Rejected (filterAll definition tags state) := by
  intro h
  have hmatches : (filterAll twoSeparators
      [[(.triggerName, .string ['a'])], [(.triggerName, .string ['a'])]] fun _ => none)[1]? = some (.ok .matching) := by
    rfl
  exact (h twoSeparators _ _ twoSeparators_malformed _ (List.mem_of_getElem? hmatches)).2.1 rfl

end GnuRadio.TriggerMatcher
