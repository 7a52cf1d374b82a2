import GnuRadio.Theorems.TriggerMatcher.Windows

/-! A condition in a single filter and as the start part of a range filter: the two agree on a tag unless one of the two
    contexts, the condition's and the tag's, is part of the other. -/

namespace GnuRadio.TriggerMatcher

variable {state : PropertyMap} {definition text body F G : Text} {a c d : Condition} {tag : Tag}

/-! ### Trimmed texts -/

section Trim
variable {p : Char → Bool}

theorem rdropWhile_cons (x : Char) (l : Text) :
    (x :: l).rdropWhile p = if l.rdropWhile p = [] then [x].rdropWhile p else x :: l.rdropWhile p := by
  simp only [List.rdropWhile, List.reverse_cons, List.dropWhile_append, List.reverse_nil, List.nil_append,
    List.isEmpty_iff, List.reverse_eq_nil_iff]
  split <;> simp

theorem rdropWhile_cons_of_neg {x : Char} (hx : ¬ p x = true) (l : Text) :
    (x :: l).rdropWhile p = x :: l.rdropWhile p := by
  rw [rdropWhile_cons, List.rdropWhile_singleton, if_neg hx]
  split
  · next h => rw [h]
  · rfl

theorem dropWhile_rdropWhile (l : Text) : (l.rdropWhile p).dropWhile p = (l.dropWhile p).rdropWhile p := by
  induction l with
  | nil => rfl
  | cons x l ih =>
    cases hx : p x with
    | true =>
      rw [rdropWhile_cons, List.dropWhile_cons_of_pos hx, ← ih]
      split
      · next h => rw [h, List.rdropWhile_singleton, if_pos hx]
      · rw [List.dropWhile_cons_of_pos hx]
    | false =>
      have hx' : ¬ p x = true := by simp [hx]
      rw [rdropWhile_cons_of_neg hx', List.dropWhile_cons_of_neg hx', List.dropWhile_cons_of_neg hx',
        rdropWhile_cons_of_neg hx']

end Trim

theorem trim_dropWhile (text : Text) : trim (text.dropWhile isspace) = trim text := by
  unfold trim
  rw [List.dropWhile_idempotent]

theorem trim_rdropWhile (text : Text) : trim (text.rdropWhile isspace) = trim text := by
  unfold trim
  rw [dropWhile_rdropWhile, List.rdropWhile_idempotent]

theorem trim_trim (text : Text) : trim (trim text) = trim text := by
  unfold trim
  rw [dropWhile_rdropWhile, List.dropWhile_idempotent, List.rdropWhile_idempotent]

theorem trim_eq_nil_iff : trim text = [] ↔ ∀ x ∈ text, isspace x = true := by
  unfold trim
  rw [List.rdropWhile_eq_nil_iff]
  constructor
  · intro h
    by_cases hdrop : text.dropWhile isspace = []
    · exact List.dropWhile_eq_nil_iff.mp hdrop
    · have hx := List.dropWhile_get_zero_not isspace text (List.length_pos_iff.mpr hdrop)
      exact absurd (h _ (List.get_mem _ _)) hx
  · exact fun h x hx => h x (List.dropWhile_subset _ hx)

theorem mem_trim {x : Char} (h : x ∈ trim text) : x ∈ text :=
  List.dropWhile_subset _ ((List.rdropWhile_prefix _ _).subset h)

/-- Around a separator, each side is trimmed at its outer end. -/
theorem trim_separator (name ctx : Text) :
    trim (name ++ '/' :: ctx) = name.dropWhile isspace ++ '/' :: ctx.rdropWhile isspace := by
  have hleft : (name ++ '/' :: ctx).dropWhile isspace = name.dropWhile isspace ++ '/' :: ctx := by
    rw [List.dropWhile_append]
    split
    · next h => rw [List.isEmpty_iff.mp h, List.dropWhile_cons_of_neg (by decide), List.nil_append]
    · rfl
  have hright : ('/' :: ctx).rdropWhile isspace = '/' :: ctx.rdropWhile isspace :=
    rdropWhile_cons_of_neg (by decide) ctx
  unfold trim
  rw [hleft]
  generalize name.dropWhile isspace = name'
  induction name' with
  | nil => exact hright
  | cons x name' ih =>
    rw [List.cons_append, rdropWhile_cons, if_neg (by rw [ih]; simp), ih, List.cons_append]

section Separator
variable {name ctx : Text} (h : '/' ∉ name)
include h

theorem takeWhile_separator : (name ++ '/' :: ctx).takeWhile (· ≠ '/') = name := by
  rw [List.takeWhile_append_of_pos fun x hx => by simpa using fun he : x = '/' => h (he ▸ hx)]
  simp

theorem dropWhile_separator : (name ++ '/' :: ctx).dropWhile (· ≠ '/') = '/' :: ctx := by
  rw [List.dropWhile_append_of_pos fun x hx => by simpa using fun he : x = '/' => h (he ▸ hx)]
  simp

theorem parse_separator (hctx : '/' ∉ ctx) :
    parse (name ++ '/' :: ctx) false = .ok ⟨(stripEnds (trim name)).1, (stripEnds (trim name)).2,
      (stripEnds (trim ctx)).1, (stripEnds (trim ctx)).2⟩ := by
  unfold parse
  rw [if_pos (by simp), takeWhile_separator h, dropWhile_separator h]
  dsimp only [List.tail_cons]
  rw [if_neg hctx]

end Separator

theorem parse_trim (h : parse F false = .ok c) : parse (trim F) false = .ok c := by
  by_cases hsep : '/' ∈ F
  · obtain ⟨name, ctx, rfl, hname⟩ := List.eq_append_cons_of_mem hsep
    have hctx : '/' ∉ ctx := fun hm => by
      unfold parse at h
      rw [if_pos hsep, dropWhile_separator hname, List.tail_cons] at h
      dsimp only at h
      rw [if_pos hm] at h
      cases h
    rw [parse_separator hname hctx] at h
    rw [trim_separator, parse_separator (fun hm => hname (List.dropWhile_subset _ hm))
      (fun hm => hctx ((List.rdropWhile_prefix _ _).subset hm)), trim_dropWhile, trim_rdropWhile]
    exact h
  · have hsep' : '/' ∉ trim F := fun hm => hsep (mem_trim hm)
    unfold parse at h ⊢
    rw [if_neg hsep] at h
    rw [if_neg hsep', trim_trim]
    exact h

/-- A blank text names nothing. -/
theorem parse_blank (h : trim F = []) : parse F false = .ok ⟨[], false, [], false⟩ := by
  have hsep : '/' ∉ F := fun hm => by
    have hspace := trim_eq_nil_iff.mp h _ hm
    exact absurd hspace (by decide)
  unfold parse
  rw [if_neg hsep, h]
  rfl

/-! ### The parts of the texts -/

theorem parts_of_comma (h : ',' ∉ F) (G : Text) : parts (F ++ ',' :: G) = (trim F, trim G) := by
  have hF : ∀ x ∈ F, decide (x ≠ ',') = true := fun x hx => by simpa using fun he : x = ',' => h (he ▸ hx)
  unfold parts
  rw [if_pos (by simp), List.takeWhile_append_of_pos hF, List.dropWhile_append_of_pos hF]
  simp

theorem parts_of_no_comma (h : ',' ∉ F) : parts F = (F, []) := if_neg h

theorem stripBrackets_bracketed (body : Text) : stripBrackets ('[' :: body ++ [']']) = .ok body := by
  unfold stripBrackets
  rw [if_pos ⟨rfl, List.getLast?_concat⟩, List.cons_append, List.tail_cons, List.dropLast_concat]

theorem stripBrackets_bare (hhead : F.head? ≠ some '[') (hlast : F.getLast? ≠ some ']') : stripBrackets F = .ok F := by
  unfold stripBrackets
  rw [if_neg fun h => hhead h.1, if_neg fun h => h.elim hhead hlast]

/-! ### Single filters -/

/-- The state holds a filter for one condition. -/
structure Singles (definition name ctx : Text) (state : PropertyMap) : Prop where
  filter : state.getText .filter = some definition
  defined : ∃ p q, state.getBool .startDefined = some p ∧ state.getBool .stopDefined = some q ∧ (p ^^ q) = true
  startTriggerName : state.getText .startTriggerName = some name
  startCtx : state.getText .startCtx = some ctx
  stopTriggerName : ∃ t, state.getText .stopTriggerName = some t
  stopCtx : ∃ t, state.getText .stopCtx = some t
  triggerActive : ∃ t, state.getBool .triggerActive = some t

/-- The condition of a single filter on a tag. -/
def SingleMatch (name ctx : Text) (tag : Tag) : Prop :=
  (name = [] ∨ tag.text .triggerName = name) ∧ (ctx = [] ∨ tag.text .context <:+: ctx)

instance (name ctx : Text) (tag : Tag) : Decidable (SingleMatch name ctx tag) := inferInstanceAs (Decidable (_ ∧ _))

variable {name ctx : Text}

theorem Singles.filterTag (h : Singles definition name ctx state) (htag : tag ≠ []) :
    TriggerMatcher.filterTag tag state =
      if SingleMatch name ctx tag then
        (.matching, state.set .waitingForStartNonMatch (.bool (ends start state)))
      else (.ignore, state) := by
  obtain ⟨p, q, hp, hq, hx⟩ := h.defined
  obtain ⟨stopName, hsn⟩ := h.stopTriggerName
  obtain ⟨stopCtx, hsc⟩ := h.stopCtx
  obtain ⟨active, ha⟩ := h.triggerActive
  have hsingle : state.isSingleTrigger = true := by simp [PropertyMap.isSingleTrigger, hp, hq, hx]
  have hany : (!p && !q) = false := by revert hx; cases p <;> cases q <;> simp
  have hboth : (p && q) = false := by revert hx; cases p <;> cases q <;> simp
  have hempty : tag.isEmpty = false := by simpa using htag
  simp [TriggerMatcher.filterTag, hp, hq, hany, hboth, hempty, ha, h.startTriggerName, h.startCtx, hsn, hsc, hsingle]
  rfl

/-- A single filter stays as it is. -/
theorem Singles.step (h : Singles definition name ctx state) (tag : Tag) :
    Singles definition name ctx (TriggerMatcher.filterTag tag state).2 := by
  by_cases htag : tag = []
  · rw [filterTag_empty (by simp [htag])]
    exact h
  · rw [h.filterTag htag]
    split
    · obtain ⟨h₁, h₂, h₃, h₄, h₅, h₆, h₇⟩ := h
      constructor <;> simpa only [PropertyMap.getText_set, PropertyMap.getBool_set, reduceCtorEq, if_false]
    · exact h

/-- What the definition of a single filter configures. -/
def Configures (definition name ctx : Text) : Prop := ∀ state,
  (configure definition state).1 = .goesOn ∧ Singles definition name ctx (configure definition state).2

section Configures
variable (hnil : definition ≠ []) (hbody : stripBrackets definition = .ok body)
include hnil hbody

theorem configures_start (hne : F ≠ []) (hparts : parts body = (F, [])) (hc : parse F false = .ok c) :
    Configures definition c.triggerName c.triggerCtx := by
  intro state
  have hwrite : configure definition state = (.goesOn, configureSingle
      (((writeCondition start c (defaultConfig definition state)).set .stopTriggerName (.string [])).set .stopCtx
        (.string []))) := by
    simp [configure, hnil, hbody, hparts, configurePart_parses (start_fresh definition state) hne hc]
    rfl
  rw [hwrite]
  refine ⟨rfl, ?_⟩
  by_cases hsame : c.triggerName = [] ∧ c.triggerCtx = []
  · constructor <;>
      simp [configureSingle, PropertyMap.isSingleTrigger, writeCondition, start, defaultConfig, PropertyMap.reset, hsame,
        clearStop]
  · constructor <;>
      simp [configureSingle, PropertyMap.isSingleTrigger, writeCondition, start, defaultConfig, PropertyMap.reset, hsame]

theorem configures_stop (hne : F ≠ []) (hparts : parts body = ([], F)) (hc : parse F false = .ok c) :
    Configures definition c.triggerName c.triggerCtx := by
  intro state
  have hwrite : configure definition state = (.goesOn, configureSingle (writeCondition stop c
      (((defaultConfig definition state).set .startTriggerName (.string [])).set .startCtx (.string [])))) := by
    have hfresh : stop.Fresh (configurePart start [] (defaultConfig definition state)).2 :=
      configurePart_stop_fresh [] (stop_fresh definition state)
    have hstop := configurePart_parses hfresh hne hc
    have hstart : configurePart start [] (defaultConfig definition state) =
        (.goesOn, ((defaultConfig definition state).set .startTriggerName (.string [])).set .startCtx (.string [])) := rfl
    rw [hstart] at hstop
    simp [configure, hnil, hbody, hparts, hstart, hstop]
  rw [hwrite]
  refine ⟨rfl, ?_⟩
  by_cases hsame : c.triggerName = [] ∧ c.triggerCtx = []
  · constructor <;>
      simp [configureSingle, PropertyMap.isSingleTrigger, writeCondition, stop, defaultConfig, PropertyMap.reset, hsame,
        clearStop]
  · constructor <;>
      simp [configureSingle, PropertyMap.isSingleTrigger, writeCondition, stop, defaultConfig, PropertyMap.reset, hsame,
        clearStop]

theorem configures_all (hparts : parts body = ([], [])) : Configures definition [] [] := by
  intro state
  have hwrite : configure definition state = (.goesOn, configureSingle
      (((((defaultConfig definition state).set .startTriggerName (.string [])).set .startCtx (.string [])).set
        .stopTriggerName (.string [])).set .stopCtx (.string []))) := by
    simp [configure, hnil, hbody, hparts, configurePart]
    rfl
  rw [hwrite]
  refine ⟨rfl, ?_⟩
  constructor <;>
    simp [configureSingle, PropertyMap.isSingleTrigger, defaultConfig, PropertyMap.reset, clearStop]

end Configures

/-! ### Matches -/

/-- The state map that calls on these tags leave of an empty one. -/
def stateAfter (definition : Text) (tags : List Tag) : PropertyMap :=
  tags.foldl (fun state tag => (filter definition tag state).2) fun _ => none

/-- The call on the tag finds a match, after calls on other tags. -/
def Matches (definition : Text) (earlier : List Tag) (tag : Tag) : Prop :=
  (filter definition tag (stateAfter definition earlier)).1 = .ok .matching

theorem Configures.filter (h : Configures definition name ctx) (hnil : definition ≠ [])
    (hstate : state.getText .filter = some definition → Singles definition name ctx state) (tag : Tag) :
    ∃ st, Singles definition name ctx st ∧
      TriggerMatcher.filter definition tag state = (.ok (filterTag tag st).1, (filterTag tag st).2) := by
  by_cases hheld : state.getText .filter = some definition
  · exact ⟨state, hstate hheld, filter_held hheld tag⟩
  · obtain ⟨hflow, hsingles⟩ := h state
    refine ⟨_, hsingles, ?_⟩
    rw [TriggerMatcher.filter, verifyFilterState_new hnil hheld]
    cases hc : configure definition state with
    | mk flow st =>
      rw [hc] at hflow
      dsimp only at hflow
      subst hflow
      rfl

theorem Configures.stateAfter (h : Configures definition name ctx) (hnil : definition ≠ [])
    (tags : List Tag) : (TriggerMatcher.stateAfter definition tags).getText .filter = some definition →
      Singles definition name ctx (TriggerMatcher.stateAfter definition tags) := by
  induction tags using List.reverseRecOn with
  | nil => exact fun h => absurd h (by simp [TriggerMatcher.stateAfter, PropertyMap.getText])
  | append_singleton tags tag ih =>
    obtain ⟨st, hst, hfilter⟩ := h.filter hnil ih tag
    unfold TriggerMatcher.stateAfter at hfilter ⊢
    rw [List.foldl_append, List.foldl_cons, List.foldl_nil, hfilter]
    exact fun _ => hst.step tag

/-- A single filter matches the tags of its condition, whatever came before. -/
theorem Configures.matches_iff (h : Configures definition name ctx) (hnil : definition ≠ [])
    (earlier : List Tag) (tag : Tag) : Matches definition earlier tag ↔ tag ≠ [] ∧ SingleMatch name ctx tag := by
  obtain ⟨st, hst, hfilter⟩ := h.filter hnil (h.stateAfter hnil earlier) tag
  unfold Matches
  rw [hfilter]
  by_cases htag : tag = []
  · rw [filterTag_empty (by simp [htag])]
    simp [htag]
  · rw [hst.filterTag htag]
    split <;> simp [*]

/-- A range filter without `'^'` in its start part matches the first tag on which that part holds. -/
theorem RangeFilter.matches_iff (h : RangeFilter definition c d) (hends : c.ends = false) (tag : Tag) :
    Matches definition [] tag ↔ tag ≠ [] ∧ c.holds tag = true := by
  have hnew : PropertyMap.getText (fun _ => none) .filter ≠ some definition := by simp [PropertyMap.getText]
  have hrun := h.filterAll hnew [tag]
  cases tag with
  | nil =>
    have hfirst : (filter definition [] fun _ => none).1 = .ok .ignore := (List.cons.inj hrun).1
    exact iff_of_false (fun hm => by cases hfirst.symm.trans hm) fun hm => hm.1 rfl
  | cons entry entries =>
    have hfirst : (filter definition (entry :: entries) fun _ => none).1 =
        .ok (Window.closed.next c d (entry :: entries)).1 := (List.cons.inj hrun).1
    unfold Matches stateAfter
    rw [List.foldl_nil, hfirst]
    cases hc : c.holds (entry :: entries) <;> simp [Window.next, Window.closed, Window.toggle, hc, hends]

/-! ### One condition, two filters -/

/-- A condition without `'^'`, as it stands in a filter of its own and in a part of a range filter. -/
structure ConditionText (F : Text) (c : Condition) : Prop where
  parsed : parse F false = .ok c
  noEnds : c.ends = false
  noComma : ',' ∉ F
  head : F.head? ≠ some '['
  last : F.getLast? ≠ some ']'

/-- A stop part of another name or context. -/
structure Unrelated (c : Condition) (G : Text) (d : Condition) : Prop where
  parsed : parse G false = .ok d
  ne_nil : trim G ≠ []
  distinct : c.triggerName ≠ d.triggerName ∨ c.triggerCtx ≠ d.triggerCtx

/-- The four texts of a single filter. -/
def singleForms (F : Text) : List Text :=
  [F, '[' :: F ++ [']'], '[' :: (F ++ [',']) ++ [']'], '[' :: (',' :: F) ++ [']']]

def rangeForm (F G : Text) : Text := '[' :: (F ++ ',' :: G) ++ [']']

theorem ConditionText.blank (h : ConditionText F c) (hF : trim F = []) : c = ⟨[], false, [], false⟩ := by
  have hp := h.parsed
  rw [parse_blank hF] at hp
  exact (Except.ok.inj hp).symm

theorem ConditionText.configures (h : ConditionText F c) {form : Text} (hform : form ∈ singleForms F) (hne : form ≠ []) :
    Configures form c.triggerName c.triggerCtx := by
  have hall (hF : trim F = []) {text : Text} (hc : Configures text [] []) :
      Configures text c.triggerName c.triggerCtx := by
    rw [h.blank hF]
    exact hc
  simp only [singleForms, List.mem_cons, List.not_mem_nil, or_false] at hform
  obtain rfl | rfl | rfl | rfl := hform
  · exact configures_start hne (stripBrackets_bare h.head h.last) hne (parts_of_no_comma h.noComma) h.parsed
  · by_cases hF : F = []
    · subst hF
      exact hall rfl (configures_all hne (stripBrackets_bracketed []) rfl)
    · exact configures_start hne (stripBrackets_bracketed F) hF (parts_of_no_comma h.noComma) h.parsed
  · have hparts : parts (F ++ [',']) = (trim F, []) := parts_of_comma h.noComma []
    by_cases hF : trim F = []
    · rw [hF] at hparts
      exact hall hF (configures_all hne (stripBrackets_bracketed _) hparts)
    · exact configures_start hne (stripBrackets_bracketed _) hF hparts (parse_trim h.parsed)
  · have hparts : parts (',' :: F) = ([], trim F) := parts_of_comma (F := []) (by simp) F
    by_cases hF : trim F = []
    · rw [hF] at hparts
      exact hall hF (configures_all hne (stripBrackets_bracketed _) hparts)
    · exact configures_stop hne (stripBrackets_bracketed _) hF hparts (parse_trim h.parsed)

theorem ConditionText.range (h : ConditionText F c) (hF : trim F ≠ []) (hG : Unrelated c G d) :
    RangeFilter (rangeForm F G) c d :=
  have hparts : parts (F ++ ',' :: G) = (trim F, trim G) := parts_of_comma h.noComma G
  ⟨⟨F ++ ',' :: G, stripBrackets_bracketed _, by rwa [hparts], by rw [hparts]; exact hG.ne_nil,
    by rw [hparts]; exact parse_trim h.parsed, by rw [hparts]; exact parse_trim hG.parsed⟩, hG.distinct⟩

/-- A blank start part leaves a single filter of the stop part. -/
theorem ConditionText.blank_range (h : ConditionText F c) (hF : trim F = []) (hG : Unrelated c G d) :
    Configures (rangeForm F G) d.triggerName d.triggerCtx := by
  have hparts : parts (F ++ ',' :: G) = ([], trim G) := hF ▸ parts_of_comma h.noComma G
  exact configures_stop (by simp [rangeForm]) (stripBrackets_bracketed _) hG.ne_nil hparts (parse_trim hG.parsed)

/-- The single filters and the range filter of a condition take the same tags, and none with another context than it
    names. -/
structure Agrees (F : Text) (c : Condition) (tag : Tag) : Prop where
  same : ∀ form ∈ singleForms F, ∀ earlier G d, Unrelated c G d →
    (Matches form earlier tag ↔ Matches (rangeForm F G) [] tag)
  context : c.triggerCtx ≠ [] → tag.text .context ≠ c.triggerCtx →
    (∀ form ∈ singleForms F, ∀ earlier, ¬ Matches form earlier tag) ∧
      ∀ G d, Unrelated c G d → ¬ Matches (rangeForm F G) [] tag

/-- There is an unrelated stop part that is the name of no such tag. -/
theorem exists_unrelated (c : Condition) (name : Text) (hc : c.triggerName = name ∨ c.triggerName = []) :
    ∃ G d, Unrelated c G d ∧ d.triggerName ≠ [] ∧ name ≠ d.triggerName := by
  by_cases ha : name = ['a']
  · refine ⟨['b'], ⟨['b'], false, [], false⟩, ⟨rfl, by decide, .inl ?_⟩, by simp, by simp [ha]⟩
    obtain hc | hc := hc <;> simp [hc, ha]
  · refine ⟨['a'], ⟨['a'], false, [], false⟩, ⟨rfl, by decide, .inl ?_⟩, by simp, ha⟩
    obtain hc | hc := hc <;> simp [hc, ha]

/-- No filter is defined, or it has no part. -/
def Undefined (state : PropertyMap) : Prop :=
  state .filter = none ∨ state.getBool .startDefined = some false ∧ state.getBool .stopDefined = some false

/-- The empty definition ignores every tag. -/
theorem Undefined.filter (h : Undefined state) (tag : Tag) :
    (TriggerMatcher.filter [] tag state).1 = .ok .ignore ∧ Undefined (TriggerMatcher.filter [] tag state).2 := by
  have hignore {st : PropertyMap} (h₁ : st.getBool .startDefined = some false)
      (h₂ : st.getBool .stopDefined = some false) : filterTag tag st = (.ignore, st) := by
    simp [filterTag, h₁, h₂]
  have hconfigured : (defaultConfig [] state).getBool .startDefined = some false ∧
      (defaultConfig [] state).getBool .stopDefined = some false := by
    simp [defaultConfig, PropertyMap.reset]
  unfold TriggerMatcher.filter verifyFilterState
  split
  · next hheld =>
    split at hheld
    · cases hheld
    · simp [configure] at hheld
  · next st hheld =>
    split at hheld
    · next hsome =>
      cases hheld
      obtain h | ⟨h₁, h₂⟩ := h
      · simp [h] at hsome
      · rw [hignore h₁ h₂]
        exact ⟨rfl, .inr ⟨h₁, h₂⟩⟩
    · simp only [configure, if_true, Prod.mk.injEq] at hheld
      obtain ⟨-, rfl⟩ := hheld
      rw [hignore hconfigured.1 hconfigured.2]
      exact ⟨rfl, .inr hconfigured⟩

theorem not_matches_nil (earlier : List Tag) (tag : Tag) : ¬ Matches [] earlier tag := by
  have hundefined : Undefined (stateAfter [] earlier) := by
    induction earlier using List.reverseRecOn with
    | nil => exact .inl rfl
    | append_singleton earlier tag ih =>
      unfold stateAfter at ih ⊢
      rw [List.foldl_append]
      exact (ih.filter tag).2
  intro hm
  cases hm.symm.trans (hundefined.filter tag).1

theorem ConditionText.matches_iff (h : ConditionText F c) {form : Text} (hform : form ∈ singleForms F)
    (earlier : List Tag) (tag : Tag) :
    Matches form earlier tag ↔ form ≠ [] ∧ tag ≠ [] ∧ SingleMatch c.triggerName c.triggerCtx tag := by
  by_cases hne : form = []
  · subst hne
    exact iff_of_false (not_matches_nil earlier tag) fun hm => hm.1 rfl
  · rw [(h.configures hform hne).matches_iff hne]
    simp [hne]

theorem ne_nil_of_singleForms (hF : F ≠ []) {form : Text} (hform : form ∈ singleForms F) : form ≠ [] := by
  simp only [singleForms, List.mem_cons, List.not_mem_nil, or_false] at hform
  obtain rfl | rfl | rfl | rfl := hform <;> simp [hF]

/-- With a blank condition, the single filter takes every tag, and the range filter those of its stop part. -/
theorem ConditionText.not_agrees_blank (h : ConditionText F c) (hF : trim F = []) (htag : tag ≠ []) : ¬ Agrees F c tag := by
  intro hagrees
  have hc := h.blank hF
  obtain ⟨G, d, hG, hname, hdiffer⟩ := exists_unrelated c (tag.text .triggerName) (.inr (by rw [hc]))
  have hform : '[' :: F ++ [']'] ∈ singleForms F := by simp [singleForms]
  have hsingle : Matches ('[' :: F ++ [']']) [] tag := by
    rw [h.matches_iff hform, hc]
    exact ⟨by simp, htag, .inl rfl, .inl rfl⟩
  have hrange := (hagrees.same _ hform [] G d hG).mp hsingle
  rw [(h.blank_range hF hG).matches_iff (by simp [rangeForm])] at hrange
  exact hrange.2.1.elim hname hdiffer

/-- A condition means the same in a single filter and at the start of a range filter if and only if the tag has another
    name, or the condition names no context or the tag's, or neither context is part of the other. A blank text is no
    condition, and a tag without entries is ignored by both. -/
theorem agrees_iff (h : ConditionText F c) (tag : Tag) : Agrees F c tag ↔
    tag = [] ∨ trim F ≠ [] ∧ (¬ (c.triggerName = [] ∨ tag.text .triggerName = c.triggerName) ∨ c.triggerCtx = [] ∨
      tag.text .context = c.triggerCtx ∨
      ¬ tag.text .context <:+: c.triggerCtx ∧ ¬ c.triggerCtx <:+: tag.text .context) := by
  by_cases hF : trim F = []
  · by_cases htag : tag = []
    · refine iff_of_true ⟨fun form hform earlier G d hG => ?_, fun _ _ => ⟨fun form hform earlier => ?_, fun G d hG => ?_⟩⟩
        (.inl htag)
      · rw [h.matches_iff hform, (h.blank_range hF hG).matches_iff (by simp [rangeForm])]
        simp [htag]
      · rw [h.matches_iff hform]
        simp [htag]
      · rw [(h.blank_range hF hG).matches_iff (by simp [rangeForm])]
        simp [htag]
    · exact iff_of_false (h.not_agrees_blank hF htag) (by simp [htag, hF])
  · have hne : F ≠ [] := by
      rintro rfl
      exact hF rfl
    have hsingle {form : Text} (hform : form ∈ singleForms F) (earlier : List Tag) :
        Matches form earlier tag ↔ tag ≠ [] ∧ SingleMatch c.triggerName c.triggerCtx tag := by
      rw [h.matches_iff hform]
      simp [ne_nil_of_singleForms hne hform]
    have hrange {G : Text} {d : Condition} (hG : Unrelated c G d) :
        Matches (rangeForm F G) [] tag ↔ tag ≠ [] ∧ c.holds tag = true := (h.range hF hG).matches_iff h.noEnds tag
    have hagrees : Agrees F c tag ↔
        ((tag ≠ [] ∧ SingleMatch c.triggerName c.triggerCtx tag) ↔ (tag ≠ [] ∧ c.holds tag = true)) ∧
          (c.triggerCtx ≠ [] → tag.text .context ≠ c.triggerCtx →
            ¬ (tag ≠ [] ∧ SingleMatch c.triggerName c.triggerCtx tag) ∧ ¬ (tag ≠ [] ∧ c.holds tag = true)) := by
      constructor
      · intro ha
        obtain ⟨G, d, hG, -⟩ := exists_unrelated c c.triggerName (.inl rfl)
        rw [← hsingle (.head _) [], ← hrange hG]
        refine ⟨ha.same F (.head _) [] G d hG, fun hc ht => ?_⟩
        exact ⟨(ha.context hc ht).1 F (.head _) [], (ha.context hc ht).2 G d hG⟩
      · intro ha
        refine ⟨fun form hform earlier G d hG => ?_, fun hc ht => ⟨fun form hform earlier => ?_, fun G d hG => ?_⟩⟩
        · rw [hsingle hform, hrange hG]
          exact ha.1
        · rw [hsingle hform]
          exact (ha.2 hc ht).1
        · rw [hrange hG]
          exact (ha.2 hc ht).2
    rw [hagrees]
    simp only [SingleMatch, Condition.holds, decide_eq_true_eq]
    by_cases hsame : tag.text .context = c.triggerCtx
    · rw [hsame]
      simp [hF]
    · generalize (c.triggerName = [] ∨ tag.text .triggerName = c.triggerName) = name
      by_cases htag : tag = []
      · simp [htag]
      · by_cases hname : name
        · by_cases hc : c.triggerCtx = []
          · simp [htag, hF, hname, hc]
          · by_cases h₁ : tag.text .context <:+: c.triggerCtx <;> by_cases h₂ : c.triggerCtx <:+: tag.text .context <;>
              simp [htag, hF, hsame, hname, hc, h₁, h₂]
        · simp [htag, hF, hname]

/-- An alarm of room 12, as a condition, and on a tag. -/
def room : Text := ['a', '/', '1', '2']

theorem room_condition : ConditionText room ⟨['a'], false, ['1', '2'], false⟩ :=
  ⟨rfl, rfl, by decide, by decide, by decide⟩

theorem room_agrees : Agrees room ⟨['a'], false, ['1', '2'], false⟩
    [(.triggerName, .string ['a']), (.context, .string ['3'])] :=
  (agrees_iff room_condition _).mpr (.inr ⟨by decide, .inr (.inr (.inr (by decide)))⟩)

/-- Without a context, the tag matches the single filter, and opens no window. -/
theorem room_not_agrees : ¬ ∀ F c tag, ConditionText F c → trim F ≠ [] → Agrees F c tag := by
  intro h
  have hagrees := h room _ [(.triggerName, .string ['a'])] room_condition (by decide)
  have hstop : Unrelated ⟨['a'], false, ['1', '2'], false⟩ ['b'] ⟨['b'], false, [], false⟩ :=
    ⟨rfl, by decide, .inl (by decide)⟩
  have hsingle : Matches room [] [(.triggerName, .string ['a'])] := by
    rfl
  have hrange : Except.ok .ignore = Except.ok MatchResult.matching :=
    (hagrees.same room (.head _) [] _ _ hstop).mp hsingle
  cases hrange

end GnuRadio.TriggerMatcher
