import GnuRadio.Theorems.Settings.Conversions

/-! The stored sets stand under their own contexts and hold values that their members can have, in every run. An
    activation then never throws, and it does one of three things: nothing, another set of the active context, or another
    context. -/

namespace GnuRadio.Settings

variable {κ ν : Type} {τ : Key → Type}

theorem bestSettingsCtx_mem {vec : List (CtxSettingsPair κ ν)} {time : Nat} {ctx : SettingsCtx κ}
    (h : bestSettingsCtx vec time = some ctx) : ∃ pair ∈ vec, pair.context = ctx := by
  unfold bestSettingsCtx at h
  split at h
  · cases h
  · next back hback =>
    have hback := List.mem_of_getLast? hback
    split at h
    · cases h
      exact ⟨back, hback, rfl⟩
    · split at h
      · cases h
        exact ⟨back, hback, rfl⟩
      · next lower later hdrop =>
        split at h
        · cases h
          have hlower : lower ∈ vec.dropWhile (·.time < time) := by rw [hdrop]; exact .head _
          exact ⟨lower, (List.dropWhile_sublist _).subset hlower, rfl⟩
        · obtain ⟨last, hlast, rfl⟩ := Option.map_eq_some_iff.mp h
          exact ⟨last, (List.takeWhile_sublist _).subset (List.mem_of_getLast? hlast), rfl⟩

theorem matchAttempt_mem {matchPred : MatchPredicate κ} {context best : κ} {attempt : Nat} {contexts : List κ}
    (h : matchAttempt matchPred context attempt contexts = some (some best)) : best ∈ contexts := by
  induction contexts with
  | nil => cases h
  | cons c contexts ih =>
    unfold matchAttempt at h
    split at h
    · cases h
    · cases h
      exact .head _
    · exact .tail _ (ih h)

variable [LinearOrder κ]

theorem findBestMatchCtx_mem {matchPred : MatchPredicate κ} {stored : StoredParameters κ ν} {context best : κ}
    (h : findBestMatchCtx matchPred stored context = some best) : best ∈ stored := by
  unfold findBestMatchCtx at h
  split at h
  · next hmem =>
    cases h
    exact hmem
  · obtain ⟨attempt, -, hattempt⟩ := List.exists_of_findSome?_eq_some (Option.join_eq_some_iff.mp h)
    have hmem := matchAttempt_mem hattempt
    rw [List.mem_insertionSort] at hmem
    exact AList.mem_keys.mpr hmem

namespace CtxSettings

variable (d : BlockDescriptor κ ν τ)

/-- Each set stands under its own context, and stored values are values of their members. -/
structure WellFormed (s : CtxSettings κ ν τ) : Prop where
  context : ∀ context, ∀ pair ∈ setsOf s.stored context, pair.context.context = context
  stored : ∀ context, ∀ pair ∈ setsOf s.stored context, d.Converted pair.settings
  defaults : d.Converted s.defaultParameters

variable {d} {s t : CtxSettings κ ν τ} {ctx best : SettingsCtx κ} {now : Nat}

theorem Staging.wellFormed (h : Staging s t) (hw : s.WellFormed d) : t.WellFormed d where
  context := by rw [h.stored]; exact hw.context
  stored := by rw [h.stored]; exact hw.stored
  defaults := by rw [h.defaultParameters]; exact hw.defaults

/-- The set that a lookup finds is stored. -/
theorem WellFormed.find (hw : s.WellFormed d) (h : s.findBestMatchSettingsCtx d ctx = some best) :
    best.context ∈ s.stored ∧ ∃ values, s.storedSet best = some values ∧ d.Converted values := by
  obtain ⟨context, hcontext, hbest⟩ := Option.bind_eq_some_iff.mp h
  obtain ⟨pair, hpair, rfl⟩ := bestSettingsCtx_mem hbest
  have hctx := hw.context context pair hpair
  rw [hctx]
  refine ⟨findBestMatchCtx_mem hcontext, ?_⟩
  cases hfind : (setsOf s.stored context).find? (·.context = pair.context) with
  | none => exact absurd (List.find?_eq_none.mp hfind pair hpair) (by simp)
  | some first =>
    refine ⟨first.settings, ?_, hw.stored context first (List.mem_of_find?_eq_some hfind)⟩
    rw [storedSet, hctx, hfind]
    rfl

theorem getBestMatchStoredParameters_of_find (h : s.findBestMatchSettingsCtx d ctx = some best) :
    s.getBestMatchStoredParameters d ctx = s.storedSet best := by
  have h : Settings.findBestMatchSettingsCtx d.matchPred s.stored ctx = some best := h
  rw [getBestMatchStoredParameters, Settings.getBestMatchStoredParameters, h]
  rfl

/-- The keys that follow tags in a set whose entry is filled. -/
def followedIn (d : BlockDescriptor κ ν τ) (s : CtxSettings κ ν τ) (best : SettingsCtx κ) : Finset Key :=
  ((s.withAutoUpdateEntry d best).autoUpdateParameters best).getD ∅

/-- What an activation does to well-formed settings. -/
theorem activateContext_cases (hw : s.WellFormed d) (ctx : SettingsCtx κ) (now : Nat) :
    ((∃ found, s.activateContext d ctx now = (.ok found, s)) ∧
        ∀ best, s.findBestMatchSettingsCtx d (ctx.orNow now) = some best → best = s.activeCtx) ∨
      ∃ best values, s.findBestMatchSettingsCtx d (ctx.orNow now) = some best ∧ best ≠ s.activeCtx ∧
        s.storedSet best = some values ∧
          ((best.context = s.activeCtx.context ∧ ∃ converted,
              s.activateContext d ctx now = (.ok (some best),
                { (s.withAutoUpdateEntry d best).staging converted with activeCtx := best, changed := true }) ∧
              ∀ k, converted.lookup k =
                if (d.writable k).isSome ∧ k ∉ s.followedIn d best then values.lookup k else none) ∨
            (best.context ≠ s.activeCtx.context ∧ s.activateContext d ctx now = (.ok (some best), s.moveTo best values))) := by
  unfold activateContext
  dsimp only
  cases hfind : s.findBestMatchSettingsCtx d (ctx.orNow now) with
  | none =>
    exact Or.inl ⟨⟨none, rfl⟩, fun best h => by cases h⟩
  | some best =>
    obtain ⟨-, values, hvalues, hconv⟩ := hw.find hfind
    have hget := getBestMatchStoredParameters_of_find hfind
    rw [hvalues] at hget
    by_cases heq : best = s.activeCtx
    · refine Or.inl ⟨⟨some best, if_pos heq⟩, fun b hb => ?_⟩
      cases hb
      exact heq
    · refine Or.inr ⟨best, values, rfl, heq, hvalues, ?_⟩
      by_cases hctx : best.context = s.activeCtx.context
      · refine Or.inl ⟨hctx, ?_⟩
        have hfilter : d.Converted (values.filter fun key _ => key ∉ s.followedIn d best) := hconv.filter _
        obtain ⟨ret, converted, hstaged, hlookup⟩ := setStaged_of_converted (s.withAutoUpdateEntry d best) hfilter
        refine ⟨converted, ?_, fun k => ?_⟩
        · simp only [if_neg heq, if_pos hctx, hget]
          rw [followedIn] at hstaged
          simp only [hstaged]
        · rw [hlookup, AList.lookup_filter]
          by_cases hk : (d.writable k).isSome
          · by_cases hf : k ∈ s.followedIn d best
            · rw [if_pos hk, if_neg fun h => h.2 hf]
              cases values.lookup k <;> simp [hf]
            · rw [if_pos hk, if_pos ⟨hk, hf⟩]
              cases values.lookup k <;> simp [hf]
          · rw [if_neg hk, if_neg fun h => hk h.1]
      · refine Or.inr ⟨hctx, ?_⟩
        simp only [if_neg heq, if_neg hctx, hget]

/-- An activation of well-formed settings does not throw. -/
theorem activateContext_ok (hw : s.WellFormed d) (ctx : SettingsCtx κ) (now : Nat) :
    ∃ found t, s.activateContext d ctx now = (.ok found, t) := by
  obtain ⟨⟨found, h⟩, -⟩ | ⟨best, values, -, -, -, ⟨-, converted, h, -⟩ | ⟨-, h⟩⟩ := activateContext_cases hw ctx now
  · exact ⟨_, _, h⟩
  · exact ⟨_, _, h⟩
  · exact ⟨_, _, h⟩

/-! ### Every call keeps the settings well formed -/

theorem WellFormed.of_eq (hw : s.WellFormed d) (hstored : t.stored = s.stored)
    (hdefaults : t.defaultParameters = s.defaultParameters) : t.WellFormed d where
  context := by rw [hstored]; exact hw.context
  stored := by rw [hstored]; exact hw.stored
  defaults := by rw [hdefaults]; exact hw.defaults

omit [LinearOrder κ] in
/-- The values of the map are taken as values of their members. -/
theorem takeParameter_converted {taken taken' : Taken ν} {key : Key} {value : ν} (h : d.Converted taken.newParameters)
    (htake : takeParameter d taken key value = .ok taken') : d.Converted taken'.newParameters := by
  unfold takeParameter at htake
  split at htake
  · cases htake
    exact h
  · split at htake
    · cases htake
      exact h
    · next m hm =>
      split at htake
      · cases htake
      · next converted hconverted =>
        split at htake
        · cases htake
        · cases htake
          refine h.insert fun m' hm' => ?_
          rw [BlockDescriptor.writable_member hm] at hm'
          cases hm'
          exact m.setParameter_ok hconverted

omit [LinearOrder κ] in
theorem takeParameters_converted {entries : List (Sigma fun _ : Key => ν)} {taken taken' : Taken ν}
    (h : d.Converted taken.newParameters)
    (htake : entries.foldlM (fun taken e => takeParameter d taken e.1 e.2) taken = .ok taken') :
    d.Converted taken'.newParameters := by
  induction entries generalizing taken with
  | nil =>
    cases htake
    exact h
  | cons e entries ih =>
    rw [List.foldlM_cons] at htake
    cases he : takeParameter d taken e.1 e.2 with
    | error refusal =>
      rw [he] at htake
      cases htake
    | ok next =>
      rw [he] at htake
      exact ih (takeParameter_converted h he) htake

theorem WellFormed.newSet (hw : s.WellFormed d) {parameters : PropertyMap ν} {taken : Taken ν}
    (h : s.newSet d parameters ctx now = .ok taken) : d.Converted taken.newParameters := by
  unfold CtxSettings.newSet at h
  split at h
  · cases h
  · refine takeParameters_converted ?_ h
    dsimp only
    cases hfind : s.findBestMatchSettingsCtx d (ctx.orNow now) with
    | none =>
      have hnone : s.getBestMatchStoredParameters d (ctx.orNow now) = none := by
        have hfind : Settings.findBestMatchSettingsCtx d.matchPred s.stored (ctx.orNow now) = none := hfind
        rw [getBestMatchStoredParameters, Settings.getBestMatchStoredParameters, hfind]
        rfl
      rw [hnone]
      exact hw.defaults
    | some best =>
      obtain ⟨-, values, hvalues, hconv⟩ := hw.find hfind
      rw [getBestMatchStoredParameters_of_find hfind, hvalues]
      exact hconv

omit [LinearOrder κ] in
theorem mem_of_removeExpired {expiryTime : Option Nat} {vec : List (CtxSettingsPair κ ν)} {pair : CtxSettingsPair κ ν}
    (h : pair ∈ (removeExpired expiryTime now vec).2) : pair ∈ vec := by
  have hpruned : ∀ {live : List (CtxSettingsPair κ ν)}, pair ∈ (pruned now live).2 → pair ∈ live := by
    intro live h
    unfold pruned at h
    dsimp only at h
    split at h
    · exact List.mem_of_getLast? (Option.mem_toList.mp h)
    · next lower later hdrop =>
      have hlater : ∀ x ∈ lower :: later, x ∈ live := fun x hx =>
        (List.dropWhile_sublist _).subset (hdrop ▸ hx)
      split at h
      · exact hlater pair h
      · split at h
        · rcases List.mem_append.mp h with h | h
          · exact (List.takeWhile_sublist _).subset (List.mem_of_getLast? (Option.mem_toList.mp h))
          · exact hlater pair h
        · exact h
  exact (List.mem_filter.mp (hpruned h)).1

theorem WellFormed.removeExpired (hw : s.WellFormed d) (now : Nat) :
    (s.removeExpiredStoredParameters d now).WellFormed d := by
  have hsets : ∀ context, ∀ pair ∈ setsOf (s.removeExpiredStoredParameters d now).stored context,
      pair ∈ setsOf s.stored context := by
    intro context pair hpair
    rw [setsOf, removeExpiredStoredParameters, keepUnexpired, AList.lookup_mapValues] at hpair
    rw [setsOf]
    cases hl : s.stored.lookup context with
    | none =>
      rw [hl] at hpair
      cases hpair
    | some vec =>
      rw [hl] at hpair
      exact mem_of_removeExpired hpair
  exact ⟨fun c pair h => hw.context c pair (hsets c pair h), fun c pair h => hw.stored c pair (hsets c pair h), hw.defaults⟩

theorem WellFormed.addStored (hw : s.WellFormed d) {newParameters : PropertyMap ν} (hconv : d.Converted newParameters)
    (ctx : SettingsCtx κ) : (s.addStoredParameters d newParameters ctx).WellFormed d := by
  have hsets : ∀ context, ∀ pair ∈ setsOf (s.addStoredParameters d newParameters ctx).stored context,
      (context = ctx.context ∧ pair = ⟨ctx, newParameters⟩) ∨ pair ∈ setsOf s.stored context := by
    intro context pair hpair
    rw [addStoredParameters, setsOf, addSet, AList.lookup_insert_eq] at hpair
    split at hpair
    · next heq =>
      rcases Timeline.mem_insert.mp hpair with rfl | hpair
      · exact Or.inl ⟨heq, rfl⟩
      · exact Or.inr (heq ▸ hpair)
    · exact Or.inr hpair
  refine ⟨fun c pair h => ?_, fun c pair h => ?_, hw.defaults⟩
  · rcases hsets c pair h with ⟨rfl, rfl⟩ | h
    · rfl
    · exact hw.context c pair h
  · rcases hsets c pair h with ⟨rfl, rfl⟩ | h
    · exact hconv
    · exact hw.stored c pair h

theorem WellFormed.set (hw : s.WellFormed d) (parameters : PropertyMap ν) (ctx : SettingsCtx κ) (now pruneTime : Nat) :
    (s.set d parameters ctx now pruneTime).2.WellFormed d := by
  unfold CtxSettings.set
  split
  · exact hw
  · next taken htaken =>
    have hconv := hw.newSet htaken
    let kept := { s with
      autoUpdateParameters := Function.update s.autoUpdateParameters (ctx.orNow now) (some taken.autoUpdate) }
    have hkept : kept.WellFormed d := hw.of_eq rfl rfl
    exact (hkept.addStored hconv _).removeExpired _

theorem WellFormed.constructed (members : Members τ) (tagCouplings : AList fun _ : Key => Key) :
    (CtxSettings.constructed d members tagCouplings).WellFormed d :=
  ⟨nofun, nofun, BlockDescriptor.Converted.empty⟩

end CtxSettings

end GnuRadio.Settings
