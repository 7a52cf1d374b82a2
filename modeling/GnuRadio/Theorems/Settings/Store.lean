import Mathlib.Data.List.Find
import GnuRadio.Theorems.Settings.Runs

/-! The stored sets answer by the latest set: the lookup in a context's sorted vector, an insertion and a pruning agree
    with the record of the sets that `set()` wrote, as long as no pruning finds two latest past sets. -/

namespace GnuRadio.Settings

variable {κ ν : Type} {τ : Key → Type}
variable {vec sets : List (CtxSettingsPair κ ν)} {stored : StoredParameters κ ν} {context : κ} {now t : Nat}

open Timeline

/-! ### Lookup -/

theorem bestSettingsCtx_some (hs : Sorted CtxSettingsPair.time vec) (ht : t ≠ 0) {ctx : SettingsCtx κ}
    (h : bestSettingsCtx vec t = some ctx) :
    ∃ last ∈ vec, last.context = ctx ∧ last.time ≤ t ∧ ∀ e ∈ vec, e.time ≤ t → e.time ≤ last.time := by
  unfold bestSettingsCtx at h
  split at h
  · cases h
  · next back hback =>
    have hmem : back ∈ vec := List.mem_of_getLast? hback
    have hmax : ∀ e ∈ vec, e.time ≤ back.time := by
      obtain ⟨init, rfl⟩ := List.getLast?_eq_some_iff.mp hback
      intro e he
      rcases List.mem_append.mp he with he | he
      · exact (List.pairwise_append.mp hs).2.2 e he back (List.mem_singleton_self _)
      · cases List.mem_singleton.mp he
        exact le_rfl
    split at h
    · next hle =>
      cases h
      exact ⟨back, hmem, rfl, hle.resolve_left ht, fun e he _ => hmax e he⟩
    · next hlt =>
      have hlt : t < back.time := not_le.mp fun hle => hlt (Or.inr hle)
      split at h
      · next hnil =>
        have hback := List.dropWhile_eq_nil_iff.mp hnil back hmem
        exact absurd (by simpa using hback) (not_lt.mpr hlt.le)
      · next lower later hdrop =>
        have hlower : lower ∈ vec.dropWhile (·.time < t) := by rw [hdrop]; exact .head _
        have hge : ∀ e ∈ vec.dropWhile (·.time < t), t ≤ e.time := fun e he => hs.le_of_mem_dropWhile he
        split at h
        · next heq =>
          cases h
          exact ⟨lower, (List.dropWhile_sublist _).subset hlower, rfl, heq.le, fun e _ het => heq.symm ▸ het⟩
        · next hne =>
          obtain ⟨last, hlast, rfl⟩ := Option.map_eq_some_iff.mp h
          have hlast' := List.mem_of_getLast? hlast
          refine ⟨last, (List.takeWhile_sublist _).subset hlast', rfl, (lt_of_mem_takeWhile hlast').le, ?_⟩
          intro e he het
          rw [← List.takeWhile_append_dropWhile (p := fun y => decide (y.time < t)) (l := vec)] at he hs
          obtain ⟨htake, hdropSorted, -⟩ := List.pairwise_append.mp hs
          rcases List.mem_append.mp he with he | he
          · obtain ⟨init, hinit⟩ := List.getLast?_eq_some_iff.mp hlast
            rw [hinit] at he htake
            rcases List.mem_append.mp he with he | he
            · exact (List.pairwise_append.mp htake).2.2 e he last (List.mem_singleton_self _)
            · cases List.mem_singleton.mp he
              exact le_rfl
          · -- a set from `t` on that is not later stands at `t`, and then the first one does
            have hlow : lower.time ≤ e.time := by
              rw [hdrop] at he hdropSorted
              rcases List.mem_cons.mp he with rfl | he
              · exact le_rfl
              · exact (List.pairwise_cons.mp hdropSorted).1 e he
            exact absurd (le_antisymm (hlow.trans het) (hge lower hlower)) hne

theorem bestSettingsCtx_none (h : bestSettingsCtx vec t = none) (hs : Sorted CtxSettingsPair.time vec) :
    ∀ e ∈ vec, t < e.time := by
  intro e he
  unfold bestSettingsCtx at h
  split at h
  · next hnil => rw [List.getLast?_eq_none_iff.mp hnil] at he; cases he
  · split at h
    · cases h
    · split at h
      · cases h
      · next lower later hdrop =>
        split at h
        · cases h
        · next hne =>
          have hnil := List.getLast?_eq_none_iff.mp (Option.map_eq_none_iff.mp h)
          have hvec : vec = lower :: later := by
            rw [← List.takeWhile_append_dropWhile (p := fun y => decide (y.time < t)) (l := vec), hnil, hdrop]
            rfl
          have hge : t ≤ lower.time := hs.le_of_mem_dropWhile (u := t) (by rw [hdrop]; exact .head _)
          have hlt : t < lower.time := lt_of_le_of_ne hge (Ne.symm hne)
          rw [hvec] at he hs
          rcases List.mem_cons.mp he with rfl | he
          · exact hlt
          · exact hlt.trans_le ((List.pairwise_cons.mp hs).1 e he)

variable [LinearOrder κ]

theorem mem_stored_of_setsOf (h : setsOf stored context ≠ []) : context ∈ stored := by
  rw [← AList.lookup_isSome]
  unfold setsOf at h
  cases hl : stored.lookup context with
  | none => rw [hl] at h; exact absurd rfl h
  | some vec => rfl

/-- The lookup in a context's sorted vector is the latest set of the vector. -/
theorem getBestMatchStoredParameters_eq (matchPred : MatchPredicate κ)
    (hs : Sorted CtxSettingsPair.time (setsOf stored context)) (hc : ∀ pair ∈ setsOf stored context, pair.context.context = context)
    (hne : setsOf stored context ≠ []) (ht : t ≠ 0) :
    getBestMatchStoredParameters matchPred stored ⟨t, context⟩ =
      (latest CtxSettingsPair.time (setsOf stored context).reverse t).map (·.settings) := by
  have hbest : findBestMatchSettingsCtx matchPred stored ⟨t, context⟩ = bestSettingsCtx (setsOf stored context) t := by
    rw [findBestMatchSettingsCtx, findBestMatchCtx, if_pos (mem_stored_of_setsOf hne), Option.bind_some]
  rw [getBestMatchStoredParameters, hbest]
  cases h : bestSettingsCtx (setsOf stored context) t with
  | none =>
    have hlater := bestSettingsCtx_none h hs
    rw [latest_eq_none.mpr fun e he => hlater e (List.mem_reverse.mp he)]
    rfl
  | some ctx =>
    obtain ⟨last, hlast, rfl, hle, hmax⟩ := bestSettingsCtx_some hs ht h
    rw [hs.latest_eq_find? hlast hle hmax, Option.bind_some, hc last hlast]
    -- in one context, the sets of one time are the sets of one context and time
    congr 1
    refine List.find?_congr fun e he => ?_
    rw [decide_eq_decide]
    constructor
    · intro heq
      exact congrArg SettingsCtx.time heq
    · intro heq
      have hctx : e.context.context = last.context.context := (hc e he).trans (hc last hlast).symm
      cases hec : e.context with
      | mk te ce =>
        cases hlc : last.context with
        | mk tl cl =>
          simp only [CtxSettingsPair.time, hec, hlc] at heq hctx
          rw [heq, hctx]

/-! ### Insertion and pruning -/

theorem setsOf_addSet (newParameters : PropertyMap ν) (ctx : SettingsCtx κ) :
    setsOf (addSet stored newParameters ctx) context =
      if context = ctx.context then
        Timeline.insert CtxSettingsPair.time ⟨ctx, newParameters⟩ (setsOf stored context)
      else
        setsOf stored context := by
  rw [setsOf, addSet, AList.lookup_insert_eq]
  split
  · next h => rw [h]; rfl
  · rfl

omit [LinearOrder κ] in
theorem removeExpired_none (now : Nat) (vec : List (CtxSettingsPair κ ν)) :
    removeExpired none now vec = pruned now vec := by
  have hlive : (vec.filter fun pair => !isExpired none now pair) = vec :=
    List.filter_eq_self.mpr fun _ _ => rfl
  have hgone : vec.filter (isExpired none now) = [] := List.filter_eq_nil_iff.mpr fun _ _ => Bool.false_ne_true
  rw [removeExpired, hlive, hgone]
  rfl

theorem setsOf_keepUnexpired (now : Nat) :
    setsOf (keepUnexpired none now stored) context = (pruned now (setsOf stored context)).2 := by
  rw [setsOf, keepUnexpired, AList.lookup_mapValues, setsOf]
  cases stored.lookup context with
  | none => rfl
  | some vec => rw [Option.map_some, Option.getD_some, Option.getD_some, removeExpired_none]

omit [LinearOrder κ]

/-- The sets before `now` of a sorted vector: all but the last go, and the last when a set stands at `now`. -/
theorem pruned_cases (hs : Sorted CtxSettingsPair.time vec) (now : Nat) :
    (∃ past lower later, vec = past ++ lower :: later ∧ lower.time = now ∧ (∀ e ∈ past, e.time < now) ∧
        pruned now vec = (past, lower :: later)) ∨
      (∃ init last later, vec = init ++ last :: later ∧ last.time < now ∧ (∀ e ∈ init, e.time ≤ last.time) ∧
        (∀ e ∈ later, now < e.time) ∧ pruned now vec = (init, last :: later)) ∨
      ∃ past later, vec = past ++ later ∧ past.length ≤ 1 ∧ (∀ e ∈ later, now < e.time) ∧ pruned now vec = ([], vec) := by
  have hsplit : vec.takeWhile (·.time < now) ++ vec.dropWhile (·.time < now) = vec := List.takeWhile_append_dropWhile
  have hpast : ∀ e ∈ vec.takeWhile (·.time < now), e.time < now := fun e he => lt_of_mem_takeWhile he
  have hlater : ∀ e ∈ vec.dropWhile (·.time < now), now ≤ e.time := fun e he => hs.le_of_mem_dropWhile he
  have hord : ∀ {init last later}, vec = init ++ last :: later → ∀ e ∈ init, e.time ≤ last.time := by
    rintro init last later rfl e he
    exact (List.pairwise_append.mp hs).2.2 e he last (.head _)
  unfold pruned
  dsimp only
  split
  · next hnil =>
    rw [hnil, List.append_nil] at hsplit
    rcases List.eq_nil_or_concat vec with rfl | ⟨init, last, hvec⟩
    · exact Or.inr (Or.inr ⟨[], [], rfl, Nat.zero_le _, fun e he => absurd he List.not_mem_nil, rfl⟩)
    · rw [List.concat_eq_append] at hvec
      refine Or.inr (Or.inl ⟨init, last, [], hvec, ?_, hord hvec, fun e he => absurd he List.not_mem_nil, ?_⟩)
      · exact hpast last (by rw [hsplit, hvec]; simp)
      · rw [hvec, List.dropLast_concat, List.getLast?_concat]
        rfl
  · next lower later hdrop =>
    rw [hdrop] at hsplit hlater
    split
    · next heq => exact Or.inl ⟨_, lower, later, hsplit.symm, heq, hpast, rfl⟩
    · next hne =>
      split
      · rcases List.eq_nil_or_concat (vec.takeWhile (·.time < now)) with hnil | ⟨init, last, htake⟩
        · next hlen =>
          rw [hnil] at hlen
          cases hlen
        · rw [List.concat_eq_append] at htake
          rw [htake] at hsplit hpast ⊢
          have hvec : vec = init ++ last :: lower :: later := by rw [← hsplit, List.append_assoc]; rfl
          have hlow : now < lower.time := lt_of_le_of_ne (hlater lower (.head _)) (Ne.symm hne)
          refine Or.inr (Or.inl ⟨init, last, lower :: later, hvec, hpast last (by simp), hord hvec, ?_, ?_⟩)
          · intro e he
            rcases List.mem_cons.mp he with rfl | he
            · exact hlow
            · rw [hvec] at hs
              have htail := (List.pairwise_cons.mp (List.pairwise_append.mp hs).2.1).2
              exact hlow.trans_le ((List.pairwise_cons.mp htail).1 e he)
          · rw [List.dropLast_concat, List.getLast?_concat]
            rfl
      · next hlen =>
        refine Or.inr (Or.inr ⟨_, lower :: later, hsplit.symm, by omega, fun e he => ?_, rfl⟩)
        have hlow : now < lower.time := lt_of_le_of_ne (hlater lower (.head _)) (Ne.symm hne)
        rw [← hsplit] at hs
        rcases List.mem_cons.mp he with rfl | he
        · exact hlow
        · exact hlow.trans_le ((List.pairwise_cons.mp (List.pairwise_append.mp hs).2.1).1 e he)

open StoreRun

/-- A pruning that finds one latest past set changes no answer from its time on. -/
theorem latest_pruned (hs : Sorted CtxSettingsPair.time vec) (h : OneLatestPast (vec.map CtxSettingsPair.time) now)
    (ht : now ≤ t) :
    latest CtxSettingsPair.time (pruned now vec).2.reverse t = latest CtxSettingsPair.time vec.reverse t := by
  obtain ⟨past, lower, later, hvec, heq, hpast, hp⟩ | ⟨init, last, later, hvec, hlast, hinit, hlater, hp⟩ |
      ⟨-, -, -, -, -, hp⟩ := pruned_cases hs now
  · rw [hp, hvec]
    refine (latest_drop_front fun e he => ⟨lower, .head _, ?_, ?_⟩).symm
    · exact heq.le.trans ht
    · exact (hpast e he).trans_le heq.ge
  · rw [hp, hvec]
    refine (latest_drop_front fun e he => ⟨last, .head _, hlast.le.trans ht, ?_⟩).symm
    refine lt_of_le_of_ne (hinit e he) fun heq => ?_
    -- two sets would share the greatest time before `now`
    have hother : ∀ x ∈ vec, x.time < now → x.time ≤ last.time := by
      intro x hx hxn
      rw [hvec] at hx
      rcases List.mem_append.mp hx with hx | hx
      · exact hinit x hx
      · rcases List.mem_cons.mp hx with rfl | hx
        · exact le_rfl
        · exact absurd hxn (hlater x hx).not_gt
    rcases h with h | h
    · obtain ⟨x, hx, hxn⟩ := List.mem_map.mp h
      rw [hvec] at hx
      rcases List.mem_append.mp hx with hx | hx
      · exact absurd hxn ((hinit x hx).trans_lt hlast).ne
      · rcases List.mem_cons.mp hx with rfl | hx
        · exact absurd hxn hlast.ne
        · exact absurd hxn (hlater x hx).ne'
    · have hmem : last.time ∈ vec.map CtxSettingsPair.time := List.mem_map_of_mem (by rw [hvec]; simp)
      have hcount := h last.time hmem hlast fun x hx hxn => by
        obtain ⟨y, hy, rfl⟩ := List.mem_map.mp hx
        exact hother y hy hxn
      have htwo : 1 ≤ (init.map CtxSettingsPair.time).count last.time :=
        List.count_pos_iff.mpr (List.mem_map.mpr ⟨e, he, heq⟩)
      rw [hvec, List.map_append, List.map_cons, List.count_append, List.count_cons_self] at hcount
      omega
  · rw [hp]

theorem sorted_pruned (hs : Sorted CtxSettingsPair.time vec) : Sorted CtxSettingsPair.time (pruned now vec).2 := by
  obtain ⟨past, lower, later, hvec, -, -, hp⟩ | ⟨init, last, later, hvec, -, -, -, hp⟩ |
      ⟨-, -, -, -, -, hp⟩ := pruned_cases hs now
  · rw [hp]
    exact hs.sublist (by rw [hvec]; exact List.sublist_append_right _ _)
  · rw [hp]
    exact hs.sublist (by rw [hvec]; exact List.sublist_append_right _ _)
  · rw [hp]
    exact hs

theorem mem_pruned (hs : Sorted CtxSettingsPair.time vec) {pair : CtxSettingsPair κ ν} (h : pair ∈ (pruned now vec).2) :
    pair ∈ vec := by
  obtain ⟨past, lower, later, hvec, -, -, hp⟩ | ⟨init, last, later, hvec, -, -, -, hp⟩ |
      ⟨-, -, -, -, -, hp⟩ := pruned_cases hs now
  · rw [hp] at h
    rw [hvec]
    exact List.mem_append_right _ h
  · rw [hp] at h
    rw [hvec]
    exact List.mem_append_right _ h
  · rw [hp] at h
    exact h

theorem pruned_ne_nil (hs : Sorted CtxSettingsPair.time vec) : (pruned now vec).2 = [] ↔ vec = [] := by
  obtain ⟨past, lower, later, hvec, -, -, hp⟩ | ⟨init, last, later, hvec, -, -, -, hp⟩ |
      ⟨-, -, -, -, -, hp⟩ := pruned_cases hs now
  · rw [hp, hvec]
    simp
  · rw [hp, hvec]
    simp
  · rw [hp]

theorem OneLatestPast.perm {l l' : List Nat} (h : OneLatestPast l now) (hp : l.Perm l') : OneLatestPast l' now := by
  rcases h with h | h
  · exact Or.inl (hp.mem_iff.mp h)
  · refine Or.inr fun u hu hlt hmax => ?_
    rw [← hp.count_eq]
    exact h u (hp.mem_iff.mpr hu) hlt fun x hx => hmax x (hp.mem_iff.mp hx)

/-! ### Runs -/

/-- A context's sorted vector and the sets written for it agree on every time from `clock` on. -/
structure Agrees (clock : Nat) (context : κ) (vec sets : List (CtxSettingsPair κ ν)) : Prop where
  sorted : Sorted CtxSettingsPair.time vec
  context : ∀ pair ∈ vec, pair.context.context = context
  nil : vec = [] ↔ sets = []
  latest : ∀ t, clock ≤ t → latest CtxSettingsPair.time vec.reverse t = latest CtxSettingsPair.time sets t

namespace Agrees

variable {clock : Nat}

theorem empty (clock : Nat) (context : κ) : Agrees clock context ([] : List (CtxSettingsPair κ ν)) [] :=
  ⟨List.Pairwise.nil, nofun, Iff.rfl, fun _ _ => rfl⟩

theorem later (h : Agrees clock context vec sets) (hle : clock ≤ now) : Agrees now context vec sets :=
  ⟨h.sorted, h.context, h.nil, fun t ht => h.latest t (hle.trans ht)⟩

/-- A set is written and inserted. -/
theorem insert (h : Agrees clock context vec sets) {pair : CtxSettingsPair κ ν} (hp : pair.context.context = context) :
    Agrees clock context (Timeline.insert CtxSettingsPair.time pair vec) (sets ++ [pair]) where
  sorted := h.sorted.insert pair
  context := fun x hx => by
    rcases mem_insert.mp hx with rfl | hx
    · exact hp
    · exact h.context x hx
  nil := by simp [Timeline.insert]
  latest := fun t ht => by rw [latest_insert, latest_concat, latest_concat, h.latest t ht]

theorem prune (h : Agrees clock context vec sets) (hle : clock ≤ now)
    (hone : OneLatestPast (vec.map CtxSettingsPair.time) now) : Agrees now context (pruned now vec).2 sets where
  sorted := sorted_pruned h.sorted
  context := fun pair hpair => h.context pair (mem_pruned h.sorted hpair)
  nil := (pruned_ne_nil h.sorted).trans h.nil
  latest := fun t ht => (latest_pruned h.sorted hone ht).trans (h.latest t (hle.trans ht))

end Agrees

section
variable [LinearOrder κ] [DecidableEq ν] {d : BlockDescriptor κ ν τ} {r r' : StoreRun κ ν τ} {a : StoreAct κ ν}

structure Kept (r : StoreRun κ ν τ) : Prop where
  clock_pos : 0 < r.clock
  sets : ∀ context, Agrees r.clock context (setsOf r.settings.stored context) (r.writtenFor context)

omit [DecidableEq ν] in
/-- The stored sets after an accepted `set()`. -/
theorem setsOf_set (hexpiry : d.expiryTime = none) {s : CtxSettings κ ν τ} {parameters : PropertyMap ν}
    {ctx : SettingsCtx κ} {pruneTime : Nat} {taken : CtxSettings.Taken ν}
    (h : s.newSet d parameters ctx now = .ok taken) (context : κ) :
    setsOf (s.set d parameters ctx now pruneTime).2.stored context =
      (pruned pruneTime (if context = (ctx.orNow now).context then
        Timeline.insert CtxSettingsPair.time ⟨ctx.orNow now, taken.newParameters⟩ (setsOf s.stored context)
        else setsOf s.stored context)).2 := by
  simp only [CtxSettings.set, h, CtxSettings.removeExpiredStoredParameters, CtxSettings.addStoredParameters, hexpiry]
  rw [setsOf_keepUnexpired, setsOf_addSet]

/-- One call keeps the agreement of the stored and the written sets. -/
theorem Kept.step (h : Kept r) (hexpiry : d.expiryTime = none) (hone : PrunesOneLatest d r a)
    (hs : StoreRun.step d r a = some r') : Kept r' := by
  cases a with
  | set parameters ctx now pruneTime =>
    simp only [StoreRun.step] at hs
    split at hs
    · next hclock =>
      have hle : r.clock ≤ pruneTime := hclock.1.trans hclock.2
      cases hs
      cases hnew : r.settings.newSet d parameters ctx now with
      | error refusal =>
        refine ⟨h.clock_pos.trans_le hle, fun context => ?_⟩
        simp only [CtxSettings.set, hnew, writtenFor]
        exact (h.sets context).later hle
      | ok taken =>
        refine ⟨h.clock_pos.trans_le hle, fun context => ?_⟩
        have hone := hone taken hnew context
        rw [timesWith] at hone
        dsimp only
        rw [setsOf_set hexpiry hnew]
        simp only [writtenFor, List.filter_append]
        by_cases hc : context = (ctx.orNow now).context
        · rw [if_pos hc] at hone ⊢
          rw [List.filter_cons_of_pos (by simp [hc]), List.filter_nil]
          refine ((h.sets context).insert hc.symm).prune hle (OneLatestPast.perm hone ?_)
          have hperm : (Timeline.insert CtxSettingsPair.time ⟨ctx.orNow now, taken.newParameters⟩
              (setsOf r.settings.stored context)).Perm
                (setsOf r.settings.stored context ++ [⟨ctx.orNow now, taken.newParameters⟩]) := insert_perm
          simpa using hperm.symm.map CtxSettingsPair.time
        · rw [if_neg hc] at hone ⊢
          rw [List.filter_cons_of_neg (by simpa using Ne.symm hc), List.filter_nil, List.append_nil]
          rw [List.append_nil] at hone
          exact (h.sets context).prune hle hone
    · cases hs
  | activateContext ctx now =>
    simp only [StoreRun.step] at hs
    split at hs
    · next hclock =>
      cases hs
      refine ⟨h.clock_pos.trans_le hclock, fun context => ?_⟩
      dsimp only
      rw [(r.settings.activateContext_staging d ctx now).stored]
      exact (h.sets context).later hclock
    · cases hs
  | autoUpdate map now present =>
    simp only [StoreRun.step] at hs
    split at hs
    · next hclock =>
      have hle : r.clock ≤ present := hclock.1.trans hclock.2
      cases hs
      refine ⟨h.clock_pos.trans_le hle, fun context => ?_⟩
      dsimp only
      rw [(r.settings.autoUpdate_staging d map now present).stored]
      exact (h.sets context).later hle
    · cases hs

theorem Kept.reach (hexpiry : d.expiryTime = none) (h : (StoreRun.system d).Reach (PrunesOneLatest d) r) : Kept r := by
  refine h.invariant (I := Kept) ?_ fun r a r' hr hone hs => hr.step hexpiry hone hs
  rintro r ⟨hpos, hstored, hwritten⟩
  refine ⟨hpos, fun context => ?_⟩
  rw [hstored, writtenFor, hwritten]
  exact Agrees.empty r.clock context

omit [DecidableEq ν] in
theorem Kept.answers (h : Kept r) : r.AnswersByLatest d := by
  intro keys ctx now hne hnow htime
  have hagrees := h.sets ctx.context
  have hvec : setsOf r.settings.stored ctx.context ≠ [] := fun hnil => hne (hagrees.nil.mp hnil)
  have hctx : ctx.orNow now = ⟨(ctx.orNow now).time, ctx.context⟩ := by
    rw [← SettingsCtx.orNow_context ctx now]
  have hle : r.clock ≤ (ctx.orNow now).time := by
    unfold SettingsCtx.orNow
    split
    · exact hnow
    · next h0 => exact htime.resolve_left h0
  have hpos : (ctx.orNow now).time ≠ 0 := (h.clock_pos.trans_le hle).ne'
  rw [CtxSettings.getStored, CtxSettings.getBestMatchStoredParameters, hctx,
    getBestMatchStoredParameters_eq d.matchPred hagrees.sorted hagrees.context hvec hpos, hagrees.latest _ hle,
    Option.map_map]
  rfl

/-- In every run whose prunings find one latest past set in each context, the stored sets answer by the latest set. -/
theorem answers_by_latest (hexpiry : d.expiryTime = none) (h : (StoreRun.system d).Reach (PrunesOneLatest d) r) :
    r.AnswersByLatest d :=
  (Kept.reach hexpiry h).answers

end

def beforeSets : StoreRun Nat Nat fun _ => Nat := ⟨unset, 1, []⟩

/-- Two sets for two times that are past when they are made. -/
def setsOfTwoTimes : List (StoreAct Nat Nat) :=
  [.set (gain 1) ⟨100, 0⟩ 150 150, .set (gain 2) ⟨140, 0⟩ 151 151]

def afterSetsOfTwoTimes : StoreRun Nat Nat fun _ => Nat :=
  ((StoreRun.system (gainBlock none)).run beforeSets setsOfTwoTimes).get (by decide)

theorem setsOfTwoTimes_answer : afterSetsOfTwoTimes.writtenFor 0 ≠ [] ∧ afterSetsOfTwoTimes.AnswersByLatest (gainBlock none) :=
  ⟨by decide, answers_by_latest rfl (Transition.System.reach_get (StoreRun.system (gainBlock none)) setsOfTwoTimes
    ⟨by decide, rfl, rfl⟩ (by decide) _)⟩

/-- Two sets for one time that is past when they are made. -/
def setsOfOneTime : List (StoreAct Nat Nat) :=
  [.set (gain 1) ⟨100, 0⟩ 150 150, .set (gain 2) ⟨100, 0⟩ 151 151]

def afterSetsOfOneTime : StoreRun Nat Nat fun _ => Nat :=
  ((StoreRun.system (gainBlock none)).run beforeSets setsOfOneTime).get (by decide)

/-- The pruning of the second set keeps the first one. -/
theorem setsOfOneTime_keep_first : (StoreRun.system (gainBlock none)).Reachable afterSetsOfOneTime ∧
    ¬ afterSetsOfOneTime.AnswersByLatest (gainBlock none) := by
  refine ⟨Transition.System.reachable_get (StoreRun.system (gainBlock none)) setsOfOneTime ⟨by decide, rfl, rfl⟩ _, fun h => ?_⟩
  have hanswer := congrArg (Option.map (AList.lookup "gain")) (h [] ⟨200, 0⟩ 200 (by decide) (by decide) (by decide))
  revert hanswer
  decide

end GnuRadio.Settings

/-! The last activation before an apply: what it staged and nothing staged since reaches the members. -/

namespace GnuRadio.Settings

variable {κ ν : Type} {τ : Key → Type}

/-- The block's own callbacks leave a member as the apply has set it. -/
structure BlockDescriptor.CallbacksKeep (d : BlockDescriptor κ ν τ) (k : Key) : Prop where
  settingsChanged : ∀ f, d.settingsChanged = some f →
    ∀ members oldSettings newSettings, (f members oldSettings newSettings).1 k = members k
  reset : ∀ f, d.reset = some f → ∀ members, f members k = members k

namespace CtxSettings

variable [LinearOrder κ] [DecidableEq ν] {d : BlockDescriptor κ ν τ} {s t : CtxSettings κ ν τ} {k : Key}
  {m : Member ν (τ k)} {x : τ k}

/-- A batch that is not refused gives its value to a member. -/
theorem applyBatch_members {batch : Batch κ ν} {failed : PropertyMap ν} {resetDone : Bool} {now : Nat}
    {result : ApplyStagedParametersResult ν} (happly : s.applyBatch d batch failed resetDone now = (.ok result, t))
    (hrefusal : result.callbackRefusal = none) (hfailed : k ∉ result.failedParameters) (hkeep : d.CallbacksKeep k)
    (hm : d.writable k = some m) (hx : batch.parameters.lookup k = some (m.read x)) : t.members k = x := by
  obtain ⟨members, result', t', heq, -, hlookup, hmembers, hf⟩ | ⟨_, members, error, -, -, hcase⟩ :=
    applyBatch_cases (d := d) s batch failed resetDone now
  · rw [happly] at heq
    obtain ⟨hresult, rfl⟩ := Prod.mk.inj heq
    cases hresult
    have hfailed' : k ∉ (s.applyEntries d batch.parameters failed).failedParameters := by
      rw [← AList.lookup_isSome] at hfailed ⊢
      rw [← congrFun hlookup k]
      exact hfailed
    have happlied : (s.beforeCallback d batch failed).members k = x := by
      have hbefore : (s.beforeCallback d batch failed).members k = _ := applyEntries_members hm batch.parameters failed
      rw [hbefore, hx, Option.bind_some]
      cases hstaged : m.applyStaged (m.read x) with
      | none => exact absurd (applyEntries_failed hm hx hstaged) hfailed'
      | some y => exact m.applyStaged_read_some hstaged
    have hcalled : members k = x := by
      rcases hmembers with rfl | ⟨f, hcallback, rfl⟩
      · exact happlied
      · exact (hkeep.settingsChanged f hcallback _ _ _).trans happlied
    rw [hf.members]
    split
    · cases hreset : d.reset with
      | none => exact hcalled
      | some f => exact (hkeep.reset f hreset _).trans hcalled
    · exact hcalled
  · rcases hcase with ⟨result', t', heq, hcallback, -⟩ | heq
    · rw [happly] at heq
      obtain ⟨hresult, -⟩ := Prod.mk.inj heq
      cases hresult
      rw [hrefusal] at hcallback
      cases hcallback
    · rw [happly] at heq
      cases (Prod.mk.inj heq).1

omit [DecidableEq ν] in
/-- The value that is staged for a member goes into the batch. -/
theorem lookup_resetBatch (hw : s.WellFormed d) {batch batch' : Batch κ ν} {readings : Readings} {failed : PropertyMap ν}
    (h : s.resetBatch d batch readings = (.ok (failed, batch'), t)) {v : ν} (hv : batch.parameters.lookup k = some v) :
    batch'.parameters.lookup k = some v := by
  obtain ⟨-, heq⟩ | ⟨-, -, heq⟩ | ⟨-, -, found, u, -, heq⟩ := resetBatch_cases hw batch readings
  · rw [h] at heq
    cases heq
    exact hv
  · rw [h] at heq
    cases heq
    exact hv
  · rw [h] at heq
    cases heq
    exact (AList.lookup_union _ _ k).trans (by rw [hv, Option.some_or])

end CtxSettings

open CtxSettings

/-- After an apply that neither the limits nor a callback refuses, each pending value is in its member. -/
theorem pending_applied [LinearOrder κ] [DecidableEq ν] {d : BlockDescriptor κ ν τ} {r : Run κ ν τ}
    (h : (Run.system d).Reachable r) {readings : Readings} {result : ApplyStagedParametersResult ν}
    {t : CtxSettings κ ν τ} (happly : r.settings.applyStagedParameters d readings = (.ok result, t))
    (hrefusal : result.callbackRefusal = none) {k : Key} (hfailed : k ∉ result.failedParameters)
    (hkeep : d.CallbacksKeep k) {m : Member ν (τ k)} (hm : d.writable k = some m) {v : ν}
    (hv : r.pending.lookup k = some v) : m.read (t.members k) = v := by
  have hinv := Inv.reach h
  obtain ⟨hstaged, x, rfl⟩ := hinv.pendingStaged k m v hm hv
  unfold applyStagedParameters at happly
  split at happly
  · cases (Prod.mk.inj happly).1
  · next failed batch u hreset =>
    have hbatch := lookup_resetBatch hinv.takeBatch.wellFormed hreset (k := k) hstaged
    rw [applyBatch_members happly hrefusal hfailed hkeep hm hbatch]

/-! ### Two activations -/

def initReadings : InitReadings := ⟨10, 10, 10, 20, 20⟩

def readings : Readings := ⟨50, 50, 50, 50⟩

/-- The settings after `init()` of a block whose settings may follow tags. -/
def gainStart (tagCouplings : AList fun _ : Key => Key) : Option (CtxSettings Nat Nat fun _ => Nat) :=
  (CtxSettings.constructed (gainBlock none) (fun _ => 0) tagCouplings).init (gainBlock none) ∅ initReadings

def gainRun (tagCouplings : AList fun _ : Key => Key) (h : (gainStart tagCouplings).isSome) : Run Nat Nat fun _ => Nat :=
  ⟨(gainStart tagCouplings).get h, ((gainStart tagCouplings).get h).activeCtx, ∅⟩

theorem gainRun_start (tagCouplings : AList fun _ : Key => Key) (h : (gainStart tagCouplings).isSome) :
    (Run.system (gainBlock none)).start (gainRun tagCouplings h) :=
  ⟨fun _ => 0, tagCouplings, ∅, initReadings, (Option.some_get h).symm, rfl, rfl⟩

/-- A set of another context becomes active. -/
def otherContext : List (Act Nat Nat) :=
  [.set (gain 5) ⟨30, 1⟩ 21 21, .activateContext ⟨40, 1⟩ 22]

def afterOtherContext : Run Nat Nat fun _ => Nat :=
  ((Run.system (gainBlock none)).run (gainRun ∅ (by decide)) otherContext).get (by decide)

theorem otherContext_applied :
    (afterOtherContext.settings.applyStagedParameters (gainBlock none) readings).2.members "gain" = 5 := by
  obtain ⟨result, t, happly, hrefusal, hfailed⟩ : ∃ result t,
      afterOtherContext.settings.applyStagedParameters (gainBlock none) readings = (.ok result, t) ∧
        result.callbackRefusal = none ∧ "gain" ∉ result.failedParameters := ⟨_, _, rfl, rfl, by decide⟩
  rw [happly]
  exact pending_applied
    (Transition.System.reachable_get (Run.system (gainBlock none)) otherContext (gainRun_start ∅ _) (by decide)) happly
    hrefusal hfailed ⟨fun f hf => (by cases hf), fun f hf => (by cases hf)⟩ (m := number) rfl (by decide)

/-! ### A setting that follows tags -/

/-- Each setting that the active set stores has its stored value. -/
def StoredValuesApplied (d : BlockDescriptor κ ν τ) [LinearOrder κ] (s : CtxSettings κ ν τ) : Prop :=
  ∀ k m v, d.writable k = some m → ((s.storedSet s.activeCtx).getD ∅).lookup k = some v → m.read (s.members k) = v

def gainCoupling : AList fun _ : Key => Key := AList.singleton "gain" "x:gain"

/-- A tag sets the gain, and then a newer set of the active context is activated. -/
def newerSet : List (Act Nat Nat) :=
  [.autoUpdate (AList.singleton "x:gain" 7) 60 60, .applyStagedParameters readings, .set ∅ ⟨100, 0⟩ 70 70,
    .activateContext ⟨100, 0⟩ 80]

def afterNewerSet : Run Nat Nat fun _ => Nat :=
  ((Run.system (gainBlock none)).run (gainRun gainCoupling (by decide)) newerSet).get (by decide)

theorem newerSet_keepsTag : (Run.system (gainBlock none)).Reachable afterNewerSet ∧
    afterNewerSet.settings.activeCtx = ⟨100, 0⟩ ∧ afterNewerSet.before ≠ ⟨100, 0⟩ ∧
    ∃ result t, afterNewerSet.settings.applyStagedParameters (gainBlock none) readings = (.ok result, t) ∧
      result.failedParameters = ∅ ∧ result.callbackRefusal = none ∧ ¬ StoredValuesApplied (gainBlock none) t := by
  refine ⟨Transition.System.reachable_get _ newerSet (gainRun_start gainCoupling _) (by decide), by decide, by decide,
    _, _, rfl, rfl, rfl, fun h => ?_⟩
  have hvalue := h "gain" number 0 rfl (by decide)
  revert hvalue
  decide

end GnuRadio.Settings
