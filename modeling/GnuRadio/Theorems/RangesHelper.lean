import GnuRadio.RangesHelper
import Mathlib.Data.List.Nodup
import Mathlib.Data.List.Perm.Subperm
import Mathlib.Data.List.TakeWhile
import Mathlib.Data.Set.List

/-! What the merging view and the removal of repeated elements give. The merge keeps, for everything it has given, how that
    compares with the element each range stands at. -/

universe u

namespace GnuRadio.RangesHelper

variable {α : Type u}

namespace MergeView

variable {view : MergeView α} {its : List Nat}

/-! ### The choice of a range -/

section Choice
variable (hweak : IsStrictWeakOrder α fun a b => view.comp a b = true)
include hweak

theorem comp_self (a : α) : view.comp a a = false := Bool.eq_false_iff.mpr (hweak.irrefl a)

/-- What is not less than something that is not less is not less. -/
theorem comp_trans {a b c : α} (hab : view.comp a b = false) (hbc : view.comp b c = false) : view.comp a c = false := by
  refine Bool.eq_false_iff.mpr fun hac => ?_
  have hba : ¬ view.comp b a = true := fun h => Bool.eq_false_iff.mp hbc (hweak.trans b a c h hac)
  have hcb : ¬ view.comp c b = true := fun h => Bool.eq_false_iff.mp hab (hweak.trans a c b hac h)
  exact (hweak.incomp_trans a b c ⟨Bool.eq_false_iff.mp hab, hba⟩ ⟨Bool.eq_false_iff.mp hbc, hcb⟩).1 hac

theorem comp_of_lt {a b c : α} (hab : view.comp a b = true) (hcb : view.comp c b = false) : view.comp a c = true := by
  by_contra hac
  exact Bool.eq_false_iff.mp (comp_trans hweak (Bool.eq_false_iff.mpr hac) hcb) hab

/-- Of the first `n` ranges, the one chosen stands at a least element, and the ones before it at greater ones. -/
theorem choose_range (n : Nat) :
    ((List.range n).foldl (view.choose its) its.length = its.length ∧ ∀ j < n, view.current its j = none) ∨
    (List.range n).foldl (view.choose its) its.length < n ∧
      ∃ best, view.current its ((List.range n).foldl (view.choose its) its.length) = some best ∧
      ∀ j < n, ∀ value, view.current its j = some value →
        view.comp value best = false ∧ (j < (List.range n).foldl (view.choose its) its.length → view.comp best value = true) := by
  induction n with
  | zero => exact .inl ⟨rfl, fun j hj => absurd hj (Nat.not_lt_zero j)⟩
  | succ n ih =>
    have hlast : view.current its its.length = none := by
      rw [current, List.getElem?_eq_none (Nat.le_refl _)]
      rfl
    rw [List.range_succ, List.foldl_append, List.foldl_cons, List.foldl_nil]
    generalize (List.range n).foldl (view.choose its) its.length = chosen at ih ⊢
    rw [choose]
    cases hcurrent : view.current its n with
    | none =>
      rcases ih with ⟨rfl, hnone⟩ | ⟨hlt, best, hbest, hleast⟩
      · refine .inl ⟨rfl, fun j hj => ?_⟩
        rcases Nat.lt_succ_iff_lt_or_eq.mp hj with hj | rfl
        · exact hnone j hj
        · exact hcurrent
      · refine .inr ⟨Nat.lt_succ_of_lt hlt, best, hbest, fun j hj value hvalue => ?_⟩
        rcases Nat.lt_succ_iff_lt_or_eq.mp hj with hj | rfl
        · exact hleast j hj value hvalue
        · rw [hcurrent] at hvalue
          cases hvalue
    | some value =>
      refine .inr ?_
      rcases ih with ⟨rfl, hnone⟩ | ⟨hlt, best, hbest, hleast⟩
      · rw [hlast]
        refine ⟨Nat.lt_succ_self n, value, hcurrent, fun j hj other hother => ?_⟩
        rcases Nat.lt_succ_iff_lt_or_eq.mp hj with hj | rfl
        · rw [hnone j hj] at hother
          cases hother
        · cases hcurrent.symm.trans hother
          exact ⟨comp_self hweak value, fun h => absurd h (Nat.lt_irrefl _)⟩
      · rw [hbest]
        by_cases hless : view.comp value best = true
        · simp only [hless, if_true]
          refine ⟨Nat.lt_succ_self n, value, hcurrent, fun j hj other hother => ?_⟩
          rcases Nat.lt_succ_iff_lt_or_eq.mp hj with hj | rfl
          · have hgreater := comp_of_lt hweak hless (hleast j hj other hother).1
            exact ⟨Bool.eq_false_iff.mpr fun h => hweak.irrefl _ (hweak.trans _ _ _ h hgreater), fun _ => hgreater⟩
          · cases hcurrent.symm.trans hother
            exact ⟨comp_self hweak value, fun h => absurd h (Nat.lt_irrefl _)⟩
        · simp only [hless, Bool.false_eq_true, if_false]
          refine ⟨Nat.lt_succ_of_lt hlt, best, hbest, fun j hj other hother => ?_⟩
          rcases Nat.lt_succ_iff_lt_or_eq.mp hj with hj | rfl
          · exact hleast j hj other hother
          · cases hcurrent.symm.trans hother
            exact ⟨Bool.eq_false_iff.mpr hless, fun h => absurd h (Nat.lt_asymm hlt)⟩

/-- `next()` is at the end, or it has chosen a least element, the first of its equals. -/
theorem next_cases (its : List Nat) :
    (atEnd (view.next its) = true ∧ ∀ j, view.current its j = none) ∨
    (atEnd (view.next its) = false ∧ ∃ position best, its[(view.next its).chosen]? = some position ∧
      view.valueAt ((view.next its).chosen, position) = some best ∧
      ∀ j value, view.current its j = some value →
        view.comp value best = false ∧ (j < (view.next its).chosen → view.comp best value = true)) := by
  have hbeyond {j : Nat} (hj : its.length ≤ j) : view.current its j = none := by
    rw [current, List.getElem?_eq_none hj]
    rfl
  rcases @choose_range α view its hweak its.length with ⟨hend, hnone⟩ | ⟨hlt, best, hbest, hleast⟩
  · refine .inl ⟨decide_eq_true hend, fun j => ?_⟩
    rcases Nat.lt_or_ge j its.length with hj | hj
    · exact hnone j hj
    · exact hbeyond hj
  · obtain ⟨position, hposition, hvalue⟩ := Option.bind_eq_some_iff.mp hbest
    refine .inr ⟨decide_eq_false (Nat.ne_of_lt hlt), position, best, hposition, hvalue, fun j value hj => ?_⟩
    rcases Nat.lt_or_ge j its.length with hlt | hge
    · exact hleast j hlt value hj
    · rw [hbeyond hge] at hj
      cases hj

end Choice

/-! ### The elements given -/

/-- What the places given so far have to do with where the ranges stand. -/
structure Progress (view : MergeView α) (its : List Nat) (given : List Place) : Prop where
  length : its.length = view.out.length
  bound : ∀ (j : Nat) (range : List α) (position : Nat), view.out[j]? = some range → its[j]? = some position → position ≤ range.length
  mem_iff : ∀ place : Place, place ∈ given ↔ ∃ position, its[place.1]? = some position ∧ place.2 < position
  nodup : given.Nodup
  stable : given.Pairwise fun p q => ∀ a b, view.valueAt p = some a → view.valueAt q = some b →
    view.comp b a = false ∧ (view.comp a b = false → p.1 < q.1 ∨ p.1 = q.1 ∧ p.2 < q.2)
  ahead : ∀ p ∈ given, ∀ a, view.valueAt p = some a → ∀ (j position : Nat) (b : α), its[j]? = some position →
    view.valueAt (j, position) = some b →
    view.comp b a = false ∧ (view.comp a b = false → p.1 < j ∨ p.1 = j ∧ p.2 < position)

theorem Progress.start : Progress view (List.replicate view.out.length 0) [] where
  length := List.length_replicate
  bound j range position hrange hposition := by
    rw [List.eq_of_mem_replicate (List.mem_of_getElem? hposition)]
    exact Nat.zero_le _
  mem_iff place := by
    refine iff_of_false List.not_mem_nil ?_
    rintro ⟨position, hposition, hlt⟩
    rw [List.eq_of_mem_replicate (List.mem_of_getElem? hposition)] at hlt
    exact Nat.not_lt_zero _ hlt
  nodup := List.nodup_nil
  stable := .nil
  ahead p hp := nomatch hp

section
variable (hweak : IsStrictWeakOrder α fun a b => view.comp a b = true)
  (hsorted : ∀ range ∈ view.out, range.Pairwise fun a b => view.comp b a = false)
include hweak hsorted

omit hweak in
/-- In one range nothing is less than what stands in front of it. -/
theorem comp_of_lt_position {j p q : Nat} {a b : α} (hpq : p < q) (ha : view.valueAt (j, p) = some a)
    (hb : view.valueAt (j, q) = some b) : view.comp b a = false := by
  obtain ⟨range, hrange, ha⟩ := Option.bind_eq_some_iff.mp ha
  obtain ⟨range', hrange', hb⟩ := Option.bind_eq_some_iff.mp hb
  cases hrange.symm.trans hrange'
  obtain ⟨hp, rfl⟩ := List.getElem?_eq_some_iff.mp ha
  obtain ⟨hq, rfl⟩ := List.getElem?_eq_some_iff.mp hb
  exact List.pairwise_iff_getElem.mp (hsorted range (List.mem_of_getElem? hrange)) p q hp hq hpq

/-- The element that is chosen is given, and its range goes on. -/
theorem Progress.step {given : List Place} {position : Nat} {best : α} (h : Progress view its given)
    (hposition : its[(view.next its).chosen]? = some position)
    (hbest : view.valueAt ((view.next its).chosen, position) = some best)
    (hleast : ∀ j value, view.current its j = some value →
      view.comp value best = false ∧ (j < (view.next its).chosen → view.comp best value = true)) :
    Progress view (its.modify (view.next its).chosen (· + 1)) (given ++ [((view.next its).chosen, position)]) := by
  generalize (view.next its).chosen = chosen at *
  have hself : (its.modify chosen (· + 1))[chosen]? = some (position + 1) := by
    rw [List.getElem?_modify, hposition]
    simp
  have hother {j : Nat} (hj : chosen ≠ j) : (its.modify chosen (· + 1))[j]? = its[j]? := by
    rw [List.getElem?_modify]
    simp [hj]
  have hnew : (chosen, position) ∉ given := fun hmem => by
    obtain ⟨position', hposition', hlt⟩ := (h.mem_iff _).mp hmem
    cases hposition.symm.trans hposition'
    exact Nat.lt_irrefl _ hlt
  refine ⟨(List.length_modify _ _ _).trans h.length, fun j range position' hrange hposition' => ?_, fun place => ?_, ?_, ?_, ?_⟩
  · rcases Nat.decEq chosen j with hne | rfl
    · rw [hother hne] at hposition'
      exact h.bound j range position' hrange hposition'
    · cases hself.symm.trans hposition'
      obtain ⟨range', hrange', hbest⟩ := Option.bind_eq_some_iff.mp hbest
      cases hrange.symm.trans hrange'
      exact (List.getElem?_eq_some_iff.mp hbest).1
  · rw [List.mem_append, List.mem_singleton, h.mem_iff]
    obtain ⟨j, q⟩ := place
    rcases Nat.decEq chosen j with hne | rfl
    · rw [hother hne]
      exact or_iff_left fun heq => hne (congrArg Prod.fst heq).symm
    · rw [hself, hposition]
      simp only [Option.some.injEq, exists_eq_left', Prod.mk.injEq, true_and]
      omega
  · exact List.nodup_append.mpr ⟨h.nodup, List.nodup_singleton _, fun p hp q hq heq => by
      rw [List.mem_singleton.mp hq] at heq
      exact hnew (heq ▸ hp)⟩
  · refine List.pairwise_append.mpr ⟨h.stable, List.pairwise_singleton _ _, fun p hp q hq a b ha hb => ?_⟩
    rw [List.mem_singleton.mp hq] at hb ⊢
    exact h.ahead p hp a ha chosen position b hposition hb
  · intro p hp a ha j position' b hposition' hb
    rcases List.mem_append.mp hp with hp | hp
    · rcases Nat.decEq chosen j with hne | rfl
      · rw [hother hne] at hposition'
        exact h.ahead p hp a ha j position' b hposition' hb
      · cases hself.symm.trans hposition'
        obtain ⟨hle, hplace⟩ := h.ahead p hp a ha chosen position best hposition hbest
        have hnext := comp_of_lt_position hsorted (Nat.lt_succ_self position) hbest hb
        refine ⟨comp_trans hweak hnext hle, fun heq => ?_⟩
        have hbefore := hplace (Bool.eq_false_iff.mpr fun hless => Bool.eq_false_iff.mp heq (comp_of_lt hweak hless hnext))
        omega
    · obtain rfl := List.mem_singleton.mp hp
      cases hbest.symm.trans ha
      rcases Nat.decEq chosen j with hne | rfl
      · rw [hother hne] at hposition'
        obtain ⟨hle, hbefore⟩ := hleast j b (by rw [current, hposition']; exact hb)
        refine ⟨hle, fun heq => .inl ?_⟩
        exact Nat.lt_of_le_of_ne (Nat.le_of_not_lt fun hlt => Bool.eq_false_iff.mp heq (hbefore hlt)) hne
      · cases hself.symm.trans hposition'
        exact ⟨comp_of_lt_position hsorted (Nat.lt_succ_self position) hbest hb, fun _ => .inr ⟨rfl, Nat.lt_succ_self position⟩⟩

end

/-! ### All places -/

theorem mem_places {place : Place} : place ∈ view.places ↔ ∃ range, view.out[place.1]? = some range ∧ place.2 < range.length := by
  simp only [places, List.mem_flatMap, List.mem_map, List.mem_range, Prod.exists]
  constructor
  · rintro ⟨range, idx, hmem, position, hlt, rfl⟩
    exact ⟨range, List.mem_zipIdx_iff_getElem?.mp hmem, hlt⟩
  · rintro ⟨range, hrange, hlt⟩
    exact ⟨range, place.1, List.mem_zipIdx_iff_getElem?.mpr hrange, place.2, hlt, rfl⟩

theorem nodup_places : view.places.Nodup := by
  refine List.nodup_flatMap.mpr ⟨fun entry _ => ?_, ?_⟩
  · exact List.nodup_range.map fun p q h => (Prod.mk.inj h).2
  · have hindices : (view.out.zipIdx.map Prod.snd).Nodup := by
      rw [List.zipIdx_map_snd]
      exact List.nodup_range' ..
    refine (List.pairwise_map.mp hindices).imp fun hne => List.disjoint_left.mpr fun place h h' => ?_
    obtain ⟨p, -, rfl⟩ := List.mem_map.mp h
    obtain ⟨q, -, heq⟩ := List.mem_map.mp h'
    exact hne (Prod.mk.inj heq).1.symm

/-- The elements range by range. -/
theorem map_valueAt_places : view.places.map view.valueAt = view.out.flatten.map some := by
  have hrange : ∀ entry ∈ view.out.zipIdx,
      ((List.range entry.1.length).map (entry.2, ·)).map view.valueAt = entry.1.map some := by
    rintro ⟨range, idx⟩ hmem
    have hidx : view.out[idx]? = some range := List.mem_zipIdx_iff_getElem?.mp hmem
    refine List.ext_getElem? fun p => ?_
    simp only [List.getElem?_map]
    by_cases hp : p < range.length
    · simp [hp, valueAt, hidx]
    · simp [hp]
  rw [places, List.map_flatMap]
  refine (List.flatMap_congr hrange).trans ?_
  rw [List.map_flatten, ← List.flatMap_map Prod.fst, List.zipIdx_map_fst, List.flatMap_def]

/-! ### Iterating -/

def placeAt (view : MergeView α) (k : Nat) : Place := ((view.iterate k).chosen, (view.iterate k).its.getD (view.iterate k).chosen 0)

theorem iterate_succ (k : Nat) : view.iterate (k + 1) = view.increment (view.iterate k) := Function.iterate_succ_apply' _ _ _

theorem iterate_eq_next (k : Nat) : view.iterate k = view.next (view.iterate k).its := by
  cases k with
  | zero => rfl
  | succ k =>
    rw [iterate_succ]
    rfl

section
variable (hweak : IsStrictWeakOrder α fun a b => view.comp a b = true)
  (hsorted : ∀ range ∈ view.out, range.Pairwise fun a b => view.comp b a = false)
include hweak hsorted

omit hsorted in
/-- An iterator that is not at the end stands at an element. -/
theorem place_of_not_atEnd {k : Nat} (h : atEnd (view.iterate k) = false) :
    ∃ position best, (view.iterate k).its[(view.iterate k).chosen]? = some position ∧
      view.placeAt k = ((view.iterate k).chosen, position) ∧
      view.valueAt (view.placeAt k) = some best ∧ view.dereference (view.iterate k) = some best ∧
      ∀ j value, view.current (view.iterate k).its j = some value →
        view.comp value best = false ∧ (j < (view.iterate k).chosen → view.comp best value = true) := by
  rcases next_cases hweak (view.iterate k).its with ⟨hend, -⟩ | ⟨-, position, best, hposition, hbest, hleast⟩
  · rw [← iterate_eq_next, h] at hend
    cases hend
  · rw [← iterate_eq_next] at hposition hbest hleast
    have hplace : view.placeAt k = ((view.iterate k).chosen, position) := by
      rw [placeAt, List.getD_eq_getElem?_getD, hposition]
      rfl
    refine ⟨position, best, hposition, hplace, hplace ▸ hbest, ?_, hleast⟩
    rw [dereference, current, hposition]
    exact hbest

theorem progress_iterate (k : Nat) (h : ∀ j < k, atEnd (view.iterate j) = false) :
    Progress view (view.iterate k).its ((List.range k).map view.placeAt) := by
  induction k with
  | zero => exact Progress.start
  | succ k ih =>
    obtain ⟨position, best, hposition, hplace, hbest, -, hleast⟩ := place_of_not_atEnd hweak (h k (Nat.lt_succ_self k))
    rw [hplace] at hbest
    have hstep := @Progress.step α view (view.iterate k).its hweak hsorted _ position best (ih fun j hj => h j (Nat.lt_succ_of_lt hj))
    rw [← iterate_eq_next] at hstep
    rw [List.range_succ, List.map_append, List.map_singleton, hplace, iterate_succ]
    exact hstep hposition hbest hleast

/-- What is given is given once, and at the end it is everything. -/
theorem length_le_of_progress {k : Nat} (h : ∀ j < k, atEnd (view.iterate j) = false) : k ≤ view.places.length := by
  have hprogress := progress_iterate hweak hsorted k h
  have hsub : (List.range k).map view.placeAt ⊆ view.places := by
    intro place hplace
    obtain ⟨position, hposition, hlt⟩ := (hprogress.mem_iff place).mp hplace
    obtain ⟨hidx, -⟩ := List.getElem?_eq_some_iff.mp hposition
    have hrange := List.getElem?_eq_getElem (hprogress.length ▸ hidx : place.1 < view.out.length)
    exact mem_places.mpr ⟨_, hrange, Nat.lt_of_lt_of_le hlt (hprogress.bound _ _ _ hrange hposition)⟩
  have := (List.subperm_of_subset hprogress.nodup hsub).length_le
  rwa [List.length_map, List.length_range] at this

theorem perm_of_atEnd {k : Nat} (h : ∀ j < k, atEnd (view.iterate j) = false) (hend : atEnd (view.iterate k) = true) :
    ((List.range k).map view.placeAt).Perm view.places := by
  have hprogress := progress_iterate hweak hsorted k h
  refine (List.perm_ext_iff_of_nodup hprogress.nodup nodup_places).mpr fun place => ?_
  rw [hprogress.mem_iff, mem_places]
  have hnone : ∀ j, view.current (view.iterate k).its j = none := by
    rcases next_cases hweak (view.iterate k).its with ⟨-, hnone⟩ | ⟨hnot, -⟩
    · exact hnone
    · rw [← iterate_eq_next, hend] at hnot
      cases hnot
  constructor
  · rintro ⟨position, hposition, hlt⟩
    obtain ⟨hidx, -⟩ := List.getElem?_eq_some_iff.mp hposition
    have hrange := List.getElem?_eq_getElem (hprogress.length ▸ hidx : place.1 < view.out.length)
    exact ⟨_, hrange, Nat.lt_of_lt_of_le hlt (hprogress.bound _ _ _ hrange hposition)⟩
  · rintro ⟨range, hrange, hlt⟩
    obtain ⟨hidx, -⟩ := List.getElem?_eq_some_iff.mp hrange
    have hposition := List.getElem?_eq_getElem (hprogress.length.symm ▸ hidx : place.1 < (view.iterate k).its.length)
    refine ⟨_, hposition, Nat.lt_of_lt_of_le hlt (Nat.le_of_not_lt fun hless => ?_)⟩
    have := hnone place.1
    rw [current, hposition] at this
    simp [valueAt, hrange, hless] at this

/-- The iteration ends behind as many elements as there are, and not before. -/
theorem atEnd_iterate {k : Nat} (hk : k ≤ view.places.length) : atEnd (view.iterate k) = decide (k = view.places.length) := by
  have hbefore : ∀ k ≤ view.places.length, ∀ j < k, atEnd (view.iterate j) = false := by
    intro k
    induction k with
    | zero => exact fun _ j hj => absurd hj (Nat.not_lt_zero j)
    | succ k ih =>
      intro hle j hj
      have hk := ih (Nat.le_of_succ_le hle)
      rcases Nat.lt_succ_iff_lt_or_eq.mp hj with hj | rfl
      · exact hk j hj
      · refine Bool.eq_false_iff.mpr fun hend => ?_
        have := (perm_of_atEnd hweak hsorted hk hend).length_eq
        rw [List.length_map, List.length_range] at this
        omega
  by_cases heq : k = view.places.length
  · rw [decide_eq_true heq]
    by_contra hnot
    have := length_le_of_progress hweak hsorted (k := k + 1) fun j hj => by
      rcases Nat.lt_succ_iff_lt_or_eq.mp hj with hj | rfl
      · exact hbefore k hk j hj
      · exact Bool.eq_false_iff.mpr hnot
    omega
  · rw [decide_eq_false heq]
    exact hbefore (k + 1) (Nat.lt_of_le_of_ne hk heq) k (Nat.lt_succ_self k)

/-- The elements at the places that are given, one after the other. -/
theorem exists_merges : ∃ elements, view.Merges elements := by
  have hnot {k : Nat} (hk : k < view.places.length) : atEnd (view.iterate k) = false := by
    rw [atEnd_iterate hweak hsorted (Nat.le_of_lt hk), decide_eq_false (Nat.ne_of_lt hk)]
  have hend : atEnd (view.iterate view.places.length) = true := by
    rw [atEnd_iterate hweak hsorted (Nat.le_refl _), decide_eq_true rfl]
  have hprogress := progress_iterate hweak hsorted view.places.length fun j hj => hnot hj
  have hperm := perm_of_atEnd hweak hsorted (fun j hj => hnot hj) hend
  have hvalues : (((List.range view.places.length).map view.placeAt).map view.valueAt).Perm (view.out.flatten.map some) :=
    map_valueAt_places ▸ hperm.map view.valueAt
  obtain ⟨elements, helements⟩ : ((List.range view.places.length).map view.placeAt).map view.valueAt ∈ Set.range (List.map some) := by
    rw [Set.range_list_map]
    intro value hvalue
    obtain ⟨a, -, ha⟩ := List.mem_map.mp (hvalues.mem_iff.mp hvalue)
    exact ⟨a, ha⟩
  rw [← helements] at hvalues
  have hlength : elements.length = view.places.length := by
    simpa using congrArg List.length helements
  -- the element at a place is the one that the iterator gives
  have hvalue {k : Nat} (hk : k < view.places.length) : view.valueAt (view.placeAt k) = elements[k]? := by
    have := congrArg (·[k]?) helements
    simp only [List.getElem?_map, List.getElem?_range hk, Option.map_some] at this
    rw [List.getElem?_eq_getElem (hlength ▸ hk)] at this ⊢
    exact (Option.some.inj this).symm
  have hpairwise {R : α → α → Prop} {S : Place → Place → Prop} (h : ∀ p q, S p q → ∀ a b, view.valueAt p = some a →
      view.valueAt q = some b → R a b) (hS : ((List.range view.places.length).map view.placeAt).Pairwise S) : elements.Pairwise R := by
    refine List.pairwise_iff_getElem.mpr fun i j hi hj hij => ?_
    have hi' : i < view.places.length := hlength ▸ hi
    have hj' : j < view.places.length := hlength ▸ hj
    have := List.pairwise_iff_getElem.mp (List.pairwise_map.mp hS) i j (by simpa using hi') (by simpa using hj') hij
    simp only [List.getElem_range] at this
    exact h _ _ this _ _ ((hvalue hi').trans (List.getElem?_eq_getElem hi)) ((hvalue hj').trans (List.getElem?_eq_getElem hj))
  refine ⟨elements, ⟨(List.map_perm_map_iff (Option.some_injective α)).mp hvalues, ?_, ?_, fun k hk => ?_, fun k hk => ?_⟩⟩
  · exact hpairwise (fun p q hpq a b ha hb => (hpq a b ha hb).1) hprogress.stable
  · exact ⟨_, hperm, helements.symm, hprogress.stable.imp fun hpq a b ha hb => (hpq a b ha hb).2⟩
  · rw [hlength]
    exact atEnd_iterate hweak hsorted (hlength ▸ hk)
  · rw [hlength] at hk
    obtain ⟨-, best, -, -, hbest, hdereference, -⟩ := place_of_not_atEnd hweak (hnot hk)
    rw [hdereference, ← hbest, hvalue hk]

end

section
variable {elements : List α} (h : view.Merges elements)
include h

/-- A loop over the view sees the elements. -/
theorem Merges.elementsFrom {left k : Nat} (hk : left + k = elements.length) :
    view.elementsFrom (left + 1) (view.iterate k) = some (elements.drop k) := by
  induction left generalizing k with
  | zero =>
    have hend := h.sentinel k (by omega)
    rw [decide_eq_true (by omega)] at hend
    rw [MergeView.elementsFrom, if_pos hend, List.drop_eq_nil_of_le (by omega)]
  | succ left ih =>
    have hlt : k < elements.length := by omega
    have hnot := h.sentinel k (by omega)
    rw [decide_eq_false (by omega)] at hnot
    rw [MergeView.elementsFrom, if_neg (Bool.eq_false_iff.mp hnot), h.values k hlt, List.getElem?_eq_getElem hlt,
      ← iterate_succ, Option.bind_some, ih (by omega), List.drop_eq_getElem_cons hlt]
    rfl

/-- Copies go on independently: each iterator is told by how often it has gone on. -/
theorem Merges.act_eq (counts : List Nat) (hcounts : ∀ k ∈ counts, k ≤ elements.length) (action : Action) :
    view.act (counts.map view.iterate) action = (count elements.length counts action).map (·.map view.iterate) := by
  cases action with
  | copy i =>
    rw [act, count, List.getElem?_map]
    cases counts[i]? with
    | none => rfl
    | some k =>
      show some (counts.map view.iterate ++ [view.iterate k]) = some ((counts ++ [k]).map view.iterate)
      rw [List.map_append, List.map_singleton]
  | advance i =>
    rw [act, count, List.getElem?_map]
    cases hi : counts[i]? with
    | none => rfl
    | some k =>
      show (if atEnd (view.iterate k) then none else _) = Option.map _ (if k = elements.length then none else _)
      rw [h.sentinel k (hcounts k (List.mem_of_getElem? hi))]
      by_cases hk : k = elements.length
      · rw [decide_eq_true hk, if_pos rfl, if_pos hk]
        rfl
      · rw [decide_eq_false hk, if_neg Bool.false_ne_true, if_neg hk, ← iterate_succ, Option.map_some, List.map_set]

omit h in
theorem count_le {length : Nat} {counts counts' : List Nat} {action : Action} (hcounts : ∀ k ∈ counts, k ≤ length)
    (h : count length counts action = some counts') : ∀ k ∈ counts', k ≤ length := by
  cases action with
  | copy i =>
    obtain ⟨k, hk, rfl⟩ := Option.map_eq_some_iff.mp h
    intro j hj
    rcases List.mem_append.mp hj with hj | hj
    · exact hcounts j hj
    · rw [List.mem_singleton.mp hj]
      exact hcounts k (List.mem_of_getElem? hk)
  | advance i =>
    obtain ⟨k, hk, h⟩ := Option.bind_eq_some_iff.mp h
    split at h
    · cases h
    · next hne =>
      cases h
      intro j hj
      rcases List.mem_or_eq_of_mem_set hj with hj | rfl
      · exact hcounts j hj
      · exact Nat.lt_of_le_of_ne (hcounts k (List.mem_of_getElem? hk)) hne

theorem Merges.foldlM_act (actions : List Action) (counts : List Nat) (hcounts : ∀ k ∈ counts, k ≤ elements.length) :
    actions.foldlM view.act (counts.map view.iterate) = (actions.foldlM (count elements.length) counts).map (·.map view.iterate) := by
  induction actions generalizing counts with
  | nil => rfl
  | cons action actions ih =>
    rw [List.foldlM_cons, List.foldlM_cons, h.act_eq counts hcounts action]
    cases hcount : count elements.length counts action with
    | none => rfl
    | some counts' => exact ih counts' (count_le hcounts hcount)

end

end MergeView

/-! ### Repeated elements -/

namespace PairDeduplicateView

variable {view : PairDeduplicateView α} {result kept run l : List α} {chunkStart : α}

/-- The look back sees what the chunk has kept so far, and ends at the chunk before it. -/
theorem isDuplicate_eq (hkept : ∀ a ∈ kept, view.eq1 chunkStart a = true) (hresult : ∀ a ∈ result.getLast?, view.eq1 chunkStart a = false)
    (current : α) : view.isDuplicate chunkStart current (result ++ kept).reverse = kept.any fun earlier => view.eq2 earlier current := by
  induction kept using List.reverseRecOn with
  | nil =>
    rw [List.append_nil]
    cases result using List.reverseRecOn with
    | nil => rfl
    | append_singleton result last =>
      have hlast := hresult last (by simp)
      rw [List.reverse_append, List.reverse_singleton, List.singleton_append, isDuplicate, hlast]
      rfl
  | append_singleton kept last ih =>
    have hlast := hkept last (by simp)
    rw [← List.append_assoc, List.reverse_append, List.reverse_singleton, List.singleton_append, isDuplicate, hlast,
      ih fun a ha => hkept a (List.mem_append_left _ ha), List.any_append, List.any_cons, List.any_nil, Bool.or_false, Bool.or_comm]
    cases view.eq2 last current <;> rfl

/-- The result does not end with an element of the chunk that starts next. -/
def Ends (view : PairDeduplicateView α) (result l : List α) : Prop :=
  ∀ a ∈ result.getLast?, ∀ b ∈ l.head?, view.eq1 b a = false

theorem pushUnlessDuplicate_eq (hkept : ∀ a ∈ kept, view.eq1 chunkStart a = true)
    (hresult : ∀ a ∈ result.getLast?, view.eq1 chunkStart a = false) (current : α) :
    view.pushUnlessDuplicate chunkStart (result ++ kept) current =
      result ++ if kept.any fun earlier => view.eq2 earlier current then kept else kept ++ [current] := by
  rw [pushUnlessDuplicate, isDuplicate_eq hkept hresult]
  split
  · rfl
  · rw [List.append_assoc]

theorem collectChunk_eq (hkept : ∀ a ∈ kept, view.eq1 chunkStart a = true)
    (hresult : ∀ a ∈ result.getLast?, view.eq1 chunkStart a = false) (l : List α) :
    view.collectChunk chunkStart (result ++ kept) l =
      (result ++ (l.takeWhile (view.eq1 chunkStart)).foldl (fun kept current =>
        if kept.any fun earlier => view.eq2 earlier current then kept else kept ++ [current]) kept,
        l.dropWhile (view.eq1 chunkStart)) := by
  induction l generalizing kept with
  | nil => rfl
  | cons current l ih =>
    rw [collectChunk]
    cases hcurrent : view.eq1 chunkStart current with
    | false => rw [List.takeWhile_cons_of_neg (by simp [hcurrent]), List.dropWhile_cons_of_neg (by simp [hcurrent])]; rfl
    | true =>
      rw [List.takeWhile_cons_of_pos hcurrent, List.dropWhile_cons_of_pos hcurrent, List.foldl_cons,
        pushUnlessDuplicate_eq hkept hresult]
      refine ih ?_
      split
      · exact hkept
      · intro a ha
        rcases List.mem_append.mp ha with ha | ha
        · exact hkept a ha
        · rw [List.mem_singleton.mp ha]
          exact hcurrent

theorem not_of_mem_dropWhile {p : α → Bool} {b : α} (hb : b ∈ (l.dropWhile p).head?) : p b = false := by
  have hnot := List.head?_dropWhile_not p l
  rw [Option.mem_def.mp hb] at hnot
  exact hnot

/-- What is kept of a run is some of its elements, the first of them always. -/
theorem foldl_keepFirst (l kept : List α) (eq2 : α → α → Bool) :
    ∃ more, l.foldl (fun kept current => if kept.any fun earlier => eq2 earlier current then kept else kept ++ [current]) kept = kept ++ more ∧
      ∀ a ∈ more, a ∈ l := by
  induction l generalizing kept with
  | nil => exact ⟨[], (List.append_nil _).symm, fun a ha => ha⟩
  | cons current l ih =>
    rw [List.foldl_cons]
    split
    · obtain ⟨more, heq, hmem⟩ := ih kept
      exact ⟨more, heq, fun a ha => .tail _ (hmem a ha)⟩
    · obtain ⟨more, heq, hmem⟩ := ih (kept ++ [current])
      refine ⟨current :: more, heq.trans (List.append_assoc _ _ _), fun a ha => ?_⟩
      rcases List.mem_cons.mp ha with rfl | ha
      · exact .head _
      · exact .tail _ (hmem a ha)

section
variable (hequiv : Equivalence fun a b => view.eq1 a b = true)
include hequiv

/-- A maximal run of neighbours holds what is equal to its first element. -/
theorem splitBy_cons (first : α) (l : List α) :
    (first :: l).splitBy view.eq1 =
      (first :: l.takeWhile (view.eq1 first)) :: (l.dropWhile (view.eq1 first)).splitBy view.eq1 := by
  have hfirst : ∀ a ∈ first :: l.takeWhile (view.eq1 first), view.eq1 first a = true := by
    intro a ha
    rcases List.mem_cons.mp ha with rfl | ha
    · exact hequiv.refl a
    · exact List.mem_takeWhile_imp ha
  have hchain : (first :: l.takeWhile (view.eq1 first)).IsChain fun a b => view.eq1 a b = true :=
    (List.pairwise_iff_forall_sublist.mpr fun {a b} hab => by
      have ha := hfirst a (hab.subset (.head _))
      have hb := hfirst b (hab.subset (.tail _ (.head _)))
      exact hequiv.trans (hequiv.symm ha) hb).isChain
  have hsplit : (first :: l).splitBy view.eq1 =
      (first :: l.takeWhile (view.eq1 first)).splitBy view.eq1 ++ (l.dropWhile (view.eq1 first)).splitBy view.eq1 := by
    rw [← List.splitBy_append, List.cons_append, List.takeWhile_append_dropWhile]
    intro a ha b hb
    refine Bool.eq_false_iff.mpr fun hab => ?_
    exact Bool.eq_false_iff.mp (not_of_mem_dropWhile hb) (hequiv.trans (hfirst a (List.mem_of_getLast? ha)) hab)
  rw [hsplit, List.splitBy_of_isChain (List.cons_ne_nil _ _) hchain]
  rfl

theorem collect_eq {fuel : Nat} (hfuel : l.length ≤ fuel) (hends : Ends view result l) :
    view.collect fuel result l = some (result ++ (l.splitBy view.eq1).flatMap (keepFirst view.eq2)) := by
  induction fuel generalizing l result with
  | zero =>
    rw [List.eq_nil_of_length_eq_zero (Nat.le_zero.mp hfuel)]
    simp [collect]
  | succ fuel ih =>
    cases l with
    | nil => simp [collect]
    | cons first l =>
      have hresult : ∀ a ∈ result.getLast?, view.eq1 first a = false := fun a ha => hends a ha first rfl
      have hpush : view.pushUnlessDuplicate first result first = result ++ [first] := by
        have := @pushUnlessDuplicate_eq α view result [] first (fun a ha => nomatch ha) hresult first
        rwa [List.append_nil] at this
      have hkept : ∀ a ∈ [first], view.eq1 first a = true := fun a ha => by
        rw [List.mem_singleton.mp ha]
        exact hequiv.refl first
      rw [collect, hpush, collectChunk_eq hkept hresult, splitBy_cons hequiv, List.flatMap_cons]
      show view.collect fuel (result ++ keepFirst view.eq2 (first :: l.takeWhile (view.eq1 first))) (l.dropWhile (view.eq1 first)) = _
      rw [ih, List.append_assoc]
      · exact Nat.le_trans (List.dropWhile_sublist _).length_le (Nat.le_of_succ_le_succ hfuel)
      · obtain ⟨more, hmore, hmem⟩ := foldl_keepFirst (l.takeWhile (view.eq1 first)) [first] view.eq2
        intro a ha b hb
        have hrun : view.eq1 first a = true := by
          rw [show keepFirst view.eq2 (first :: l.takeWhile (view.eq1 first)) = [first] ++ more from hmore,
            List.getLast?_append_of_ne_nil _ (by simp)] at ha
          rcases List.mem_append.mp (List.mem_of_getLast? ha) with ha | ha
          · exact hkept a ha
          · exact List.mem_takeWhile_imp (hmem a ha)
        refine Bool.eq_false_iff.mpr fun hba => ?_
        exact Bool.eq_false_iff.mp (not_of_mem_dropWhile hb) (hequiv.trans hrun (hequiv.symm hba))

end

end PairDeduplicateView

/-! ### The helpers -/

/-- The merging view gives a stable merge of its sorted ranges, with iterators that go on independently, and the removal
    keeps the first of what is equal in each run of neighbours. -/
theorem merged_and_deduplicated (α : Type u) :
    (∀ view : MergeView α, IsStrictWeakOrder α (fun a b => view.comp a b = true) →
      (∀ range ∈ view.out, range.Pairwise fun a b => view.comp b a = false) →
      ∃ elements, view.elementsFrom (elements.length + 1) view.begin_ = some elements ∧ view.Merges elements ∧
        ∀ actions : List MergeView.Action, actions.foldlM view.act [view.begin_] =
          (actions.foldlM (MergeView.count elements.length) [0]).map (·.map view.iterate)) ∧
    ∀ view : PairDeduplicateView α, Equivalence (fun a b => view.eq1 a b = true) →
      ∀ l, view.collect l.length [] l = some ((l.splitBy view.eq1).flatMap (PairDeduplicateView.keepFirst view.eq2)) := by
  refine ⟨fun view hweak hsorted => ?_, fun view hequiv l => ?_⟩
  · obtain ⟨elements, h⟩ := MergeView.exists_merges hweak hsorted
    refine ⟨elements, ?_, h, fun actions => ?_⟩
    · exact h.elementsFrom (Nat.add_zero _)
    · refine h.foldlM_act actions [0] fun k hk => ?_
      rw [List.mem_singleton.mp hk]
      exact Nat.zero_le _
  · exact PairDeduplicateView.collect_eq hequiv (Nat.le_refl _) fun a ha => nomatch ha

/-- Two ranges of pairs that are sorted by their first parts, with a one in both. -/
def twoRanges : MergeView (Nat × Char) where
  out := [[(1, 'a'), (3, 'a')], [(1, 'b'), (2, 'b')]]
  comp a b := a.1 < b.1

/-- The pairs with the same first part. -/
def byFirst : PairDeduplicateView (Nat × Char) where
  eq1 a b := a.1 = b.1
  eq2 a b := a = b

theorem twoRanges_merged :
    twoRanges.Merges [(1, 'a'), (1, 'b'), (2, 'b'), (3, 'a')] ∧
    byFirst.collect 5 [] [(1, 'a'), (1, 'b'), (1, 'a'), (2, 'a'), (1, 'a')] = some [(1, 'a'), (1, 'b'), (2, 'a'), (1, 'a')] := by
  obtain ⟨hmerge, hdeduplicate⟩ := merged_and_deduplicated (Nat × Char)
  have hweak : IsStrictWeakOrder (Nat × Char) fun a b => twoRanges.comp a b = true := by
    have hcomp (a b : Nat × Char) : twoRanges.comp a b = true ↔ a.1 < b.1 := decide_eq_true_iff
    refine @IsStrictWeakOrder.mk _ _ (@IsStrictOrder.mk _ _ ⟨fun a h => ?_⟩ ⟨fun a b c hab hbc => ?_⟩) fun a b c hab hbc => ?_
    · exact Nat.lt_irrefl _ ((hcomp a a).mp h)
    · exact (hcomp a c).mpr (Nat.lt_trans ((hcomp a b).mp hab) ((hcomp b c).mp hbc))
    · simp only [hcomp] at *
      omega
  constructor
  · obtain ⟨elements, hrun, hmerges, -⟩ := hmerge twoRanges hweak (by decide)
    have hlength : elements.length = 4 := hmerges.perm.length_eq
    rw [hlength] at hrun
    obtain rfl : [(1, 'a'), (1, 'b'), (2, 'b'), (3, 'a')] = elements := Option.some.inj ((by decide : _ = _).trans hrun)
    exact hmerges
  · have hequiv : Equivalence fun a b => byFirst.eq1 a b = true :=
      ⟨fun a => decide_eq_true rfl, fun h => decide_eq_true (of_decide_eq_true h).symm,
        fun h h' => decide_eq_true ((of_decide_eq_true h).trans (of_decide_eq_true h'))⟩
    have hkept := hdeduplicate byFirst hequiv [(1, 'a'), (1, 'b'), (1, 'a'), (2, 'a'), (1, 'a')]
    exact hkept.trans (by decide)

end GnuRadio.RangesHelper
