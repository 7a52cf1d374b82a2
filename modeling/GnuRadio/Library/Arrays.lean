import Mathlib.Algebra.BigOperators.Group.List.Basic
import Mathlib.Algebra.Order.Ring.Nat
import Mathlib.Data.List.GetD
import Mathlib.Data.List.Nodup
import Mathlib.Data.List.Range
import Mathlib.Data.List.Lattice

/-! Arrays of several axes over linear storage: the multi-indices of given extents in row-major order, the arrays that
    slicing and permuting the axes make of one, and strides, by which an array finds its elements. -/

namespace Arrays

/-! ### Multi-indices -/

/-- All multi-indices of the given extents, the last axis fastest. -/
def indices : List Nat → List (List Nat)
  | [] => [[]]
  | e :: es => (List.range e).flatMap fun i => (indices es).map (i :: ·)

/-- The multi-index at a place in row-major order. -/
def coordinates : List Nat → Nat → List Nat
  | [], _ => []
  | e :: es, n => n / es.prod % e :: coordinates es n

/-- The place of a multi-index in row-major order. -/
def linear : List Nat → List Nat → Nat
  | _ :: es, i :: is => i * es.prod + linear es is
  | _, _ => 0

variable {extents strides idx : List Nat} {n i : Nat}

theorem mem_indices_iff : idx ∈ indices extents ↔ List.Forall₂ (· < ·) idx extents := by
  induction extents generalizing idx with
  | nil => simp [indices]
  | cons e es ih =>
    simp only [indices, List.mem_flatMap, List.mem_range, List.mem_map, ih]
    constructor
    · rintro ⟨i, hi, is, his, rfl⟩
      exact .cons hi his
    · intro h
      cases h with
      | cons hi his => exact ⟨_, hi, _, his, rfl⟩

theorem length_of_mem (h : idx ∈ indices extents) : idx.length = extents.length :=
  (mem_indices_iff.mp h).length_eq

/-- An array with an element has no empty axis. -/
theorem pos_of_mem (h : idx ∈ indices extents) : ∀ e ∈ extents, 0 < e := by
  rw [mem_indices_iff] at h
  induction h with
  | nil => simp
  | cons hi _ ih =>
    intro e he
    rcases List.mem_cons.mp he with rfl | he
    · exact Nat.zero_lt_of_lt hi
    · exact ih e he

/-- Whole rows before a place do not change the coordinates within a row. -/
theorem coordinates_add (es : List Nat) (k n : Nat) : coordinates es (k * es.prod + n) = coordinates es n := by
  induction es generalizing k with
  | nil => rfl
  | cons e es ih =>
    rw [List.prod_cons, ← Nat.mul_assoc, coordinates, coordinates, ih]
    congr 1
    obtain hzero | hpos := Nat.eq_zero_or_pos es.prod
    · simp [hzero]
    · rw [Nat.mul_comm (k * e), Nat.mul_add_div hpos, Nat.mul_comm k, Nat.mul_add_mod]

theorem range_mul (e p : Nat) :
    List.range (e * p) = (List.range e).flatMap fun i => (List.range p).map (i * p + ·) := by
  induction e with
  | zero => simp
  | succ e ih =>
    rw [Nat.succ_mul, List.range_add, ih, List.range_succ, List.flatMap_append, List.flatMap_singleton]

/-- Row-major order is the order of the places. -/
theorem indices_eq (extents : List Nat) : indices extents = (List.range extents.prod).map (coordinates extents) := by
  induction extents with
  | nil => rfl
  | cons e es ih =>
    rw [List.prod_cons, range_mul, List.map_flatMap, indices, ih]
    refine List.flatMap_congr fun i hi => ?_
    rw [List.map_map, List.map_map]
    refine List.map_congr_left fun n hn => ?_
    have hpos : 0 < es.prod := Nat.zero_lt_of_lt (List.mem_range.mp hn)
    have hrow : (i * es.prod + n) / es.prod % e = i := by
      rw [Nat.mul_comm, Nat.mul_add_div hpos, Nat.div_eq_of_lt (List.mem_range.mp hn), Nat.add_zero,
        Nat.mod_eq_of_lt (List.mem_range.mp hi)]
    simp only [Function.comp_apply, coordinates, hrow, coordinates_add]

theorem length_indices (extents : List Nat) : (indices extents).length = extents.prod := by
  rw [indices_eq, List.length_map, List.length_range]

theorem linear_coordinates (h : n < extents.prod) : linear extents (coordinates extents n) = n := by
  induction extents generalizing n with
  | nil => exact (Nat.lt_one_iff.mp h).symm
  | cons e es ih =>
    rw [List.prod_cons] at h
    obtain hzero | hpos := Nat.eq_zero_or_pos es.prod
    · rw [hzero, Nat.mul_zero] at h
      exact absurd h (Nat.not_lt_zero _)
    · have hrow : n / es.prod < e := Nat.div_lt_of_lt_mul (by rwa [Nat.mul_comm])
      have hsplit : coordinates es n = coordinates es (n % es.prod) := by
        conv_lhs => rw [← Nat.div_add_mod n es.prod, Nat.mul_comm]
        exact coordinates_add es _ _
      rw [coordinates, linear, Nat.mod_eq_of_lt hrow, hsplit, ih (Nat.mod_lt n hpos), Nat.mul_comm]
      exact Nat.div_add_mod n es.prod

/-- Each place is that of one multi-index. -/
theorem map_linear_indices (extents : List Nat) : (indices extents).map (linear extents) = List.range extents.prod := by
  rw [indices_eq, List.map_map]
  conv_rhs => rw [← List.map_id (List.range extents.prod)]
  exact List.map_congr_left fun n hn => linear_coordinates (List.mem_range.mp hn)

theorem nodup_indices (extents : List Nat) : (indices extents).Nodup :=
  List.Nodup.of_map (linear extents) (map_linear_indices extents ▸ List.nodup_range)

theorem linear_lt (h : idx ∈ indices extents) : linear extents idx < extents.prod :=
  List.mem_range.mp (map_linear_indices extents ▸ List.mem_map_of_mem h)

theorem linear_injective {idx' : List Nat} (h : idx ∈ indices extents) (h' : idx' ∈ indices extents)
    (heq : linear extents idx = linear extents idx') : idx = idx' :=
  List.inj_on_of_nodup_map (map_linear_indices extents ▸ List.nodup_range) h h' heq

/-! ### Strides -/

/-- How far a multi-index lies behind the first element. -/
def dot : List Nat → List Nat → Nat
  | i :: is, s :: ss => i * s + dot is ss
  | _, _ => 0

/-- The strides of an array that fills its storage in row-major order. -/
def rowMajor : List Nat → List Nat
  | [] => []
  | _ :: es => es.prod :: rowMajor es

theorem length_rowMajor (extents : List Nat) : (rowMajor extents).length = extents.length := by
  induction extents with
  | nil => rfl
  | cons e es ih => rw [rowMajor, List.length_cons, List.length_cons, ih]

theorem linear_eq_dot (extents idx : List Nat) : linear extents idx = dot idx (rowMajor extents) := by
  induction extents generalizing idx with
  | nil => cases idx <;> rfl
  | cons e es ih =>
    cases idx with
    | nil => rfl
    | cons i is => rw [linear, rowMajor, dot, ih]

theorem dot_eq_sum (idx strides : List Nat) : dot idx strides = (List.zipWith (· * ·) idx strides).sum := by
  induction idx generalizing strides with
  | nil => rfl
  | cons i is ih =>
    cases strides with
    | nil => rfl
    | cons s ss => rw [dot, ih, List.zipWith_cons_cons, List.sum_cons]

/-! ### Slices -/

/-- Ranges within the first axes. -/
def Within : List (Nat × Nat) → List Nat → Prop
  | [], _ => True
  | (start, stop) :: ranges, e :: es => (start ≤ stop ∧ stop ≤ e) ∧ Within ranges es
  | _ :: _, [] => False

/-- The extents of a slice: an axis without a range stays whole. -/
def cut : List Nat → List (Nat × Nat) → List Nat
  | _ :: es, (start, stop) :: ranges => (stop - start) :: cut es ranges
  | es, _ => es

/-- The multi-index, in the array, of an element of a slice. -/
def shift : List (Nat × Nat) → List Nat → List Nat
  | (start, _) :: ranges, i :: is => (start + i) :: shift ranges is
  | _, is => is

variable {ranges : List (Nat × Nat)}

theorem length_cut (extents : List Nat) (ranges : List (Nat × Nat)) : (cut extents ranges).length = extents.length := by
  induction extents generalizing ranges with
  | nil => rfl
  | cons _ es ih =>
    cases ranges with
    | nil => rfl
    | cons r ranges => rw [cut, List.length_cons, List.length_cons, ih]

theorem shift_mem (hw : Within ranges extents) (h : idx ∈ indices (cut extents ranges)) :
    shift ranges idx ∈ indices extents := by
  rw [mem_indices_iff] at h ⊢
  induction ranges generalizing extents idx with
  | nil =>
    cases extents with
    | nil => exact h
    | cons e es => exact h
  | cons r ranges ih =>
    cases extents with
    | nil => exact absurd hw id
    | cons e es =>
      obtain ⟨⟨hstart, hstop⟩, hw⟩ := hw
      cases h with
      | cons hi h => exact .cons (by omega) (ih hw h)

theorem dot_shift (hlen : idx.length = strides.length) (hranges : ranges.length ≤ strides.length) :
    dot (shift ranges idx) strides = dot (ranges.map Prod.fst) strides + dot idx strides := by
  induction ranges generalizing idx strides with
  | nil =>
    cases idx with
    | nil => rfl
    | cons i is => exact (Nat.zero_add _).symm
  | cons r ranges ih =>
    cases strides with
    | nil => exact absurd hranges (Nat.not_succ_le_zero _)
    | cons s ss =>
      cases idx with
      | nil => cases hlen
      | cons i is =>
        rw [shift, dot, List.map_cons, dot, dot,
          ih (Nat.succ.inj hlen) (Nat.le_of_succ_le_succ hranges), Nat.add_mul]
        omega

theorem length_le_of_within (hw : Within ranges extents) : ranges.length ≤ extents.length := by
  induction ranges generalizing extents with
  | nil => exact Nat.zero_le _
  | cons r ranges ih =>
    cases extents with
    | nil => exact absurd hw id
    | cons e es => exact Nat.succ_le_succ (ih hw.2)

theorem shift_injective {idx' : List Nat} (hlen : idx.length = idx'.length) (h : shift ranges idx = shift ranges idx') :
    idx = idx' := by
  induction ranges generalizing idx idx' with
  | nil => exact h
  | cons r ranges ih =>
    cases idx with
    | nil => exact (List.length_eq_zero_iff.mp hlen.symm).symm
    | cons i is =>
      cases idx' with
      | nil => cases hlen
      | cons i' is' =>
        obtain ⟨hi, his⟩ := List.cons.inj h
        rw [Nat.add_left_cancel hi, ih (Nat.succ.inj hlen) his]

/-! ### Permutations of the axes -/

/-- The entries at the given axes. -/
def permute (axes entries : List Nat) : List Nat := axes.map fun a => entries.getD a 0

/-- The entries that were permuted. -/
def unpermute (axes entries : List Nat) : List Nat :=
  (List.range axes.length).map fun a => entries.getD (axes.idxOf a) 0

variable {axes entries : List Nat}

theorem permute_range (entries : List Nat) : permute (List.range entries.length) entries = entries := by
  refine List.ext_getElem (by simp [permute]) fun k h _ => ?_
  simp [permute] at h ⊢
  simp [h]

theorem length_unpermute (axes entries : List Nat) : (unpermute axes entries).length = axes.length := by
  simp [unpermute]

theorem getD_unpermute (hi : i < axes.length) : (unpermute axes entries).getD i 0 = entries.getD (axes.idxOf i) 0 := by
  simp [unpermute, hi]

theorem permute_unpermute (haxes : axes.Perm (List.range axes.length)) (hlen : entries.length = axes.length) :
    permute axes (unpermute axes entries) = entries := by
  have hnodup : axes.Nodup := haxes.nodup_iff.mpr List.nodup_range
  refine List.ext_getElem (by simp [permute, hlen]) fun k hk hk' => ?_
  have hlt : k < axes.length := hlen ▸ hk'
  have hmem : axes[k] < axes.length := List.mem_range.mp (haxes.mem_iff.mp (List.getElem_mem hlt))
  simp only [permute, List.getElem_map]
  rw [getD_unpermute hmem, hnodup.idxOf_getElem k hlt, List.getD_eq_getElem _ _ hk']

theorem unpermute_mem (haxes : axes.Perm (List.range axes.length)) (hlen : extents.length = axes.length)
    (h : idx ∈ indices (permute axes extents)) : unpermute axes idx ∈ indices extents := by
  have hidx : idx.length = axes.length := by
    rw [length_of_mem h, permute, List.length_map]
  rw [mem_indices_iff, List.forall₂_iff_get] at h ⊢
  obtain ⟨-, h⟩ := h
  refine ⟨by rw [length_unpermute, hlen], fun k hk hk' => ?_⟩
  have hlt : k < axes.length := hlen ▸ hk'
  have hmem : k ∈ axes := haxes.mem_iff.mpr (List.mem_range.mpr hlt)
  have hpos : axes.idxOf k < axes.length := List.idxOf_lt_length_of_mem hmem
  have hbound := h (axes.idxOf k) (hidx ▸ hpos) (by simpa [permute] using hpos)
  simp only [List.get_eq_getElem, permute, List.getElem_map, List.getElem_idxOf] at hbound
  rw [List.getD_eq_getElem _ _ hk'] at hbound
  simp only [List.get_eq_getElem]
  rw [← List.getD_eq_getElem _ 0 hk, getD_unpermute hlt, List.getD_eq_getElem _ _ (hidx ▸ hpos)]
  exact hbound

theorem dot_permute (haxes : axes.Perm (List.range axes.length)) (hlen : idx.length = axes.length)
    (hstrides : strides.length = axes.length) :
    dot idx (permute axes strides) = dot (unpermute axes idx) strides := by
  have hsum : ∀ l : List Nat, dot (permute l (unpermute axes idx)) (permute l strides) =
      (l.map fun a => (unpermute axes idx).getD a 0 * strides.getD a 0).sum := by
    intro l
    rw [dot_eq_sum, permute, permute, List.zipWith_map, List.zipWith_self]
  conv_lhs => rw [← permute_unpermute haxes hlen]
  rw [hsum, (haxes.map _).sum_eq, ← hsum]
  have h₁ := permute_range (unpermute axes idx)
  have h₂ := permute_range strides
  rw [length_unpermute] at h₁
  rw [hstrides] at h₂
  rw [h₁, h₂]

/-! ### Arrays within an array -/

/-- An array whose elements are at positions of a storage. -/
structure Window where
  extents : List Nat
  position : List Nat → Nat

namespace Window

/-- The array that fills its storage in row-major order. -/
def whole (extents : List Nat) : Window := ⟨extents, linear extents⟩

def slice (a : Window) (ranges : List (Nat × Nat)) : Window :=
  ⟨cut a.extents ranges, fun idx => a.position (shift ranges idx)⟩

def transpose (a : Window) (axes : List Nat) : Window :=
  ⟨permute axes a.extents, fun idx => a.position (unpermute axes idx)⟩

/-- The positions of all elements in row-major order. -/
def positions (a : Window) : List Nat := (indices a.extents).map a.position

/-- The array finds its elements from an offset by strides. -/
structure Strided (a : Window) (offset : Nat) (strides : List Nat) : Prop where
  length : strides.length = a.extents.length
  position : ∀ idx ∈ indices a.extents, a.position idx = offset + dot idx strides

/-- Different elements are at different positions below `size`. -/
structure Embedded (a : Window) (size : Nat) : Prop where
  lt : ∀ idx ∈ indices a.extents, a.position idx < size
  injective : ∀ idx ∈ indices a.extents, ∀ idx' ∈ indices a.extents, a.position idx = a.position idx' → idx = idx'

variable {a : Window} {offset size : Nat}

theorem whole_strided (extents : List Nat) : (whole extents).Strided 0 (rowMajor extents) where
  length := length_rowMajor extents
  position idx _ := (linear_eq_dot extents idx).trans (Nat.zero_add _).symm

theorem whole_embedded (extents : List Nat) : (whole extents).Embedded extents.prod where
  lt _ h := linear_lt h
  injective _ h _ h' heq := linear_injective h h' heq

theorem Strided.slice (h : a.Strided offset strides) (hw : Within ranges a.extents) :
    (a.slice ranges).Strided (offset + dot (ranges.map Prod.fst) strides) strides where
  length := by rw [h.length, Window.slice, length_cut]
  position idx hidx := by
    have hlen : idx.length = strides.length := by rw [length_of_mem hidx, h.length, Window.slice, length_cut]
    have hranges : ranges.length ≤ strides.length := h.length ▸ length_le_of_within hw
    rw [Window.slice, h.position _ (shift_mem hw hidx), dot_shift hlen hranges, Nat.add_assoc]

theorem Embedded.slice (h : a.Embedded size) (hw : Within ranges a.extents) : (a.slice ranges).Embedded size where
  lt _ hidx := h.lt _ (shift_mem hw hidx)
  injective idx hidx idx' hidx' heq := by
    have hlen : idx.length = idx'.length := (length_of_mem hidx).trans (length_of_mem hidx').symm
    exact shift_injective hlen (h.injective _ (shift_mem hw hidx) _ (shift_mem hw hidx') heq)

theorem Strided.transpose (h : a.Strided offset strides) (haxes : axes.Perm (List.range axes.length))
    (hlen : a.extents.length = axes.length) : (a.transpose axes).Strided offset (permute axes strides) where
  length := by simp [Window.transpose, permute]
  position idx hidx := by
    have hidx' : idx.length = axes.length := by rw [length_of_mem hidx, Window.transpose, permute, List.length_map]
    rw [Window.transpose, h.position _ (unpermute_mem haxes hlen hidx), dot_permute haxes hidx' (h.length.trans hlen)]

theorem Embedded.transpose (h : a.Embedded size) (haxes : axes.Perm (List.range axes.length))
    (hlen : a.extents.length = axes.length) : (a.transpose axes).Embedded size where
  lt _ hidx := h.lt _ (unpermute_mem haxes hlen hidx)
  injective idx hidx idx' hidx' heq := by
    have hlength : ∀ {l}, l ∈ indices (a.transpose axes).extents → l.length = axes.length := fun hl => by
      rw [length_of_mem hl, Window.transpose, permute, List.length_map]
    have hsame := h.injective _ (unpermute_mem haxes hlen hidx) _ (unpermute_mem haxes hlen hidx') heq
    rw [← permute_unpermute haxes (hlength hidx), hsame, permute_unpermute haxes (hlength hidx')]

theorem length_positions (a : Window) : a.positions.length = a.extents.prod := by
  rw [positions, List.length_map, length_indices]

theorem Embedded.nodup_positions (h : a.Embedded size) : a.positions.Nodup :=
  (nodup_indices a.extents).map_on fun idx hidx idx' hidx' heq => h.injective idx hidx idx' hidx' heq

theorem Embedded.lt_of_mem (h : a.Embedded size) {position : Nat} (hp : position ∈ a.positions) : position < size := by
  obtain ⟨idx, hidx, rfl⟩ := List.mem_map.mp hp
  exact h.lt idx hidx

/-- The positions, by their places in row-major order. -/
theorem Strided.positions_eq (h : a.Strided offset strides) :
    a.positions = (List.range a.extents.prod).map fun n => offset + dot (coordinates a.extents n) strides := by
  have hposition := h.position
  rw [positions]
  rw [indices_eq] at hposition ⊢
  rw [List.map_map]
  exact List.map_congr_left fun n hn => hposition _ (List.mem_map_of_mem hn)

end Window

end Arrays

/-! Copies into an array: a range of it takes the values of a list, and every other cell stays. -/

namespace Copies

universe u

variable {α : Type u}

/-- The array with the values of a list from a position on. -/
def overwrite (l : List α) (position : Nat) (values : List α) : List α :=
  l.take position ++ values ++ l.drop (position + values.length)

/-- The array with `n` cells from `source` on copied to `target` on. -/
def copyWithin (l : List α) (source n target : Nat) : List α := overwrite l target ((l.drop source).take n)

variable {l values : List α} {position source n target k : Nat}

theorem length_overwrite (h : position + values.length ≤ l.length) :
    (overwrite l position values).length = l.length := by
  rw [overwrite, List.length_append, List.length_append, List.length_take, List.length_drop]
  omega

theorem getElem?_overwrite (h : position + values.length ≤ l.length) :
    (overwrite l position values)[k]? =
      if position ≤ k ∧ k < position + values.length then values[k - position]? else l[k]? := by
  have htake : (l.take position).length = position := List.length_take_of_le (by omega)
  rw [overwrite, List.append_assoc]
  by_cases hk : k < position
  · rw [List.getElem?_append_left (by omega), List.getElem?_take_of_lt hk, if_neg (by omega)]
  · rw [List.getElem?_append_right (by omega), htake]
    by_cases hv : k < position + values.length
    · rw [List.getElem?_append_left (by omega), if_pos ⟨Nat.le_of_not_lt hk, hv⟩]
    · rw [List.getElem?_append_right (by omega), List.getElem?_drop, if_neg (by omega)]
      congr 1
      omega

theorem length_values (h : source + n ≤ l.length) : ((l.drop source).take n).length = n := by
  rw [List.length_take, List.length_drop]
  omega

theorem length_copyWithin (hs : source + n ≤ l.length) (ht : target + n ≤ l.length) :
    (copyWithin l source n target).length = l.length :=
  length_overwrite (by rwa [length_values hs])

theorem getElem?_copyWithin (hs : source + n ≤ l.length) (ht : target + n ≤ l.length) :
    (copyWithin l source n target)[k]? =
      if target ≤ k ∧ k < target + n then l[source + (k - target)]? else l[k]? := by
  rw [copyWithin, getElem?_overwrite (by rwa [length_values hs]), length_values hs]
  by_cases hk : target ≤ k ∧ k < target + n
  · rw [if_pos hk, if_pos hk, List.getElem?_take_of_lt (by omega), List.getElem?_drop]
  · rw [if_neg hk, if_neg hk]

end Copies
