import GnuRadio.Tensor.Views
import GnuRadio.Theorems.Tensor.Invariant
import Mathlib.Algebra.BigOperators.Group.List.Lemmas
import Mathlib.Algebra.Order.BigOperators.Group.List
import Mathlib.Data.List.Perm.Subperm

/-! The elements that a view of a tensor accesses. The iterators and the multi-indices go by the strides, which every
    slice and permutation carries along; a single index and `fill()` go by the storage, and reach the same elements where
    these lie side by side. -/

namespace GnuRadio

open Arrays (Window indices coordinates dot)
open Tensor (Represents)

variable {α : Type} {t : Tensor α} {x : Shaped α} {v w : TensorView} {a b : Window} {op : TensorView.Op}
  {ops : List TensorView.Op} {size : Nat} {data : List α}

/-! ### Extents and strides -/

variable {extents : List Nat}

theorem rowMajor_extent {d : Nat} (hd : d < extents.length) :
    (Arrays.rowMajor extents)[d]? = some (extents.drop (d + 1)).prod := by
  induction extents generalizing d with
  | nil => exact absurd hd (Nat.not_lt_zero _)
  | cons e es ih =>
    cases d with
    | zero => rfl
    | succ d => exact ih (Nat.lt_of_succ_lt_succ hd)

theorem prod_pos_of_extents (h : ∀ e ∈ extents, 0 < e) : 0 < extents.prod := by
  induction extents with
  | nil => exact Nat.one_pos
  | cons e es ih =>
    rw [List.prod_cons]
    exact Nat.mul_pos (h e (.head _)) (ih fun e' he' => h e' (List.mem_cons_of_mem e he'))

/-- The strides of a tensor with an element are the row-major ones. -/
theorem rowMajor_eq (hsize : extents.prod < sizeModulus) (hpos : ∀ e ∈ extents, 0 < e) :
    ExtentsStore.rowMajor extents = Arrays.rowMajor extents := by
  refine List.ext_getElem? fun d => ?_
  by_cases hd : d < extents.length
  · have hprod : extents.prod = (extents.take (d + 1)).prod * (extents.drop (d + 1)).prod :=
      (List.prod_take_mul_prod_drop extents (d + 1)).symm
    have hle : (extents.drop (d + 1)).prod ≤ extents.prod := by
      rw [hprod]
      exact Nat.le_mul_of_pos_left _ (prod_pos_of_extents fun e he => hpos e (List.mem_of_mem_take he))
    rw [ExtentsStore.rowMajor_getElem? hd, rowMajor_extent hd, Nat.mod_eq_of_lt (Nat.lt_of_le_of_lt hle hsize)]
  · rw [List.getElem?_eq_none (by rw [ExtentsStore.length_rowMajor]; exact Nat.le_of_not_lt hd),
      List.getElem?_eq_none (by rw [Arrays.length_rowMajor]; exact Nat.le_of_not_lt hd)]

namespace TensorView

/-! ### What a view is of -/

/-- A view of an array in a storage of the given size. -/
structure Of (v : TensorView) (a : Window) (size : Nat) : Prop where
  extents : v.extents = a.extents
  size_eq : v.size = a.extents.prod
  strided : a.Strided v.offset v.strides
  embedded : a.Embedded size

theorem of_ofTensor (h : Represents t x) (hx : x.extents ≠ []) (hsize : t.size < sizeModulus) :
    (ofTensor t).Of (.whole t.extents) t.size := by
  have hprod : t.extents.prod = t.size := by rw [h.extents, h.size, x.prod_extents hx]
  have hstrides : t.strides = ExtentsStore.rowMajor t.extents := by
    rw [h.extents]
    exact h.describes.strides
  refine ⟨rfl, hprod.symm, ⟨?_, fun idx hidx => ?_⟩, hprod ▸ Window.whole_embedded t.extents⟩
  · show t.strides.length = t.extents.length
    rw [hstrides, ExtentsStore.length_rowMajor]
  · show (Window.whole t.extents).position idx = 0 + dot idx t.strides
    have hsame : ExtentsStore.rowMajor t.extents = Arrays.rowMajor t.extents :=
      rowMajor_eq (hprod ▸ hsize) (Arrays.pos_of_mem hidx)
    rw [hstrides, hsame]
    exact (Window.whole_strided t.extents).position idx hidx

variable {extents strides : List Nat}

theorem sliced_eq {ranges : List (Nat × Nat)} (hw : Arrays.Within ranges extents)
    (hlen : strides.length = extents.length) :
    sliced ranges extents strides = (Arrays.cut extents ranges, dot (ranges.map Prod.fst) strides) := by
  induction ranges generalizing extents strides with
  | nil => cases extents <;> simp [sliced, Arrays.cut, dot]
  | cons r ranges ih =>
    cases extents with
    | nil => exact absurd hw id
    | cons e es =>
      cases strides with
      | nil => cases hlen
      | cons s ss => simp [sliced, Arrays.cut, dot, ih hw.2 (Nat.succ.inj hlen)]

theorem permute_reverse (entries : List Nat) :
    Arrays.permute (List.range entries.length).reverse entries = entries.reverse := by
  rw [Arrays.permute, List.map_reverse]
  exact congrArg List.reverse (Arrays.permute_range entries)

theorem new_eq_some {offset : Nat} (h : new offset extents strides = some v) :
    v = ⟨offset, extents, strides, extents.prod⟩ := by
  obtain ⟨n, hn, rfl⟩ := Option.map_eq_some_iff.mp h
  rw [Tensor.prod_of_product hn]

theorem perm_reverse_range (n : Nat) : (List.range n).reverse.Perm (List.range (List.range n).reverse.length) := by
  rw [List.length_reverse, List.length_range]
  exact List.reverse_perm _

theorem length_reverse_range (n : Nat) : n = (List.range n).reverse.length := by
  rw [List.length_reverse, List.length_range]

/-- Each operation gives an array within the one before it. -/
theorem fits_window (hfits : op.Fits a) (h : a.Embedded size) :
    (op.window a).Embedded size ∧ (op.window a).extents.length = a.extents.length ∧
      ((op.window a).positions ≠ [] → a.positions ≠ []) := by
  have hne {b : Window} (himage : ∀ idx ∈ indices b.extents, ∃ idx', idx' ∈ indices a.extents) :
      b.positions ≠ [] → a.positions ≠ [] := by
    intro hb
    obtain ⟨p, hp⟩ := List.exists_mem_of_ne_nil _ hb
    obtain ⟨idx, hidx, -⟩ := List.mem_map.mp hp
    obtain ⟨idx', hidx'⟩ := himage idx hidx
    exact List.ne_nil_of_mem (List.mem_map_of_mem hidx')
  cases op with
  | slice ranges =>
    exact ⟨h.slice hfits, Arrays.length_cut _ _, hne fun idx hidx => ⟨_, Arrays.shift_mem hfits hidx⟩⟩
  | transpose =>
    have hperm := perm_reverse_range a.extents.length
    have hlen := length_reverse_range a.extents.length
    exact ⟨h.transpose hperm hlen, (List.length_map ..).trans hlen.symm,
      hne fun idx hidx => ⟨_, Arrays.unpermute_mem hperm hlen hidx⟩⟩
  | transposeAxes axes =>
    have hlen : axes.length = a.extents.length := by rw [hfits.length_eq, List.length_range]
    have hperm : axes.Perm (List.range axes.length) := hlen ▸ hfits
    exact ⟨h.transpose hperm hlen.symm, (List.length_map ..).trans hlen,
      hne fun idx hidx => ⟨_, Arrays.unpermute_mem hperm hlen.symm hidx⟩⟩

/-- The view that an operation makes of one finds its elements by its own offset and strides. -/
theorem Of.apply_eq (h : v.Of a size) (hfits : op.Fits a) :
    ∃ offset strides, v.apply op = new offset (op.window a).extents strides ∧
      (op.window a).Strided offset strides := by
  have hextents := h.extents
  cases op with
  | slice ranges =>
    refine ⟨_, _, ?_, h.strided.slice hfits⟩
    simp only [TensorView.apply, hextents, sliced_eq hfits h.strided.length]
    rfl
  | transpose =>
    have hstrided := h.strided.transpose (perm_reverse_range _) (length_reverse_range a.extents.length)
    rw [← h.strided.length, permute_reverse, h.strided.length] at hstrided
    refine ⟨_, _, ?_, hstrided⟩
    have hshape : ((TensorView.Op.transpose).window a).extents = a.extents.reverse := permute_reverse a.extents
    rw [TensorView.apply, hextents, hshape]
  | transposeAxes axes =>
    have hlen : axes.length = a.extents.length := by rw [hfits.length_eq, List.length_range]
    have hperm : axes.Perm (List.range axes.length) := hlen ▸ hfits
    refine ⟨_, _, ?_, h.strided.transpose hperm hlen.symm⟩
    rw [TensorView.apply, hextents]
    rfl

theorem Of.apply (h : v.Of a size) (hfits : op.Fits a) (hw : v.apply op = some w) : w.Of (op.window a) size := by
  obtain ⟨offset, strides, happly, hstrided⟩ := h.apply_eq hfits
  have hnew : new offset (op.window a).extents strides = some w := happly ▸ hw
  rw [new_eq_some hnew]
  exact ⟨rfl, rfl, hstrided, (fits_window hfits h.embedded).1⟩

/-- By induction on the chain: each view is of the array that the operations make. -/
theorem Of.chain (h : v.Of a size) (hfits : ChainFits a ops) (hw : v.chain ops = some w) :
    w.Of (windowOf a ops) size := by
  induction ops generalizing v a with
  | nil =>
    cases hw
    exact h
  | cons op ops ih =>
    obtain ⟨u, hu, hw⟩ := Option.bind_eq_some_iff.mp hw
    exact ih (h.apply hfits.1 hu) hfits.2 hw

theorem length_windowOf (hfits : ChainFits a ops) (h : a.Embedded size) :
    (windowOf a ops).extents.length = a.extents.length := by
  induction ops generalizing a with
  | nil => rfl
  | cons op ops ih =>
    obtain ⟨hembedded, hlen, -⟩ := fits_window hfits.1 h
    exact (ih hfits.2 hembedded).trans hlen

/-- An array with an element is made of arrays with one. -/
theorem positions_ne_nil (hfits : ChainFits a ops) (h : a.Embedded size) (hne : (windowOf a ops).positions ≠ []) :
    a.positions ≠ [] := by
  induction ops generalizing a with
  | nil => exact hne
  | cons op ops ih =>
    obtain ⟨hembedded, -, hback⟩ := fits_window hfits.1 h
    exact hback (ih hfits.2 hembedded hne)

/-! ### Sizes that are computed -/

theorem productFrom_eq_some {n : Nat} {extents : List Nat} (hpos : ∀ e ∈ extents, 0 < e)
    (hlt : n * extents.prod < sizeModulus) : Tensor.productFrom n extents = some (n * extents.prod) := by
  induction extents generalizing n with
  | nil => exact congrArg some (Nat.mul_one n).symm
  | cons e es ih =>
    have hes : ∀ e' ∈ es, 0 < e' := fun e' he' => hpos e' (List.mem_cons_of_mem e he')
    rw [List.prod_cons, ← Nat.mul_assoc] at hlt ⊢
    have hle : n * e ≤ sizeModulus - 1 :=
      Nat.le_sub_one_of_lt (Nat.lt_of_le_of_lt (Nat.le_mul_of_pos_right _ (prod_pos_of_extents hes)) hlt)
    have hfits : ¬(e ≠ 0 ∧ n > (sizeModulus - 1) / e) := fun hover =>
      Nat.not_lt.mpr ((Nat.le_div_iff_mul_le (hpos e (.head _))).mpr hle) hover.2
    rw [Tensor.productFrom, if_neg hfits, ih hes hlt]

/-- An array with an element has as many as its extents say, and no more than the storage. -/
theorem product_eq_some (h : a.Embedded size) (hsize : size < sizeModulus) (hne : a.positions ≠ []) :
    Tensor.product a.extents = some a.extents.prod := by
  obtain ⟨p, hp⟩ := List.exists_mem_of_ne_nil _ hne
  obtain ⟨idx, hidx, -⟩ := List.mem_map.mp hp
  have hsub : a.positions ⊆ List.range size := fun p hp => List.mem_range.mpr (h.lt_of_mem hp)
  have hle : a.extents.prod ≤ size := by
    have := (h.nodup_positions.subperm hsub).length_le
    rwa [Window.length_positions, List.length_range] at this
  have := productFrom_eq_some (n := 1) (Arrays.pos_of_mem hidx) (by omega)
  rwa [Nat.one_mul] at this

theorem Of.isSome_chain (h : v.Of a size) (hfits : ChainFits a ops) (hsize : size < sizeModulus)
    (hne : (windowOf a ops).positions ≠ []) : (v.chain ops).isSome := by
  induction ops generalizing v a with
  | nil => rfl
  | cons op ops ih =>
    obtain ⟨offset, strides, happly, -⟩ := h.apply_eq hfits.1
    have hembedded := (fits_window hfits.1 h.embedded).1
    have hsome := product_eq_some hembedded hsize (positions_ne_nil hfits.2 hembedded hne)
    have hview : v.apply op = some ⟨offset, (op.window a).extents, strides, (op.window a).extents.prod⟩ := by
      rw [happly, new, hsome, Option.map_some]
    have := ih (h.apply hfits.1 hview) hfits.2 hne
    rwa [TensorView.chain, List.foldlM_cons, hview]

/-! ### Accesses by strides -/

theorem foldl_div (n : Nat) (extents : List Nat) : extents.foldl (· / ·) n = n / extents.prod := by
  induction extents generalizing n with
  | nil => exact (Nat.div_one n).symm
  | cons e es ih => rw [List.foldl_cons, ih, List.prod_cons, Nat.div_div_eq_div_mul]

theorem iteratorOffset_eq (n : Nat) (hlen : strides.length = extents.length) :
    iteratorOffset n extents strides = dot (coordinates extents n) strides := by
  induction extents generalizing strides with
  | nil =>
    rw [List.length_eq_zero_iff.mp hlen]
    rfl
  | cons e es ih =>
    cases strides with
    | nil => cases hlen
    | cons s ss => rw [iteratorOffset, coordinates, dot, foldl_div, ih (Nat.succ.inj hlen)]

theorem Of.iterated (h : v.Of a size) : v.iterated = a.positions := by
  rw [h.strided.positions_eq, TensorView.iterated, h.size_eq]
  refine List.map_congr_left fun n _ => ?_
  rw [h.extents, iteratorOffset_eq n h.strided.length]

variable {idx : List Nat}

theorem indexOf_eq (hidx : idx.length ≠ 1) (v : TensorView) : v.indexOf idx = dot idx v.strides := by
  rw [Arrays.dot_eq_sum]
  rcases idx with _ | ⟨i, _ | ⟨j, is⟩⟩
  · rfl
  · exact absurd rfl hidx
  · rfl

theorem Of.element (h : v.Of a size) (hidx : idx ∈ indices a.extents) (hlen : idx.length ≠ 1) :
    v.element idx = a.position idx := by
  rw [TensorView.element, indexOf_eq hlen, h.strided.position idx hidx]

theorem all_lt_iff {idx extents : List Nat} :
    (idx.length == extents.length && (List.zipWith (fun i e => decide (i < e)) idx extents).all id) = true ↔
      List.Forall₂ (· < ·) idx extents := by
  induction idx generalizing extents with
  | nil => cases extents <;> simp
  | cons i is ih =>
    cases extents with
    | nil => simp
    | cons e es =>
      rw [List.forall₂_cons, ← ih]
      simp
      tauto

theorem Of.boundsCheck (h : v.Of a size) (hlen : idx.length ≠ 1) :
    v.boundsCheck idx = true ↔ idx ∈ indices a.extents := by
  rw [Arrays.mem_indices_iff, ← all_lt_iff, ← h.extents]
  rcases idx with _ | ⟨i, _ | ⟨j, is⟩⟩
  · rfl
  · exact absurd rfl hlen
  · rfl

theorem Of.at_multi (h : v.Of a size) (hlen : idx.length ≠ 1) :
    v.at? idx = if idx ∈ indices a.extents then some (a.position idx) else none := by
  rw [TensorView.at?]
  by_cases hidx : idx ∈ indices a.extents
  · rw [if_pos ((h.boundsCheck hlen).mpr hidx), if_pos hidx, h.element hidx hlen]
  · rw [if_neg (mt (h.boundsCheck hlen).mp hidx), if_neg hidx]

/-! ### Accesses by the storage -/

theorem dot_coordinates_zero (extents strides : List Nat) : dot (coordinates extents 0) strides = 0 := by
  induction extents generalizing strides with
  | nil => rfl
  | cons e es ih =>
    cases strides with
    | nil => rfl
    | cons s ss => rw [coordinates, dot, ih, Nat.zero_div, Nat.zero_mod, Nat.zero_mul]

/-- Elements that lie side by side begin where the view does. -/
theorem Of.positions_sideBySide (h : v.Of a size) (hside : SideBySide a) :
    a.positions = (List.range v.size).map (v.offset + ·) := by
  obtain ⟨first, hfirst⟩ := hside
  rw [h.size_eq]
  rcases Nat.eq_zero_or_pos a.extents.prod with hzero | hpos
  · rw [hfirst, hzero, List.range_zero, List.map_nil, List.map_nil]
  · have hhead : a.positions[0]? = some (v.offset + 0) := by
      rw [h.strided.positions_eq, List.getElem?_map, List.getElem?_range hpos, Option.map_some,
        dot_coordinates_zero]
    rw [hfirst, List.getElem?_map, List.getElem?_range hpos, Option.map_some] at hhead
    have hoffset : first = v.offset := Option.some.inj hhead
    rw [hfirst, hoffset]

theorem Of.element_single (h : v.Of a size) (hside : SideBySide a) {i : Nat} (hi : i < v.size) :
    a.positions[i]? = some (v.element [i]) := by
  rw [h.positions_sideBySide hside, List.getElem?_map, List.getElem?_range hi, Option.map_some]
  rfl

theorem Of.at_single (h : v.Of a size) (hside : SideBySide a) (i : Nat) : v.at? [i] = a.positions[i]? := by
  by_cases hi : i < v.size
  · rw [h.element_single hside hi]
    exact if_pos (decide_eq_true hi)
  · have hlen : a.positions.length ≤ i := by
      rw [Window.length_positions, ← h.size_eq]
      exact Nat.le_of_not_lt hi
    rw [List.getElem?_eq_none hlen]
    exact if_neg fun hcheck => hi (of_decide_eq_true hcheck)

theorem getElem?_filled (positions : List Nat) (value : α) (data : List α) (n : Nat) :
    (filled positions value data)[n]? = data[n]?.map fun x => if n ∈ positions then value else x := by
  rw [filled, List.getElem?_mapIdx]

/-- Writing a value at one position after the other. -/
theorem foldl_set (positions : List Nat) (value : α) (data : List α) :
    positions.foldl (fun data p => data.set p value) data = filled positions value data := by
  induction positions generalizing data with
  | nil =>
    refine List.ext_getElem? fun n => ?_
    rw [getElem?_filled, List.foldl_nil]
    simp
  | cons p ps ih =>
    rw [List.foldl_cons, ih]
    refine List.ext_getElem? fun n => ?_
    rw [getElem?_filled, getElem?_filled, List.getElem?_set]
    by_cases hp : p = n
    · subst hp
      by_cases hlt : p < data.length <;> simp [hlt]
    · have hn : n ≠ p := Ne.symm hp
      simp [hp, hn]

theorem fill_eq (v : TensorView) (value : α) (data : List α) :
    v.fill value data = filled ((List.range v.size).map (v.offset + ·)) value data := by
  rw [← foldl_set, List.foldl_map, TensorView.fill]

/-! ### Elements, comparison and conversion -/

theorem Of.elements (h : v.Of a size) (data : List α) : v.elements data = read a data := by
  rw [TensorView.elements, h.iterated, read]

theorem length_read (a : Window) (data : List α) : (read a data).length = a.extents.prod := by
  rw [read, List.length_map, Window.length_positions]

/-- The accesses through a view reach the elements of an array, each once. A single index and `fill()` do so where the
    elements lie side by side. -/
structure Names (v : TensorView) (a : Window) (data : List α) : Prop where
  once : a.positions.Nodup
  inside : ∀ p ∈ a.positions, p < data.length
  extents : v.extents = a.extents
  iterated : v.iterated = a.positions
  element : ∀ idx ∈ indices a.extents, idx.length ≠ 1 → v.element idx = a.position idx
  at_multi : ∀ idx, idx.length ≠ 1 →
    v.at? idx = if idx ∈ indices a.extents then some (a.position idx) else none
  element_single : SideBySide a → ∀ i < v.size, a.positions[i]? = some (v.element [i])
  at_single : SideBySide a → ∀ i, v.at? [i] = a.positions[i]?
  fill : SideBySide a → ∀ value, v.fill value data = filled a.positions value data
  equalRange : ∀ eq container, v.equalRange eq data container =
    (a.extents.length == 1 && a.positions.length == container.length && (read a data).isEqv (container.map some) eq)
  threeWayRange : ∀ cmp container, v.threeWayRange cmp data container =
    if a.extents.length = 1 then
      (compare a.positions.length container.length).then
        (lexicographicalCompare cmp (read a data) (container.map some))
    else .gt
  toTensor : ∀ mr result, v.toTensor data mr = some result →
    ∃ y, Represents result y ∧ y.extents = a.extents ∧ y.elements = read a data
  converts : a.positions ≠ [] → ∀ mr, (v.toTensor data mr).isSome

/-- Two views compare as the arrays do. -/
structure Compares (v w : TensorView) (a b : Window) (data data' : List α) : Prop where
  equal : ∀ eq, v.equal eq w data data' = (a.extents == b.extents && (read a data).isEqv (read b data') eq)
  threeWay : ∀ cmp, v.threeWay cmp w data data' =
    (compare a.extents.length b.extents.length).then
      ((lexicographicalCompare compare a.extents b.extents).then
        (lexicographicalCompare cmp (read a data) (read b data')))

/-- The new tensor has the extents of the view, and the elements are written over its own. -/
theorem Of.toTensor (h : v.Of a size) {data : List α} {mr : Nat} {result : Tensor (Option α)}
    (hresult : v.toTensor data mr = some result) (hrank : a.extents ≠ []) :
    ∃ y, Represents result y ∧ y.extents = a.extents ∧ y.elements = read a data := by
  obtain ⟨blank, hblank, rfl⟩ := Option.map_eq_some_iff.mp hresult
  rw [Tensor.construct, h.extents] at hblank
  split at hblank
  · cases hblank
  · rename_i hle
    obtain ⟨n, hn, rfl⟩ := Option.map_eq_some_iff.mp hblank
    have hlen : (read a data).length = n := by rw [length_read, Tensor.prod_of_product hn]
    have hdata : read a data ++ (List.replicate n (default : Option α)).drop (read a data).length = read a data := by
      rw [hlen, List.drop_replicate, Nat.sub_self, List.replicate_zero, List.append_nil]
    refine ⟨⟨a.extents, read a data, Nat.le_of_not_lt hle, (absurd · hrank), fun _ => (length_read a data).symm⟩,
      ⟨ExtentsStore.describes_setExtents ExtentsStore.sized_default (Nat.le_of_not_lt hle), ?_⟩, rfl, rfl⟩
    rw [h.elements]
    exact hdata

theorem Of.isSome_toTensor (h : v.Of a size) (hsize : size < sizeModulus) (hrank : a.extents.length ≤ kMaxRank)
    (hne : a.positions ≠ []) (data : List α) (mr : Nat) : (v.toTensor data mr).isSome := by
  rw [TensorView.toTensor, Option.isSome_map, Tensor.construct, h.extents, if_neg (Nat.not_lt.mpr hrank),
    Option.isSome_map, product_eq_some h.embedded hsize hne]
  rfl

theorem Of.names (h : v.Of a data.length) (hsize : data.length < sizeModulus) (hrank : a.extents ≠ [])
    (hle : a.extents.length ≤ kMaxRank) : v.Names a data where
  once := h.embedded.nodup_positions
  inside _ hp := h.embedded.lt_of_mem hp
  extents := h.extents
  iterated := h.iterated
  element _ hidx hlen := h.element hidx hlen
  at_multi _ hlen := h.at_multi hlen
  element_single hside _ hi := h.element_single hside hi
  at_single hside i := h.at_single hside i
  fill hside value := by rw [fill_eq, h.positions_sideBySide hside]
  equalRange eq container := by
    rw [TensorView.equalRange, h.elements, h.extents, Window.length_positions, h.size_eq]
  threeWayRange cmp container := by
    rw [TensorView.threeWayRange, h.elements, h.extents, Window.length_positions, h.size_eq]
  toTensor _ _ hresult := h.toTensor hresult hrank
  converts hne mr := h.isSome_toTensor hsize hle hne data mr

theorem Of.compares {size' : Nat} {data' : List α} (h : v.Of a size) (h' : w.Of b size') :
    v.Compares w a b data data' where
  equal eq := by
    rw [TensorView.equal, h.elements, h'.elements, h.extents, h'.extents]
    by_cases hextents : a.extents = b.extents
    · rw [hextents, beq_self_eq_true, beq_self_eq_true, Bool.and_self]
    · rw [beq_false_of_ne hextents, Bool.and_false]
  threeWay cmp := by
    rw [TensorView.threeWay, h.elements, h'.elements, h.extents, h'.extents]

/-! ### The views of a tensor -/

/-- The array that a chain of views makes of a tensor. -/
def arrayOf (t : Tensor α) (ops : List Op) : Window := windowOf (.whole t.extents) ops

theorem of_chain (h : Represents t x) (hx : x.extents ≠ []) (hsize : t.size < sizeModulus)
    (hfits : ChainFits (.whole t.extents) ops) (hv : (ofTensor t).chain ops = some v) : v.Of (arrayOf t ops) t.size :=
  (of_ofTensor h hx hsize).chain hfits hv

/-- Every chain of slices and permutations of the axes of a tensor with a shape throws nothing if there is an element
    left, and each access through the view reaches what the array has in that place. An assignment to the view makes it
    another and writes nothing. -/
theorem views_name_elements (h : Represents t x) (hx : x.extents ≠ []) (hsize : t.size < sizeModulus)
    (hfits : ChainFits (.whole t.extents) ops) :
    ((arrayOf t ops).positions ≠ [] → ((ofTensor t).chain ops).isSome) ∧
      ∀ v, (ofTensor t).chain ops = some v →
        v.Names (arrayOf t ops) t.data ∧
          ∀ (t' : Tensor α) (x' : Shaped α) (ops' : List Op) (w : TensorView), Represents t' x' → x'.extents ≠ [] →
            t'.size < sizeModulus → ChainFits (.whole t'.extents) ops' → (ofTensor t').chain ops' = some w →
            v.Compares w (arrayOf t ops) (arrayOf t' ops') t.data t'.data ∧
              (v.assign w t.data).1.Names (arrayOf t' ops') t'.data ∧ (v.assign w t.data).2 = t.data := by
  have hnames {t : Tensor α} {x : Shaped α} {ops : List Op} {v : TensorView} (h : Represents t x) (hx : x.extents ≠ [])
      (hsize : t.size < sizeModulus) (hfits : ChainFits (.whole t.extents) ops)
      (hv : (ofTensor t).chain ops = some v) : v.Names (arrayOf t ops) t.data := by
    have hof := of_ofTensor h hx hsize
    have hlen : (arrayOf t ops).extents.length = x.extents.length := by
      rw [arrayOf, length_windowOf hfits hof.embedded, ← h.extents]
      rfl
    have hrank : (arrayOf t ops).extents ≠ [] := by
      intro hnil
      rw [hnil] at hlen
      exact hx (List.length_eq_zero_iff.mp hlen.symm)
    exact (of_chain h hx hsize hfits hv).names hsize hrank (hlen ▸ x.rank_le)
  refine ⟨fun hne => (of_ofTensor h hx hsize).isSome_chain hfits hsize hne, fun v hv => ?_⟩
  refine ⟨hnames h hx hsize hfits hv, fun t' x' ops' w h' hx' hsize' hfits' hw => ?_⟩
  exact ⟨(of_chain h hx hsize hfits hv).compares (of_chain h' hx' hsize' hfits' hw), hnames h' hx' hsize' hfits' hw, rfl⟩

/-- Two rows of three elements. -/
def rows : Tensor Nat := Tensor.withExtents [2, 3] [10, 11, 12, 20, 21, 22] 0

theorem rows_represents : ∃ x, Represents rows x ∧ x.extents ≠ [] :=
  ⟨⟨[2, 3], [10, 11, 12, 20, 21, 22], by decide, by decide, by decide⟩,
    ⟨ExtentsStore.describes_setExtents ExtentsStore.sized_default (by decide), rfl⟩, List.cons_ne_nil _ _⟩

/-- The second row of the transposed array is the second column. -/
theorem views_name_elements_column :
    (arrayOf rows [.transpose, .slice [(1, 2)]]).positions = [1, 4] ∧
      ∃ v, (ofTensor rows).chain [.transpose, .slice [(1, 2)]] = some v ∧
        v.Names (arrayOf rows [.transpose, .slice [(1, 2)]]) rows.data := by
  have hpositions : (arrayOf rows [.transpose, .slice [(1, 2)]]).positions = [1, 4] := by decide
  have hfits : ChainFits (.whole rows.extents) [.transpose, .slice [(1, 2)]] :=
    ⟨trivial, ⟨by decide, trivial⟩, trivial⟩
  obtain ⟨x, hx, hne⟩ := rows_represents
  obtain ⟨hsome, hnames⟩ := views_name_elements hx hne (by decide) hfits
  obtain ⟨v, hv⟩ := Option.isSome_iff_exists.mp (hsome (by rw [hpositions]; exact List.cons_ne_nil _ _))
  exact ⟨hpositions, v, hv, (hnames v hv).1⟩

/-- In the transposed rows, the second element is the third of the storage, and a single index finds the second. To fill
    a column writes over its row. An assignment leaves the elements as they are. -/
theorem accesses_by_storage :
    ∃ transposed column : TensorView,
      (ofTensor rows).chain [.transpose] = some transposed ∧
        (arrayOf rows [.transpose]).positions[1]? = some 3 ∧
        transposed.element [1] = 1 ∧ transposed.at? [1] = some 1 ∧
      (ofTensor rows).chain [.slice [(0, 2), (1, 2)]] = some column ∧
        (arrayOf rows [.slice [(0, 2), (1, 2)]]).positions = [1, 4] ∧
        column.fill 0 rows.data = [10, 0, 0, 20, 21, 22] ∧ (column.assign transposed rows.data).2 = rows.data :=
  ⟨⟨0, [3, 2], [1, 3], 6⟩, ⟨1, [2, 1], [3, 1], 2⟩, by decide, by decide, rfl, rfl, by decide, by decide, by decide, rfl⟩

end TensorView

end GnuRadio

/-! Runs of a program on several tensors. Each step that keeps the shapes is a step of the lists and their
    shapes, so every tensor of a run holds the list that the same operations give, in its shape. -/

namespace GnuRadio

open Function

namespace Tensor

variable {ι α : Type} [DecidableEq ι] {s t : ι → Tensor α} {g : ι → Shaped α}

theorem represents_update (h : ∀ k, Represents (s k) (g k)) {i : ι} {u : Tensor α} {x : Shaped α} (hu : Represents u x) :
    ∀ k, Represents (update s i u k) (update g i x k) := fun k => by
  by_cases hk : k = i
  · subst hk
    rwa [update_self, update_self]
  · rw [update_of_ne hk, update_of_ne hk]
    exact h k

theorem Represents.copyOf {u : Tensor α} {x : Shaped α} (h : Represents u x) (mr : Nat) :
    Represents (u.copyOf mr) x := by
  have := ExtentsStore.describes_recomputeStrides h.describes.sized h.describes.rank_le
  rw [h.describes.extents] at this
  exact ⟨this, h.data⟩

theorem Represents.assignCopy {u v : Tensor α} {x : Shaped α} (h : Represents v x) : Represents (u.assignCopy v) x :=
  ⟨h.describes, h.data⟩

/-- Moving the data away changes nothing where there is none, or where it comes back. -/
theorem represents_moved (h : ∀ k, Represents (s k) (g k)) {i j : ι} (hj : i ≠ j → (s j).data = []) :
    ∀ k, Represents (update (update s j (movedFrom (s j))) i (s j) k)
      (update (update g j (g j)) i (g j) k) := by
  by_cases hij : i = j
  · subst hij
    rw [update_idem, update_idem]
    exact represents_update h (h i)
  · have hempty : movedFrom (s j) = s j := by rw [movedFrom, ← hj hij]
    rw [hempty]
    exact represents_update (represents_update h (h j)) (h j)

variable [Inhabited α]

/-- A step that keeps the shapes is a step of the lists. -/
theorem act_simulates (h : ∀ k, Represents (s k) (g k)) {a : Act ι α} (ha : Keeps s a) :
    ∃ g', Shaped.Next g (a, (act s a).2) g' ∧ ∀ k, Represents ((act s a).1 k) (g' k) := by
  cases a with
  | construct i c =>
    have hc := construct_agrees ha
    simp only [act]
    cases hx : Shaped.construct c with
    | some x =>
      rw [hx] at hc
      generalize construct c = made at hc
      cases hc with
      | done hr => exact ⟨_, .construct hx, represents_update h hr⟩
    | none =>
      rw [hx] at hc
      generalize construct c = made at hc
      cases hc with
      | refused => exact ⟨g, .constructRefused hx, h⟩
  | constructCopy i j mr => exact ⟨_, .constructCopy, represents_update h ((h j).copyOf mr)⟩
  | constructMove i j => exact ⟨_, .constructMove (Or.inl rfl), represents_moved h ha⟩
  | modify i m =>
    have hm := (h i).modify ha
    simp only [act]
    generalize (s i).modify m = outcome at hm
    cases hx : (g i).modify m with
    | some x =>
      rw [hx] at hm
      cases hm with
      | done hr => exact ⟨_, .modify hx, represents_update h hr⟩
    | none =>
      rw [hx] at hm
      cases hm with
      | refused hr =>
        refine ⟨g, .modifyRefused hx, ?_⟩
        have := represents_update (i := i) h hr
        rwa [update_eq_self] at this
  | assignCopy i j =>
    refine ⟨_, .assignCopy, ?_⟩
    by_cases hij : i = j
    · subst hij
      simp only [act, if_pos, update_eq_self]
      exact h
    · simp only [act, if_neg hij]
      exact represents_update h (h j).assignCopy
  | assignMove i j =>
    have hthrown : (act s (.assignMove i j)).2 = false := by
      simp only [act]
      split
      · rfl
      · split <;> rfl
    rw [hthrown]
    refine ⟨_, .assignMove (Or.inl rfl), ?_⟩
    by_cases hij : i = j
    · subst hij
      simp only [act, if_pos, update_eq_self]
      exact h
    · by_cases hresource : (s i).resource = (s j).resource
      · simp only [act, if_neg hij, if_pos hresource]
        exact represents_moved h fun hne => ha hne hresource
      · simp only [act, if_neg hij, if_neg hresource, update_eq_self]
        exact represents_update h (h j).assignCopy
  | swap i j => exact ⟨_, .swap, represents_update (represents_update h (h j)) (h i)⟩

/-- The operations of a run, with whether each throws. -/
def events (s : ι → Tensor α) (a : Act ι α) : List (Act ι α × Bool) := [(a, (act s a).2)]

theorem represents_of_trace {es : List (Act ι α × Bool)} (h : (system ι α).Trace Keeps events es s) :
    ∃ g, Transition.System.Accepts Shaped.Next (fun _ => Shaped.empty) es g ∧ ∀ k, Represents (s k) (g k) := by
  refine h.simulates (R := fun s (g : ι → Shaped α) => ∀ k, Represents (s k) (g k)) (fun s hs k => ?_) fun s a t g hr ha hs => ?_
  · rw [hs k]
    exact represents_empty _
  · cases hs
    obtain ⟨g', hnext, hr'⟩ := act_simulates hr ha
    exact ⟨g', .single hnext, hr'⟩

/-- In every run whose steps all keep the shapes: the rank is at most `kMaxRank`, the extents multiply to the size, the
    strides are those of the extents, shape and elements are those of the same operations on lists, and an operation
    that throws leaves both. -/
theorem shape_invariant {es : List (Act ι α × Bool)} (h : (system ι α).Trace Keeps events es s) :
    (∃ g, Transition.System.Accepts Shaped.Next (fun _ => Shaped.empty) es g ∧
      ∀ i, (s i).extents = (g i).extents ∧ (s i).data = (g i).elements) ∧
    (∀ i, Sound (s i)) ∧
    ∀ a, Keeps s a → (act s a).2 = true → ∀ i,
      ((act s a).1 i).extents = (s i).extents ∧ ((act s a).1 i).data = (s i).data := by
  obtain ⟨g, hg, hr⟩ := represents_of_trace h
  refine ⟨⟨g, hg, fun i => ⟨(hr i).extents, (hr i).data⟩⟩, fun i => (hr i).sound, fun a ha hthrown i => ?_⟩
  obtain ⟨g', hnext, hr'⟩ := act_simulates hr ha
  rw [hthrown] at hnext
  have hsame := hnext.refused
  subst hsame
  exact ⟨(hr' i).extents.trans (hr i).extents.symm, (hr' i).data.trans (hr i).data.symm⟩

section Examples

/-- Two default-constructed tensors, each in a memory resource of its own. -/
def twoTensors : Bool → Tensor Int := fun i => { resource := if i then 1 else 0 }

/-- A matrix is filled, reshaped, copied, moved to the other resource, and flattened by an append. -/
def filled : List (Act Bool Int) :=
  [.construct false (.extentsFrom [2, 3] 0), .modify false (.setList [1, 2, 3, 4, 5, 6]),
    .modify false (.reshape [4, 2]), .modify false (.reshape [3, 2]), .assignMove true false,
    .modify false (.pushBackCopy 7), .modify true (.resizeDim 0 2), .swap false true]

theorem shape_invariant_filled :
    (((system Bool Int).run twoTensors filled).map fun s => ((s false).extents, (s false).strides, (s true).data)) =
      some ([2, 2], [2, 1], [1, 2, 3, 4, 5, 6, 7]) ∧
    ∀ s, (system Bool Int).run twoTensors filled = some s → ∀ i, Sound (s i) := by
  refine ⟨by decide, fun s hs i => ?_⟩
  have hmeets : (system Bool Int).Meets Keeps twoTensors filled := by
    refine ⟨List.cons_ne_nil _ _, trivial, fun h => absurd h (by decide), fun _ => by decide, fun _ h => ?_, trivial,
      fun _ _ => by decide, trivial, trivial⟩
    exact absurd h (by decide)
  have htrace : (system Bool Int).Trace Keeps events _ _ :=
    (system Bool Int).trace_get filled (fun i => by cases i <;> rfl) hmeets rfl
  cases hs
  exact (shape_invariant htrace).2.1 i

/-- A matrix loses an element and keeps its rank, or takes a temporary and keeps its strides; a rank-0 tensor holds an
    element; and a matrix whose data was moved away keeps its extents. -/
theorem shape_breaks :
    ∃ s₁ s₂ s₃ s₄ : Bool → Tensor Int,
      (system Bool Int).Reachable s₁ ∧ (s₁ false).extents = [3, 0] ∧ (s₁ false).size = 3 ∧ ¬ Sound (s₁ false) ∧
      (system Bool Int).Reachable s₂ ∧ (s₂ false).extents = [5] ∧ (s₂ false).strides = [2] ∧ ¬ Sound (s₂ false) ∧
      (system Bool Int).Reachable s₃ ∧ (s₃ false).rank = 0 ∧ (s₃ false).size = 1 ∧ ¬ Sound (s₃ false) ∧
      (system Bool Int).Reachable s₄ ∧ (s₄ false).extents = [2, 2] ∧ (s₄ false).size = 0 ∧ ¬ Sound (s₄ false) := by
  have reached (acts : List (Act Bool Int)) (hr : ((system Bool Int).run twoTensors acts).isSome) :
      (system Bool Int).Reachable (((system Bool Int).run twoTensors acts).get hr) :=
    (system Bool Int).reachable_get acts (fun i => by cases i <;> rfl) hr
  refine ⟨_, _, _, _,
    reached [.construct false (.extentsFrom [2, 2] 0), .modify false .popBack] rfl, by decide, by decide,
    fun h => absurd h.size_eq (by decide),
    reached [.construct false (.extentsFrom [2, 2] 0), .modify false (.pushBackMove 100)] rfl, by decide, by decide,
    fun h => absurd (h.strides 0) (by decide),
    reached [.modify false (.emplaceBack 30)] rfl, by decide, by decide, fun h => absurd h.size_eq (by decide),
    reached [.construct false (.extentsFrom [2, 2] 1), .assignMove true false] rfl, by decide, by decide,
    fun h => absurd h.size_eq (by decide)⟩

end Examples

end Tensor

end GnuRadio
