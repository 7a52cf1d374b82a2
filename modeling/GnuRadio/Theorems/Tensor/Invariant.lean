import GnuRadio.Tensor

/-! The meta information of a tensor against its shape: what `recomputeStrides` and the copies of extents
    leave in the arrays, and which tensors hold a given shape and its elements. -/

namespace GnuRadio

namespace ExtentsStore

theorem take_copy (values array : List Nat) : (copy values array).take values.length = values :=
  List.take_left

theorem length_copy {values array : List Nat} (h : values.length ≤ array.length) :
    (copy values array).length = array.length := by
  simp only [copy, List.length_append, List.length_drop]
  omega

@[simp] theorem length_rowMajor : ∀ extents : List Nat, (rowMajor extents).length = extents.length
  | [] => rfl
  | [_] => rfl
  | _ :: e :: es => by
    simp only [rowMajor, List.length_cons, length_rowMajor (e :: es)]

/-- Each stride is the product of the later extents, as far as a `std::size_t` holds it. -/
theorem rowMajor_getElem? : ∀ {extents : List Nat} {i : Nat}, i < extents.length →
    (rowMajor extents)[i]? = some ((extents.drop (i + 1)).prod % sizeModulus)
  | [_], 0, _ => rfl
  | e' :: e :: es, 0, _ => by
    have ih : (rowMajor (e :: es))[0]? = some (es.prod % sizeModulus) :=
      rowMajor_getElem? (Nat.zero_lt_succ _)
    have hhead : (rowMajor (e :: es)).headD 1 = es.prod % sizeModulus := by
      rw [List.headD_eq_head?_getD, List.head?_eq_getElem?, ih, Option.getD_some]
    show some ((rowMajor (e :: es)).headD 1 * e % sizeModulus) = some ((e :: es).prod % sizeModulus)
    rw [hhead, List.prod_cons, Nat.mod_mul_mod, Nat.mul_comm]
  | _ :: e :: es, i + 1, h => @rowMajor_getElem? (e :: es) i (Nat.lt_of_succ_lt_succ h)

variable {m : ExtentsStore}

theorem extents_setExtents (newExtents : List Nat) :
    (m.setExtents newExtents).extents.take newExtents.length = newExtents := take_copy newExtents m.extents

theorem strides_recomputeStrides (h : m.rank ≤ m.extents.length) :
    m.recomputeStrides.strides.take m.rank = rowMajor (m.extents.take m.rank) := by
  have hlen : (rowMajor (m.extents.take m.rank)).length = m.rank := by
    rw [length_rowMajor, List.length_take, Nat.min_eq_left h]
  have := take_copy (rowMajor (m.extents.take m.rank)) m.strides
  rwa [hlen] at this

theorem length_strides_recomputeStrides (h : m.rank ≤ m.strides.length) :
    m.recomputeStrides.strides.length = m.strides.length := by
  refine length_copy ?_
  rw [length_rowMajor, List.length_take]
  exact Nat.le_trans (Nat.min_le_left _ _) h

/-- The arrays hold `kMaxRank` entries. -/
structure Sized (m : ExtentsStore) : Prop where
  extents : m.extents.length = kMaxRank
  strides : m.strides.length = kMaxRank

theorem sized_default : Sized {} := ⟨List.length_replicate, List.length_replicate⟩

theorem Sized.recomputeStrides (h : Sized m) (hrank : m.rank ≤ kMaxRank) : Sized m.recomputeStrides :=
  ⟨h.extents, (length_strides_recomputeStrides (h.strides ▸ hrank)).trans h.strides⟩

theorem Sized.setFlat (h : Sized m) (count : Nat) : Sized (m.setFlat count) :=
  ⟨(List.length_set ..).trans h.extents, h.strides⟩

theorem Sized.setExtents (h : Sized m) {newExtents : List Nat} (hrank : newExtents.length ≤ kMaxRank) :
    Sized (m.setExtents newExtents) :=
  ⟨(length_copy (h.extents ▸ hrank)).trans h.extents, h.strides⟩

/-- The arrays describe a shape. -/
structure Describes (m : ExtentsStore) (shape : List Nat) : Prop where
  sized : Sized m
  rank : m.rank = shape.length
  extents : m.extents.take m.rank = shape
  strides : m.strides.take m.rank = rowMajor shape

theorem Describes.rank_le {extents : List Nat} (h : Describes m extents) : m.rank ≤ kMaxRank := by
  have := congrArg List.length h.extents
  rw [List.length_take, ← h.rank, h.sized.extents] at this
  omega

theorem describes_recomputeStrides (h : Sized m) (hrank : m.rank ≤ kMaxRank) :
    Describes m.recomputeStrides (m.extents.take m.rank) where
  sized := h.recomputeStrides hrank
  rank := (List.length_take_of_le (h.extents ▸ hrank)).symm
  extents := rfl
  strides := strides_recomputeStrides (h.extents ▸ hrank)

theorem describes_setExtents (h : Sized m) {newExtents : List Nat} (hrank : newExtents.length ≤ kMaxRank) :
    Describes (m.setExtents newExtents).recomputeStrides newExtents := by
  have := describes_recomputeStrides (h.setExtents hrank) hrank
  rwa [show (m.setExtents newExtents).rank = newExtents.length from rfl, extents_setExtents] at this

theorem take_one {l : List Nat} {n : Nat} (h : l.head? = some n) : l.take 1 = [n] := by
  cases l with
  | nil => cases h
  | cons a l => cases h; rfl

theorem head_of_take_one {l : List Nat} {n : Nat} (h : l.take 1 = [n]) : l.head? = some n := by
  cases l with
  | nil => cases h
  | cons a l => cases h; rfl

/-- A shape of rank 1 has one entry in use in each array. -/
theorem describes_flat (h : Sized m) {count : Nat} (hrank : m.rank = 1) (hextents : m.extents.head? = some count)
    (hstrides : m.strides.head? = some 1) : Describes m [count] where
  sized := h
  rank := hrank
  extents := by rw [hrank, take_one hextents]
  strides := by rw [hrank, take_one hstrides]; rfl

theorem head_setFlat (h : Sized m) (count : Nat) : (m.setFlat count).extents.head? = some count := by
  rw [List.head?_eq_getElem?]
  exact List.getElem?_set_self (h.extents ▸ Nat.zero_lt_succ 7)

theorem describes_setFlat (h : Sized m) (count : Nat) (hstrides : m.strides.head? = some 1) :
    Describes (m.setFlat count) [count] :=
  describes_flat (h.setFlat count) rfl (head_setFlat h count) hstrides

theorem describes_setFlat_recomputeStrides (h : Sized m) (count : Nat) :
    Describes (m.setFlat count).recomputeStrides [count] := by
  have := describes_recomputeStrides (h.setFlat count) (Nat.succ_le_succ (Nat.zero_le 7))
  rwa [show (m.setFlat count).rank = 1 from rfl, take_one (head_setFlat h count)] at this

/-- At rank 1 the stride in use is 1. -/
theorem Describes.strides_head {count : Nat} (h : Describes m [count]) : m.strides.head? = some 1 := by
  have hrank : m.rank = 1 := h.rank
  have hone : m.strides.take 1 = rowMajor [count] := hrank ▸ h.strides
  exact head_of_take_one hone

theorem Describes.extents_head {count : Nat} (h : Describes m [count]) : m.extents.head? = some count := by
  have hrank : m.rank = 1 := h.rank
  exact head_of_take_one (hrank ▸ h.extents)

theorem head_modify {l : List Nat} {n : Nat} (f : Nat → Nat) (h : l.head? = some n) :
    (l.modify 0 f).head? = some (f n) := by
  cases l with
  | nil => cases h
  | cons a l => cases h; rfl

end ExtentsStore

end GnuRadio

/-! The shape invariant of tensors. A tensor represents a list in a shape when its arrays describe the
    shape and its data is the list. Each operation of the code then does what it does to the list, and is
    refused where it throws, except in the cases that `Keeps` leaves out: a shape without extents for one
    element, operations that leave the strides or the rank of the old shape, a rank or extent that is
    written before the check that refuses it, and data that is moved away from under its shape. -/

namespace GnuRadio

namespace Tensor

open ExtentsStore

variable {α : Type}

/-! ### The condition on a step -/

/-- Constructors that build a shape its elements fill. -/
def Construct.Keeps : Construct α → Prop
  | .extentsFrom extents _ => extents ≠ []
  | .extentsAndData extents data _ => extents = [] → data.length ≠ 1
  | .convertedMove other _ => other.extents.length ≤ kMaxRank
  | _ => True

/-- Operations that leave a shape its elements fill. -/
def Modify.Keeps (t : Tensor α) : Modify α → Prop
  | .pushBackMove _ => t.metaInfo.strides.head? = some 1
  | .emplaceBack _ => t.rank = 1
  | .popBack => t.data ≠ [] → t.rank ≤ 1
  | .assignRange _ => t.rank = 0 → t.metaInfo.strides.head? = some 1
  | .resize newExtents _ =>
    newExtents.length ≤ kMaxRank ∧ (product newExtents = none → newExtents.length = t.rank)
  | .resizeDim dim newExtent =>
    dim < t.rank → t.extents[dim]? ≠ some newExtent → product (t.extents.set dim newExtent) ≠ none
  | .reshape newExtents =>
    product newExtents = some t.size → newExtents ≠ [] ∧ newExtents.length ≤ kMaxRank
  | _ => True

/-- Steps that leave every tensor in a shape its elements fill. -/
def Keeps {ι : Type} (s : ι → Tensor α) : Act ι α → Prop
  | .construct _ c => c.Keeps
  | .constructMove i j => i ≠ j → (s j).data = []
  | .modify i m => m.Keeps (s i)
  | .assignMove i j => i ≠ j → (s i).resource = (s j).resource → (s j).data = []
  | _ => True

/-! ### Representation -/

/-- A tensor holds a list in a shape. -/
structure Represents (t : Tensor α) (x : Shaped α) : Prop where
  describes : Describes t.metaInfo x.extents
  data : t.data = x.elements

variable {t other : Tensor α} {x y : Shaped α}

theorem Represents.rank (h : Represents t x) : t.rank = x.extents.length := h.describes.rank

theorem Represents.extents (h : Represents t x) : t.extents = x.extents := h.describes.extents

theorem Represents.size (h : Represents t x) : t.size = x.elements.length := congrArg List.length h.data

theorem Represents.rank_eq_zero (h : Represents t x) : t.rank = 0 ↔ x.extents = [] := by
  rw [h.rank, List.length_eq_zero_iff]

/-- What the claim says of one tensor. -/
structure Sound (t : Tensor α) : Prop where
  rank_le : t.rank ≤ kMaxRank
  size_eq : t.size = if t.rank = 0 then 0 else t.extents.prod
  strides_length : t.strides.length = t.rank
  strides : ∀ d < t.rank, t.strides[d]? = some ((t.extents.drop (d + 1)).prod % sizeModulus)

theorem Represents.sound (h : Represents t x) : Sound t where
  rank_le := h.describes.rank_le
  size_eq := by
    rw [h.size, h.extents]
    by_cases hnil : x.extents = []
    · rw [if_pos (h.rank_eq_zero.mpr hnil), x.elements_nil hnil, List.length_nil]
    · rw [if_neg (mt h.rank_eq_zero.mp hnil), x.prod_extents hnil]
  strides_length := by
    rw [Tensor.strides, h.rank, ← h.describes.rank, h.describes.strides, length_rowMajor, h.describes.rank]
  strides d hd := by
    rw [h.rank] at hd
    rw [h.extents, Tensor.strides, Tensor.rank, h.describes.strides]
    exact rowMajor_getElem? hd

/-- An outcome does what is asked of the list, or throws where that is refused and holds what it held. -/
inductive Agrees (x : Shaped α) : Outcome α → Option (Shaped α) → Prop
  | done {t : Tensor α} {y : Shaped α} (h : Represents t y) : Agrees x ⟨t, false⟩ (some y)
  | refused {t : Tensor α} (h : Represents t x) : Agrees x ⟨t, true⟩ none

/-! ### Shapes that an operation writes -/

variable {m : ExtentsStore} {data : List α}

theorem represents_flat {mr : Nat} (h : Describes m [data.length]) :
    Represents ⟨m, data, mr⟩ (Shaped.flat data) := ⟨h, rfl⟩

theorem describes_empty : Describes {} [] := ⟨sized_default, rfl, rfl, rfl⟩

/-- The default-constructed tensor is empty. -/
theorem represents_empty (mr : Nat) : Represents ({ resource := mr } : Tensor α) Shaped.empty := ⟨describes_empty, rfl⟩

variable {extents : List Nat}

theorem ofShape_represents (mr : Nat)
    (h : Describes m extents) (hnil : extents = [] → data = []) (hprod : extents ≠ [] → extents.prod = data.length) :
    ∃ x, Shaped.ofShape extents data = some x ∧ Represents ⟨m, data, mr⟩ x := by
  have hrank : extents.length ≤ kMaxRank := h.rank ▸ h.rank_le
  exact ⟨⟨extents, data, hrank, hnil, hprod⟩, dif_pos ⟨hrank, hnil, hprod⟩, h, rfl⟩

theorem ofShape_agrees {mr : Nat} (h : Describes m extents)
    (hne : extents ≠ []) (hprod : extents.prod = data.length) :
    Agrees x ⟨⟨m, data, mr⟩, false⟩ (Shaped.ofShape extents data) := by
  obtain ⟨y, hy, hr⟩ := ofShape_represents mr h (absurd · hne) fun _ => hprod
  rw [hy]
  exact .done hr

/-- New values in the shape there is. -/
theorem Represents.overwrite (h : Represents t x) {values : List α} (hlen : values.length = x.elements.length) :
    Agrees x ⟨{ t with data := values }, false⟩ (x.overwrite values) := by
  have hnil (hx : x.extents = []) : values = [] :=
    List.eq_nil_of_length_eq_zero (hlen.trans (by rw [x.elements_nil hx, List.length_nil]))
  obtain ⟨y, hy, hr⟩ := ofShape_represents t.resource h.describes hnil fun hne => (x.prod_extents hne).trans hlen.symm
  rw [Shaped.overwrite, hy]
  exact .done hr

/-! ### Products -/

theorem productFrom_eq {n k : Nat} (h : productFrom n extents = some k) :
    k = n * extents.prod := by
  induction extents generalizing n with
  | nil =>
    cases h
    exact (Nat.mul_one _).symm
  | cons e es ih =>
    rw [productFrom] at h
    split at h
    · cases h
    · rw [ih h, List.prod_cons, Nat.mul_assoc]

theorem prod_of_product {n : Nat} (h : product extents = some n) : extents.prod = n := by
  rw [productFrom_eq h, Nat.one_mul]

theorem product_nil : product [] = some 1 := rfl

/-! ### Append and removal -/

theorem Represents.flat_of_rank (h : Represents t x) (hrank : t.rank = 1) : x.extents = [x.elements.length] := by
  obtain ⟨e, he⟩ := List.length_eq_one_iff.mp (h.rank.symm.trans hrank)
  have hprod := x.prod_extents (he ▸ List.cons_ne_nil _ _)
  rw [he, List.prod_singleton] at hprod
  rw [he, hprod]

theorem describes_appended (h : Sized m) {count : Nat} (hrank : m.rank = 1)
    (hextents : m.extents.head? = some count) (hstrides : m.strides.head? = some 1) :
    Describes { m with extents := m.extents.modify 0 (· + 1) } [count + 1] :=
  describes_flat (m := { m with extents := m.extents.modify 0 (· + 1) })
    ⟨(List.length_modify ..).trans h.extents, h.strides⟩ hrank (head_modify _ hextents) hstrides

/-- The shape of rank 1 that an append starts from counts the elements there are. -/
theorem Represents.appended (h : Represents t x) (hsized : Sized m) (hrank : m.rank = 1)
    (hextents : m.extents.head? = some t.size) (hstrides : m.strides.head? = some 1) (value : α) :
    Represents
      { t with metaInfo := { m with extents := m.extents.modify 0 (· + 1) }, data := t.data ++ [value] }
      (Shaped.flat (x.elements ++ [value])) := by
  rw [← h.data]
  refine represents_flat ?_
  rw [List.length_append]
  exact describes_appended hsized hrank hextents hstrides

theorem Represents.size_of_rank_zero (h : Represents t x) (hrank : t.rank = 0) : t.size = 0 := by
  rw [h.size, x.elements_nil (h.rank_eq_zero.mp hrank), List.length_nil]

theorem Represents.head_of_rank_one (h : Represents t x) (hrank : t.rank = 1) :
    t.metaInfo.extents.head? = some t.size ∧ t.metaInfo.strides.head? = some 1 := by
  have hd := h.describes
  rw [h.flat_of_rank hrank] at hd
  rw [h.size]
  exact ⟨hd.extents_head, hd.strides_head⟩

theorem Represents.pushBackCopy (h : Represents t x) (value : α) :
    Represents (t.pushBackCopy value) (Shaped.flat (x.elements ++ [value])) := by
  -- the shape before the new element: one extent, which counts the elements
  suffices hm : ∀ m : ExtentsStore, Sized m → m.rank = 1 → m.extents.head? = some t.size →
      Represents
        { t with
          metaInfo := { m.recomputeStrides with extents := m.extents.modify 0 (· + 1) }
          data := t.data ++ [value] }
        (Shaped.flat (x.elements ++ [value])) by
    have hsized := h.describes.sized
    rcases Nat.lt_trichotomy t.rank 1 with hrank | hrank | hrank
    · have hzero : t.rank = 0 := Nat.lt_one_iff.mp hrank
      have := hm (t.metaInfo.setFlat 0) (hsized.setFlat 0) rfl
        (h.size_of_rank_zero hzero ▸ head_setFlat hsized 0)
      rwa [Tensor.pushBackCopy, if_neg (Nat.not_lt.mpr (Nat.le_of_lt hrank)), if_pos hzero]
    · have := hm t.metaInfo hsized hrank (h.head_of_rank_one hrank).1
      rwa [Tensor.pushBackCopy, if_neg (hrank ▸ Nat.lt_irrefl 1), if_neg (hrank ▸ Nat.one_ne_zero)]
    · have := hm { t.metaInfo with rank := 1, extents := t.size :: (t.metaInfo.extents.drop 1).map fun _ => 0 }
        ⟨by rw [List.length_cons, List.length_map, List.length_drop, hsized.extents, kMaxRank], hsized.strides⟩ rfl rfl
      rwa [Tensor.pushBackCopy, if_pos hrank]
  intro m hsized hrank hextents
  have hd := describes_recomputeStrides hsized (hrank ▸ Nat.succ_le_succ (Nat.zero_le 7))
  rw [hrank, take_one hextents] at hd
  exact h.appended hd.sized hrank hextents hd.strides_head value

/-- The overload for temporaries keeps the stride that was in the first entry. -/
theorem Represents.pushBackMove (h : Represents t x) (hstrides : t.metaInfo.strides.head? = some 1) (value : α) :
    Represents (t.pushBackMove value) (Shaped.flat (x.elements ++ [value])) := by
  have hsized := h.describes.sized
  rcases Nat.lt_trichotomy t.rank 1 with hrank | hrank | hrank
  · have hzero : t.rank = 0 := Nat.lt_one_iff.mp hrank
    have := h.appended (hsized.setFlat 0) rfl (h.size_of_rank_zero hzero ▸ head_setFlat hsized 0) hstrides value
    rwa [Tensor.pushBackMove, if_neg (Nat.not_lt.mpr (Nat.le_of_lt hrank)), if_pos hzero]
  · have := h.appended hsized hrank (h.head_of_rank_one hrank).1 hstrides value
    rwa [Tensor.pushBackMove, if_neg (hrank ▸ Nat.lt_irrefl 1), if_neg (hrank ▸ Nat.one_ne_zero)]
  · have := h.appended (hsized.setFlat t.size) rfl (head_setFlat hsized t.size) hstrides value
    rwa [Tensor.pushBackMove, if_pos hrank]

theorem Represents.emplaceBack (h : Represents t x) (hrank : t.rank = 1) (value : α) :
    Represents (t.emplaceBack value) (Shaped.flat (x.elements ++ [value])) := by
  obtain ⟨hextents, hstrides⟩ := h.head_of_rank_one hrank
  have := h.appended h.describes.sized hrank hextents hstrides value
  rwa [Tensor.emplaceBack, if_neg (hrank ▸ Nat.lt_irrefl 1), if_neg (hrank ▸ Nat.one_ne_zero)]

/-- At rank 1 the extents may be replaced alone. -/
theorem describes_replaced {count count' : Nat} (h : Describes m [count])
    (hlen : extents.length = kMaxRank) (hextents : extents.head? = some count') :
    Describes { m with extents := extents } [count'] :=
  describes_flat (m := { m with extents := extents }) ⟨hlen, h.sized.strides⟩ h.rank hextents h.strides_head

/-- Counting one element less, a flat shape with all its extents zeroed once it is empty. -/
theorem describes_removed {count : Nat} (h : Describes m [count + 1]) :
    Describes
      { m with
        extents :=
          let extents := m.extents.modify 0 decremented
          if extents.head? = some 0 then extents.map fun _ => 0 else extents }
      [count] := by
  have hhead : (m.extents.modify 0 decremented).head? = some count := head_modify _ h.extents_head
  have hlen : (m.extents.modify 0 decremented).length = kMaxRank := (List.length_modify ..).trans h.sized.extents
  by_cases hzero : count = 0
  · subst hzero
    simp only [if_pos hhead]
    refine describes_replaced h ((List.length_map ..).trans hlen) ?_
    rw [List.head?_map, hhead]
    rfl
  · have hne : (m.extents.modify 0 decremented).head? ≠ some 0 := fun hz => hzero (Option.some.inj (hhead.symm.trans hz))
    simp only [if_neg hne]
    exact describes_replaced h hlen hhead

theorem Represents.popBack [Inhabited α] (h : Represents t x) (hrank : t.data ≠ [] → t.rank ≤ 1) :
    Agrees x t.popBack (x.modify .popBack) := by
  rw [Shaped.modify, Tensor.popBack, ← h.data]
  by_cases hnil : t.data = []
  · rw [if_pos hnil, if_pos hnil]
    exact .refused h
  · have hone : t.rank = 1 := by
      have hne : t.rank ≠ 0 := fun hzero => hnil (h.data.trans (x.elements_nil (h.rank_eq_zero.mp hzero)))
      have := hrank hnil
      omega
    rw [if_neg hnil, if_neg hnil, if_pos (hrank hnil)]
    simp only [if_pos hone]
    refine .done (represents_flat ?_)
    have hd := h.describes
    have hlen : x.elements.length = t.data.dropLast.length + 1 := by
      rw [← h.data, List.length_dropLast, Nat.sub_add_cancel (List.length_pos_iff.mpr hnil)]
    rw [h.flat_of_rank hone, hlen] at hd
    exact describes_removed hd

/-! ### Assignment -/

theorem Represents.setRange (h : Represents t x) (values : List α) :
    Agrees x (t.setRange values) (x.assign values) := by
  rw [Tensor.setRange, Shaped.assign]
  by_cases hrank : t.rank = 0
  · rw [if_pos hrank, if_pos (h.rank_eq_zero.mp hrank)]
    exact .done (represents_flat (describes_setFlat_recomputeStrides h.describes.sized _))
  · have hne := mt h.rank_eq_zero.mpr hrank
    rw [if_neg hrank, if_neg hne, h.size]
    by_cases hlen : values.length = x.elements.length
    · rw [if_neg (not_not_intro hlen)]
      exact h.overwrite hlen
    · rw [if_pos hlen, Shaped.overwrite_eq_none hne hlen]
      exact .refused h

/-- Beside the strides of a first shape, `assign` is the assignment. -/
theorem Represents.assignRange (h : Represents t x) (hstrides : t.rank = 0 → t.metaInfo.strides.head? = some 1)
    (values : List α) : Agrees x (t.assignRange values) (x.assign values) := by
  by_cases hrank : t.rank = 0
  · have hnil := h.rank_eq_zero.mp hrank
    rw [Tensor.assignRange, Shaped.assign, if_pos hnil, if_pos (h.extents.trans hnil)]
    exact .done (represents_flat (describes_setFlat h.describes.sized _ (hstrides hrank)))
  · have hne : t.extents ≠ [] := fun hnil => hrank (h.rank_eq_zero.mpr (h.extents.symm.trans hnil))
    have := h.setRange values
    rw [Tensor.setRange, if_neg hrank] at this
    rwa [Tensor.assignRange, if_neg hne]

theorem Represents.assignCount (h : Represents t x) (count : Nat) (value : α) :
    Represents (t.assignCount count value) (Shaped.flat (List.replicate count value)) := by
  refine represents_flat ?_
  rw [List.length_replicate]
  exact describes_setFlat_recomputeStrides h.describes.sized count

theorem Represents.setValue (h : Represents t x) (value : α) :
    Agrees x ⟨t.setValue value, false⟩ (x.overwrite (x.elements.map fun _ => value)) := by
  rw [Tensor.setValue, h.data]
  exact h.overwrite (List.length_map ..)

/-! ### New shapes -/

theorem Represents.clear (h : Represents t x) : Represents t.clear (Shaped.empty : Shaped α) :=
  ⟨⟨⟨(List.length_map ..).trans h.describes.sized.extents, h.describes.sized.strides⟩, rfl, rfl, rfl⟩, rfl⟩

theorem Represents.resize [Inhabited α] (h : Represents t x) {newExtents : List Nat} (hrank : newExtents.length ≤ kMaxRank)
    (hsame : product newExtents = none → newExtents.length = t.rank) (value : α) :
    Agrees x (t.resize newExtents value) (x.modify (.resize newExtents value)) := by
  rw [Tensor.resize, Shaped.modify]
  by_cases hnil : newExtents = []
  · rw [if_pos hnil, if_pos hnil]
    exact .done h.clear
  · rw [if_neg hnil, if_neg hnil]
    cases hprod : product newExtents with
    | none =>
      -- the rank that was written is the rank there was
      simp only [hsame hprod]
      exact .refused h
    | some n =>
      refine ofShape_agrees (describes_setExtents h.describes.sized hrank) hnil ?_
      rw [List.length_replicate, prod_of_product hprod]

theorem length_resized [Inhabited α] (data : List α) (newSize : Nat) : (resized data newSize).length = newSize := by
  rw [resized, List.length_append, List.length_take, List.length_replicate]
  omega

theorem Represents.resizeDim [Inhabited α] (h : Represents t x) {dim newExtent : Nat}
    (hprod : dim < t.rank → t.extents[dim]? ≠ some newExtent → product (t.extents.set dim newExtent) ≠ none) :
    Agrees x (t.resizeDim dim newExtent) (x.modify (.resizeDim dim newExtent)) := by
  rw [Tensor.resizeDim, Shaped.modify, ← h.rank]
  by_cases hdim : dim < t.rank
  · have hentry : t.metaInfo.extents[dim]? = x.extents[dim]? := by
      rw [← h.extents, Tensor.extents, List.getElem?_take_of_lt hdim]
    have htake : (t.metaInfo.extents.set dim newExtent).take t.rank = x.extents.set dim newExtent := by
      rw [List.take_set, ← h.extents, Tensor.extents]
    rw [if_neg (Nat.not_le.mpr hdim), if_pos hdim, hentry]
    by_cases hsame : x.extents[dim]? = some newExtent
    · rw [if_pos hsame, if_pos hsame]
      exact .done h
    · rw [if_neg hsame, if_neg hsame]
      have hsized : Sized { t.metaInfo with extents := t.metaInfo.extents.set dim newExtent } :=
        ⟨(List.length_set ..).trans h.describes.sized.extents, h.describes.sized.strides⟩
      have hdescribes : Describes
          ({ t.metaInfo with extents := t.metaInfo.extents.set dim newExtent } : ExtentsStore).recomputeStrides
          (x.extents.set dim newExtent) := htake ▸ describes_recomputeStrides hsized h.describes.rank_le
      simp only [show (List.take t.metaInfo.rank (t.metaInfo.extents.set dim newExtent)) = _ from htake]
      rw [h.extents] at hprod
      cases hp : product (x.extents.set dim newExtent) with
      | none => exact absurd hp (hprod hdim hsame)
      | some n =>
        rw [h.data]
        refine ofShape_agrees hdescribes ?_ ?_
        · rw [Ne, ← List.length_eq_zero_iff, List.length_set, ← h.rank]
          omega
        · rw [length_resized, prod_of_product hp]
  · rw [if_pos (Nat.not_lt.mp hdim), if_neg hdim]
    exact .refused h

theorem Represents.reshape [Inhabited α] (h : Represents t x) {newExtents : List Nat}
    (hshape : product newExtents = some t.size → newExtents ≠ [] ∧ newExtents.length ≤ kMaxRank) :
    Agrees x (t.reshape newExtents) (x.modify (.reshape newExtents)) := by
  rw [Tensor.reshape, Shaped.modify, ← h.size]
  by_cases hprod : product newExtents = some t.size
  · obtain ⟨hne, hrank⟩ := hshape hprod
    rw [if_pos hprod, if_pos hprod, ← h.data]
    exact ofShape_agrees (describes_setExtents h.describes.sized hrank) hne (prod_of_product hprod)
  · rw [if_neg hprod, if_neg hprod]
    exact .refused h

/-! ### Construction -/

/-- What a constructor agrees with. -/
inductive Constructs : Option (Tensor α) → Option (Shaped α) → Prop
  | done {t : Tensor α} {y : Shaped α} (h : Represents t y) : Constructs (some t) (some y)
  | refused : Constructs none none

theorem withExtents_constructs (mr : Nat) (hrank : extents.length ≤ kMaxRank)
    (hnil : extents = [] → data = []) (hprod : extents ≠ [] → extents.prod = data.length) :
    Constructs (some (withExtents extents data mr)) (Shaped.ofShape extents data) := by
  obtain ⟨y, hy, hr⟩ := ofShape_represents mr (describes_setExtents sized_default hrank) hnil hprod
  rw [hy]
  exact .done hr

theorem ofShape_eq_none (hrank : kMaxRank < extents.length) :
    Shaped.ofShape extents data = none := dif_neg fun h => absurd h.1 (Nat.not_le.mpr hrank)

theorem flat_constructs {count : Nat} (hcount : count = data.length) (mr : Nat) :
    Constructs
      (some { metaInfo := (ExtentsStore.setFlat {} count).recomputeStrides, data := data, resource := mr })
      (some (Shaped.flat data)) := by
  subst hcount
  exact .done (represents_flat (describes_setFlat_recomputeStrides sized_default _))

theorem copied_constructs (other : Source α) (mr : Nat) :
    Constructs
      (if other.extents.length > kMaxRank then none else some (withExtents other.extents other.elements mr))
      (Shaped.ofShape other.extents other.elements) := by
  by_cases hrank : other.extents.length > kMaxRank
  · rw [if_pos hrank, ofShape_eq_none hrank]
    exact .refused
  · rw [if_neg hrank]
    exact withExtents_constructs mr (Nat.not_lt.mp hrank) other.elements_nil other.prod_extents

/-- The copied strides are the ones that would be computed. -/
theorem describes_copied {shape : List Nat} (hrank : shape.length ≤ kMaxRank) :
    Describes
      { rank := shape.length
        extents := copy shape (List.replicate kMaxRank 0)
        strides := copy (rowMajor shape) (List.replicate kMaxRank 0) }
      shape where
  sized := by
    have hlen {values : List Nat} (h : values.length ≤ kMaxRank) :
        (copy values (List.replicate kMaxRank 0)).length = kMaxRank :=
      (length_copy (Nat.le_trans h (Nat.le_of_eq List.length_replicate.symm))).trans List.length_replicate
    exact ⟨hlen hrank, hlen (Nat.le_trans (Nat.le_of_eq (length_rowMajor shape)) hrank)⟩
  rank := rfl
  extents := take_copy shape _
  strides := by
    have := take_copy (rowMajor shape) (List.replicate kMaxRank 0)
    rwa [length_rowMajor] at this

theorem construct_agrees [Inhabited α] {c : Construct α} (hc : c.Keeps) :
    Constructs (construct c) (Shaped.construct c) := by
  cases c with
  | default mr | value v mr => exact .done (represents_empty mr)
  | extentsFrom extents mr =>
    rw [construct, Shaped.construct, if_neg hc]
    by_cases hrank : extents.length > kMaxRank
    · have hnone : ((product extents).bind fun n => Shaped.ofShape extents (List.replicate n (default : α))) = none :=
        Option.bind_eq_none_iff.mpr fun n _ => ofShape_eq_none hrank
      rw [if_pos hrank, hnone]
      exact .refused
    · rw [if_neg hrank]
      cases hprod : product extents with
      | none => exact .refused
      | some n =>
        refine withExtents_constructs mr (Nat.not_lt.mp hrank) (absurd · hc) fun _ => ?_
        rw [prod_of_product hprod, List.length_replicate]
  | dataFrom values mr => exact flat_constructs rfl mr
  | countValue count value mr => exact flat_constructs List.length_replicate.symm mr
  | extentsAndData extents data mr =>
    rw [construct, Shaped.construct]
    by_cases hprod : product extents = some data.length
    · rw [if_pos hprod, if_pos hprod]
      by_cases hrank : extents.length > kMaxRank
      · rw [if_pos hrank, ofShape_eq_none hrank]
        exact .refused
      · rw [if_neg hrank]
        refine withExtents_constructs mr (Nat.not_lt.mp hrank) (fun hnil => ?_) fun _ => prod_of_product hprod
        subst hnil
        exact absurd (Option.some.inj hprod).symm (hc rfl)
    · rw [if_neg hprod, if_neg hprod, ite_self]
      exact .refused
  | convertedCopy other mr => exact copied_constructs other mr
  | convertedMove other mr =>
    obtain ⟨y, hy, hr⟩ := ofShape_represents mr (describes_copied hc) other.elements_nil other.prod_extents
    rw [Shaped.construct, hy]
    exact .done hr

theorem Represents.setConverted [Inhabited α] (h : Represents t x) (other : Source α) :
    Agrees x (t.setConverted other) (Shaped.ofShape other.extents other.elements) := by
  have hc : Constructs (construct (.convertedCopy other t.resource)) (Shaped.ofShape other.extents other.elements) :=
    copied_constructs other t.resource
  rw [Tensor.setConverted]
  generalize construct (.convertedCopy other t.resource) = made at hc ⊢
  generalize Shaped.ofShape other.extents other.elements = asked at hc ⊢
  cases hc with
  | done hr => exact .done hr
  | refused => exact .refused h

/-- Each operation on one tensor does what it does to the list. -/
theorem Represents.modify [Inhabited α] (h : Represents t x) {m : Modify α} (hm : m.Keeps t) :
    Agrees x (t.modify m) (x.modify m) := by
  cases m with
  | pushBackCopy value => exact .done (h.pushBackCopy value)
  | pushBackMove value => exact .done (h.pushBackMove hm value)
  | emplaceBack value => exact .done (h.emplaceBack hm value)
  | popBack => exact h.popBack hm
  | assignRange values => exact h.assignRange hm values
  | assignCount count value => exact .done (h.assignCount count value)
  | setValue value => exact h.setValue value
  | setRange values | setList values => exact h.setRange values
  | setConverted other => exact h.setConverted other
  | resize newExtents value => exact h.resize hm.1 hm.2 value
  | resizeDim dim newExtent => exact h.resizeDim hm
  | reshape newExtents => exact h.reshape hm
  | clear => exact .done h.clear
  | reserve _ | shrinkToFit => exact .done h

end Tensor

end GnuRadio
