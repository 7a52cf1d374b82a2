import GnuRadio.Buffer.HistoryBuffer

/-! A history buffer is a list of bounded length. The elements lie in the primary half from the write position on. The
    mirror holds each of them that is not counted as dirty, except near the end of the ring, where no view needs it:
    a view that starts behind an element reaches its mirror only if the element lies below the last place of the
    capacity. -/

namespace GnuRadio.HistoryBuffer

open Copies

variable {α : Type} {N : Extent} {b : HistoryBuffer α} {h : History α}

/-! ### Positions -/

/-- A position past the end of the ring is at its start. -/
def wrap (rc position : Nat) : Nat := if position < rc then position else position - rc

theorem wrap_cases (rc position : Nat) :
    position < rc ∧ wrap rc position = position ∨ rc ≤ position ∧ wrap rc position = position - rc := by
  unfold wrap
  split
  case isTrue hlt => exact Or.inl ⟨hlt, rfl⟩
  case isFalse hge => exact Or.inr ⟨Nat.le_of_not_lt hge, rfl⟩

theorem mod_eq_wrap {rc position : Nat} (h : position < rc + rc) : position % rc = wrap rc position := by
  unfold wrap
  split
  · exact Nat.mod_eq_of_lt ‹_›
  · rw [Nat.mod_eq_sub_mod (by omega), Nat.mod_eq_of_lt (by omega)]

theorem le_bitCeil (n : Nat) : n ≤ bitCeil n := Nat.le_pow_clog (by decide) n

theorem bitCeil_pos (n : Nat) : 0 < bitCeil n := Nat.two_pow_pos _

/-- The size of a dynamic ring is a power of two. -/
def Shape (N : Extent) (b : HistoryBuffer α) : Prop :=
  match N with
  | .dynamic => ∃ k, b.ringMask + 1 = 2 ^ k
  | .fixed n => 0 < n

theorem Shape.mapIndex (hs : Shape N b) (index : Nat) :
    b.mapIndex N index = (b.writePosition + index) % b.ringCapacity N := by
  cases N with
  | dynamic =>
    obtain ⟨k, hk⟩ := hs
    have hmask : b.ringMask = 2 ^ k - 1 := by omega
    rw [HistoryBuffer.mapIndex, ringCapacity, hk, hmask, Nat.and_two_pow_sub_one_eq_mod]
  | fixed n =>
    exact calculateIndex_eq_mod n _

/-! ### The list that a buffer stands for -/

structure Represents (N : Extent) (b : HistoryBuffer α) (h : History α) : Prop where
  shape : Shape N b
  capacity : b.capacity = h.capacity
  capacity_pos : 0 < b.capacity
  capacity_le : b.capacity ≤ b.ringCapacity N
  length : b.buffer.length = b.ringCapacity N * 2
  position_lt : b.writePosition < b.ringCapacity N
  dirty_le : b.mirrorDirtyCount ≤ b.ringCapacity N
  size : b.size = h.elements.length
  size_le : b.size ≤ b.capacity
  primary : ∀ i x, h.elements[i]? = some x → b.buffer[wrap (b.ringCapacity N) (b.writePosition + i)]? = some x
  mirror : ∀ i x, h.elements[i]? = some x → b.mirrorDirtyCount ≤ i →
    wrap (b.ringCapacity N) (b.writePosition + i) + 1 < b.capacity →
    b.buffer[wrap (b.ringCapacity N) (b.writePosition + i) + b.ringCapacity N]? = some x

namespace Represents

theorem mapIndex (hr : Represents N b h) {index : Nat} (hi : index ≤ b.ringCapacity N) :
    b.mapIndex N index = wrap (b.ringCapacity N) (b.writePosition + index) := by
  have := hr.position_lt
  rw [hr.shape.mapIndex, mod_eq_wrap (by omega)]

theorem lt_size (hr : Represents N b h) {i : Nat} {x : α} (hx : h.elements[i]? = some x) : i < b.size := by
  rw [hr.size]
  exact (List.getElem?_eq_some_iff.mp hx).1

theorem get_eq (hr : Represents N b h) {i : Nat} (hi : i < b.size) : b.get N i = h.elements[i]? := by
  have hle := hr.size_le
  have hcap := hr.capacity_le
  rw [HistoryBuffer.get, hr.mapIndex (by omega)]
  rw [hr.size] at hi
  rw [List.getElem?_eq_getElem hi]
  exact hr.primary i _ (List.getElem?_eq_getElem hi)

/-! #### The mirror -/

/-- What the copies to the mirror leave in it. -/
theorem syncMirror_buffer (hr : Represents N b h) {k : Nat} :
    (b.syncMirror N).buffer[k]? =
      if k < b.ringCapacity N then b.buffer[k]?
      else if ∃ i < b.mirrorDirtyCount, k = wrap (b.ringCapacity N) (b.writePosition + i) + b.ringCapacity N then
        b.buffer[k - b.ringCapacity N]?
      else b.buffer[k]? := by
  have hpos := hr.position_lt
  have hdirty := hr.dirty_le
  have hlen := hr.length
  unfold HistoryBuffer.syncMirror
  split
  case isTrue hzero =>
    rw [if_neg (fun ⟨i, hi, _⟩ => by omega : ¬ ∃ i < b.mirrorDirtyCount, _), ite_self]
  case isFalse =>
    dsimp only
    split
    case isTrue hle =>
      rw [getElem?_copyWithin (by omega) (by omega)]
      by_cases hk : k < b.ringCapacity N
      · rw [if_pos hk, if_neg (by omega)]
      · rw [if_neg hk]
        by_cases hin : b.writePosition + b.ringCapacity N ≤ k ∧
            k < b.writePosition + b.ringCapacity N + b.mirrorDirtyCount
        · rw [if_pos hin, if_pos]
          · congr 1
            omega
          · refine ⟨k - b.ringCapacity N - b.writePosition, by omega, ?_⟩
            rw [wrap, if_pos (by omega)]
            omega
        · rw [if_neg hin, if_neg]
          rintro ⟨i, hi, hki⟩
          rw [wrap, if_pos (by omega)] at hki
          omega
    case isFalse hgt =>
      have hlen1 : (copyWithin b.buffer b.writePosition (b.ringCapacity N - b.writePosition)
          (b.writePosition + b.ringCapacity N)).length = b.buffer.length := length_copyWithin (by omega) (by omega)
      rw [getElem?_copyWithin (by omega) (by omega), getElem?_copyWithin (by omega) (by omega),
        getElem?_copyWithin (by omega) (by omega)]
      by_cases hk : k < b.ringCapacity N
      · rw [if_pos hk, if_neg (by omega), if_neg (by omega)]
      · rw [if_neg hk]
        by_cases hsecond : k < b.ringCapacity N + (b.mirrorDirtyCount - (b.ringCapacity N - b.writePosition))
        · rw [if_pos ⟨by omega, hsecond⟩, if_neg (by omega), if_pos]
          · congr 1
            omega
          · refine ⟨k - b.writePosition, by omega, ?_⟩
            rw [wrap, if_neg (by omega)]
            omega
        · rw [if_neg (by omega)]
          by_cases hfirst : b.writePosition + b.ringCapacity N ≤ k ∧ k < b.ringCapacity N + b.ringCapacity N
          · rw [if_pos (by omega), if_pos]
            · congr 1
              omega
            · refine ⟨k - b.ringCapacity N - b.writePosition, by omega, ?_⟩
              rw [wrap, if_pos (by omega)]
              omega
          · rw [if_neg (by omega), if_neg]
            rintro ⟨i, hi, hki⟩
            have hplace := wrap_cases (b.ringCapacity N) (b.writePosition + i)
            omega

theorem syncMirror_ringCapacity : (b.syncMirror N).ringCapacity N = b.ringCapacity N := by
  unfold HistoryBuffer.syncMirror
  split <;> cases N <;> rfl

theorem syncMirror_fields : (b.syncMirror N).capacity = b.capacity ∧
    (b.syncMirror N).writePosition = b.writePosition ∧ (b.syncMirror N).size = b.size ∧
    (b.syncMirror N).mirrorDirtyCount = 0 ∧ (b.syncMirror N).ringMask = b.ringMask := by
  unfold HistoryBuffer.syncMirror
  split
  case isTrue hzero => exact ⟨rfl, rfl, rfl, hzero, rfl⟩
  case isFalse => exact ⟨rfl, rfl, rfl, rfl, rfl⟩

theorem syncMirror_length (hr : Represents N b h) : (b.syncMirror N).buffer.length = b.buffer.length := by
  have hpos := hr.position_lt
  have hdirty := hr.dirty_le
  have hlen := hr.length
  unfold HistoryBuffer.syncMirror
  split
  · rfl
  · dsimp only
    split
    · exact length_copyWithin (by omega) (by omega)
    · have hlen1 : (copyWithin b.buffer b.writePosition (b.ringCapacity N - b.writePosition)
          (b.writePosition + b.ringCapacity N)).length = b.buffer.length := length_copyWithin (by omega) (by omega)
      rw [length_copyWithin (by omega) (by omega), hlen1]

/-- A call of a view completes the mirror. -/
theorem syncMirror (hr : Represents N b h) : Represents N (b.syncMirror N) h := by
  obtain ⟨hcapacity, hposition, hsize, hdirty, hmask⟩ := syncMirror_fields (N := N) (b := b)
  have hrc : (b.syncMirror N).ringCapacity N = b.ringCapacity N := syncMirror_ringCapacity
  have hpos := hr.position_lt
  have hle := hr.size_le
  have hcap := hr.capacity_le
  refine ⟨?_, hcapacity.trans hr.capacity, hcapacity ▸ hr.capacity_pos, by rw [hcapacity, hrc]; exact hcap,
    by rw [hr.syncMirror_length, hrc]; exact hr.length, by rw [hposition, hrc]; exact hpos, by rw [hdirty]; exact Nat.zero_le _,
    hsize.trans hr.size, by rw [hsize, hcapacity]; exact hle, fun i x hx => ?_, fun i x hx _ hplace => ?_⟩
  · have hshape := hr.shape
    unfold Shape at hshape ⊢
    rwa [hmask]
  · have hi := hr.lt_size hx
    have hplace := wrap_cases (b.ringCapacity N) (b.writePosition + i)
    rw [hrc, hposition, hr.syncMirror_buffer, if_pos (by omega)]
    exact hr.primary i x hx
  · have hi := hr.lt_size hx
    rw [hrc, hposition, hcapacity] at hplace
    rw [hrc, hposition, hr.syncMirror_buffer, if_neg (by omega)]
    by_cases hdirty : i < b.mirrorDirtyCount
    · rw [if_pos ⟨i, hdirty, rfl⟩, Nat.add_sub_cancel]
      exact hr.primary i x hx
    · rw [if_neg]
      · exact hr.mirror i x hx (Nat.le_of_not_lt hdirty) hplace
      · rintro ⟨j, hj, heq⟩
        have hdirtyLe := hr.dirty_le
        have hi' := wrap_cases (b.ringCapacity N) (b.writePosition + i)
        have hj' := wrap_cases (b.ringCapacity N) (b.writePosition + j)
        omega

/-! #### The views -/

/-- From the place of an element on, the buffer shows the elements that follow it. -/
theorem getElem?_view (hr : Represents N b h) (hsynced : b.mirrorDirtyCount = 0) {i k : Nat} (hik : i + k < b.size) :
    b.buffer[wrap (b.ringCapacity N) (b.writePosition + i) + k]? = h.elements[i + k]? := by
  have hpos := hr.position_lt
  have hle := hr.size_le
  have hcap := hr.capacity_le
  obtain ⟨x, hx⟩ : ∃ x, h.elements[i + k]? = some x := ⟨_, List.getElem?_eq_getElem (hr.size ▸ hik)⟩
  rw [hx]
  have hfirst := wrap_cases (b.ringCapacity N) (b.writePosition + i)
  have hplace := wrap_cases (b.ringCapacity N) (b.writePosition + (i + k))
  by_cases hin : wrap (b.ringCapacity N) (b.writePosition + i) + k < b.ringCapacity N
  · have hprimary : wrap (b.ringCapacity N) (b.writePosition + i) + k =
        wrap (b.ringCapacity N) (b.writePosition + (i + k)) := by omega
    rw [hprimary]
    exact hr.primary _ x hx
  · have hmirror : wrap (b.ringCapacity N) (b.writePosition + i) + k =
        wrap (b.ringCapacity N) (b.writePosition + (i + k)) + b.ringCapacity N := by omega
    rw [hmirror]
    exact hr.mirror _ x hx (by omega) (by omega)

/-- A view is the part of the list that it asks for. -/
theorem view_eq (hr : Represents N b h) (hsynced : b.mirrorDirtyCount = 0) {index n : Nat} (hn : index + n ≤ b.size) :
    (b.buffer.drop (wrap (b.ringCapacity N) (b.writePosition + index))).take n = (h.elements.drop index).take n := by
  refine List.ext_getElem? fun k => ?_
  by_cases hk : k < n
  · rw [List.getElem?_take_of_lt hk, List.getElem?_take_of_lt hk, List.getElem?_drop, List.getElem?_drop]
    exact hr.getElem?_view hsynced (by omega)
  · rw [List.getElem?_take_eq_none (Nat.le_of_not_lt hk), List.getElem?_take_eq_none (Nat.le_of_not_lt hk)]

theorem getSpan_eq (hr : Represents N b h) {index : Nat} (hi : index ≤ b.size) (length : Nat) :
    b.getSpan N index length = (h.elements.drop index).take length := by
  have hs := hr.syncMirror
  have hle := hs.size_le
  have hcap := hs.capacity_le
  obtain ⟨-, -, hsize, hdirty, -⟩ := syncMirror_fields (N := N) (b := b)
  have hi' : index ≤ (b.syncMirror N).size := by rw [hsize]; exact hi
  simp only [HistoryBuffer.getSpan]
  rw [if_pos hi', hs.mapIndex (by omega), hs.view_eq hdirty (by omega), hs.size, ← List.length_drop,
    ← List.take_take, List.take_of_length_le (by rw [List.length_take]; exact Nat.min_le_right ..)]

theorem range_eq (hr : Represents N b h) : b.range N = h.elements := by
  have hs := hr.syncMirror
  have hpos := hs.position_lt
  obtain ⟨-, -, -, hdirty, -⟩ := syncMirror_fields (N := N) (b := b)
  have hview := hs.view_eq hdirty (Nat.le_of_eq (Nat.zero_add (b.syncMirror N).size))
  rw [wrap, if_pos (by omega), Nat.add_zero, List.drop_zero, hs.size, List.take_of_length_le (Nat.le_refl _)] at hview
  rw [HistoryBuffer.range, hs.size]
  exact hview

/-! #### The calls -/

/-- The first elements leave. -/
theorem advance (hr : Represents N b h) {n : Nat} (hn : n ≤ b.size) :
    Represents N { b with
      writePosition := b.mapIndex N n
      size := b.size - n
      mirrorDirtyCount := b.mirrorDirtyCount - n } { h with elements := h.elements.drop n } := by
  have hpos := hr.position_lt
  have hle := hr.size_le
  have hcap := hr.capacity_le
  have hdirty := hr.dirty_le
  have hmap := hr.mapIndex (show n ≤ b.ringCapacity N by omega)
  have hplace := wrap_cases (b.ringCapacity N) (b.writePosition + n)
  have hshift {i : Nat} (hi : n + i < b.size) :
      wrap (b.ringCapacity N) (b.mapIndex N n + i) = wrap (b.ringCapacity N) (b.writePosition + (n + i)) := by
    have hto := wrap_cases (b.ringCapacity N) (b.mapIndex N n + i)
    have hfrom := wrap_cases (b.ringCapacity N) (b.writePosition + (n + i))
    omega
  refine ⟨hr.shape, hr.capacity, hr.capacity_pos, hcap, hr.length, ?_, ?_, ?_, ?_, fun i x hx => ?_,
    fun i x hx hi hlast => ?_⟩
  · show b.mapIndex N n < b.ringCapacity N
    omega
  · show b.mirrorDirtyCount - n ≤ b.ringCapacity N
    omega
  · show b.size - n = (h.elements.drop n).length
    rw [List.length_drop, hr.size]
  · show b.size - n ≤ b.capacity
    omega
  · rw [List.getElem?_drop] at hx
    show b.buffer[wrap (b.ringCapacity N) (b.mapIndex N n + i)]? = some x
    rw [hshift (hr.lt_size hx)]
    exact hr.primary _ x hx
  · rw [List.getElem?_drop] at hx
    have hi : b.mirrorDirtyCount - n ≤ i := hi
    have hlast : wrap (b.ringCapacity N) (b.mapIndex N n + i) + 1 < b.capacity := hlast
    show b.buffer[wrap (b.ringCapacity N) (b.mapIndex N n + i) + b.ringCapacity N]? = some x
    rw [hshift (hr.lt_size hx)] at hlast ⊢
    exact hr.mirror _ x hx (by omega) hlast

/-- Values join at the end, in both halves. -/
theorem append (hr : Represents N b h) {values buffer : List α} (hroom : b.size + values.length ≤ b.capacity)
    (hlength : buffer.length = b.buffer.length)
    (hnew : ∀ j x, values[j]? = some x →
      buffer[wrap (b.ringCapacity N) (b.writePosition + (b.size + j))]? = some x ∧
      buffer[wrap (b.ringCapacity N) (b.writePosition + (b.size + j)) + b.ringCapacity N]? = some x)
    (hold : ∀ k, (∀ j < values.length, k ≠ wrap (b.ringCapacity N) (b.writePosition + (b.size + j)) ∧
      k ≠ wrap (b.ringCapacity N) (b.writePosition + (b.size + j)) + b.ringCapacity N) → buffer[k]? = b.buffer[k]?) :
    Represents N { b with size := b.size + values.length, buffer := buffer }
      { h with elements := h.elements ++ values } := by
  have hpos := hr.position_lt
  have hcap := hr.capacity_le
  -- the places of the old elements and of the new ones differ
  have hapart {i : Nat} (hi : i < b.size) (k : Nat)
      (hk : k = wrap (b.ringCapacity N) (b.writePosition + i) ∨
        k = wrap (b.ringCapacity N) (b.writePosition + i) + b.ringCapacity N) : buffer[k]? = b.buffer[k]? := by
    refine hold k fun j hj => ?_
    have hto := wrap_cases (b.ringCapacity N) (b.writePosition + i)
    have hfrom := wrap_cases (b.ringCapacity N) (b.writePosition + (b.size + j))
    omega
  refine ⟨hr.shape, hr.capacity, hr.capacity_pos, hcap, hlength.trans hr.length, hpos, hr.dirty_le, ?_, hroom,
    fun i x hx => ?_, fun i x hx hi hlast => ?_⟩
  · show b.size + values.length = (h.elements ++ values).length
    rw [List.length_append, hr.size]
  · show buffer[wrap (b.ringCapacity N) (b.writePosition + i)]? = some x
    by_cases hi : i < b.size
    · rw [List.getElem?_append_left (hr.size ▸ hi)] at hx
      rw [hapart hi _ (Or.inl rfl)]
      exact hr.primary i x hx
    · rw [List.getElem?_append_right (hr.size ▸ Nat.le_of_not_lt hi), ← hr.size] at hx
      have := (hnew _ x hx).1
      rwa [Nat.add_sub_cancel' (Nat.le_of_not_lt hi)] at this
  · show buffer[wrap (b.ringCapacity N) (b.writePosition + i) + b.ringCapacity N]? = some x
    by_cases hi' : i < b.size
    · rw [List.getElem?_append_left (hr.size ▸ hi')] at hx
      rw [hapart hi' _ (Or.inr rfl)]
      exact hr.mirror i x hx hi hlast
    · rw [List.getElem?_append_right (hr.size ▸ Nat.le_of_not_lt hi'), ← hr.size] at hx
      have := (hnew _ x hx).2
      rwa [Nat.add_sub_cancel' (Nat.le_of_not_lt hi')] at this

theorem pushFront (hr : Represents N b h) (value : α) :
    Represents N (b.pushFront N value) { h with elements := BoundedDeque.pushFront h.capacity h.elements value } := by
  have hpos := hr.position_lt
  have hle := hr.size_le
  have hcap := hr.capacity_le
  have hcapPos := hr.capacity_pos
  have hdirty := hr.dirty_le
  have hlen := hr.length
  have hmap := hr.mapIndex (Nat.sub_le (b.ringCapacity N) 1)
  have hplace := wrap_cases (b.ringCapacity N) (b.writePosition + (b.ringCapacity N - 1))
  have hshift {i : Nat} (hi : i + 1 < b.ringCapacity N) :
      wrap (b.ringCapacity N) (b.mapIndex N (b.ringCapacity N - 1) + (i + 1)) =
        wrap (b.ringCapacity N) (b.writePosition + i) ∧
      wrap (b.ringCapacity N) (b.writePosition + i) ≠ b.mapIndex N (b.ringCapacity N - 1) := by
    have hto := wrap_cases (b.ringCapacity N) (b.mapIndex N (b.ringCapacity N - 1) + (i + 1))
    have hfrom := wrap_cases (b.ringCapacity N) (b.writePosition + i)
    omega
  have hget {i : Nat} {x : α} (hx : (BoundedDeque.pushFront h.capacity h.elements value)[i + 1]? = some x) :
      h.elements[i]? = some x ∧ i + 1 < b.ringCapacity N := by
    have hi : i + 1 < h.capacity := by
      have := (List.getElem?_eq_some_iff.mp hx).1
      rw [BoundedDeque.pushFront, List.length_take] at this
      omega
    rw [BoundedDeque.pushFront, List.getElem?_take_of_lt hi] at hx
    exact ⟨hx, by rw [← hr.capacity] at hi; omega⟩
  refine ⟨hr.shape, hr.capacity, hcapPos, hcap, ?_, ?_, ?_, ?_, ?_, fun i x hx => ?_, fun i x hx hi hlast => ?_⟩
  · show (b.buffer.set _ value).length = _
    rw [List.length_set]
    exact hlen
  · show b.mapIndex N (b.ringCapacity N - 1) < b.ringCapacity N
    omega
  · show (if b.mirrorDirtyCount < b.ringCapacity N then b.mirrorDirtyCount + 1 else b.mirrorDirtyCount) ≤ b.ringCapacity N
    split <;> omega
  · show (if b.size < b.capacity then b.size + 1 else b.size) = _
    rw [BoundedDeque.length_pushFront (by rw [← hr.size, ← hr.capacity]; exact hle), hr.size, hr.capacity]
  · show (if b.size < b.capacity then b.size + 1 else b.size) ≤ b.capacity
    split <;> omega
  · show (b.buffer.set (b.mapIndex N (b.ringCapacity N - 1)) value)[wrap (b.ringCapacity N)
      (b.mapIndex N (b.ringCapacity N - 1) + i)]? = some x
    cases i with
    | zero =>
      have hzero : x = value := by
        obtain ⟨n, hn⟩ := Nat.exists_eq_succ_of_ne_zero (Nat.ne_of_gt (hr.capacity ▸ hcapPos))
        rw [BoundedDeque.pushFront, hn, List.take_succ_cons, List.getElem?_cons_zero] at hx
        exact (Option.some.inj hx).symm
      rw [Nat.add_zero, wrap, if_pos (by omega), List.getElem?_set_self (by omega), hzero]
    | succ i =>
      obtain ⟨hx, hi⟩ := hget hx
      rw [(hshift hi).1, List.getElem?_set_ne (hshift hi).2.symm]
      exact hr.primary i x hx
  · have hi : (if b.mirrorDirtyCount < b.ringCapacity N then b.mirrorDirtyCount + 1 else b.mirrorDirtyCount) ≤ i := hi
    have hlast : wrap (b.ringCapacity N) (b.mapIndex N (b.ringCapacity N - 1) + i) + 1 < b.capacity := hlast
    show (b.buffer.set (b.mapIndex N (b.ringCapacity N - 1)) value)[wrap (b.ringCapacity N)
      (b.mapIndex N (b.ringCapacity N - 1) + i) + b.ringCapacity N]? = some x
    cases i with
    | zero => split at hi <;> omega
    | succ i =>
      obtain ⟨hx, hi'⟩ := hget hx
      rw [(hshift hi').1] at hlast ⊢
      rw [List.getElem?_set_ne (by omega)]
      refine hr.mirror i x hx ?_ hlast
      split at hi <;> omega

theorem pushFront_foldl (hr : Represents N b h) (values : List α) :
    Represents N (values.foldl (HistoryBuffer.pushFront N) b)
      { h with elements := values.foldl (BoundedDeque.pushFront h.capacity) h.elements } := by
  induction values generalizing b h with
  | nil => exact hr
  | cons value values ih => exact ih (hr.pushFront value)

theorem length_le (hr : Represents N b h) : h.elements.length ≤ h.capacity := by
  rw [← hr.size, ← hr.capacity]
  exact hr.size_le

/-- A range longer than the capacity leaves its last values only. -/
theorem pushFrontRange (hr : Represents N b h) (values : List α) :
    Represents N (b.pushFrontRange N values)
      { h with elements := values.foldl (BoundedDeque.pushFront h.capacity) h.elements } := by
  simp only [HistoryBuffer.pushFrontRange]
  split
  case isTrue hlong =>
    rw [hr.capacity] at hlong ⊢
    have hdrop := hr.pushFront_foldl (values.drop (values.length - h.capacity))
    rw [BoundedDeque.foldl_pushFront hr.length_le] at hdrop ⊢
    have hlast : ((values.drop (values.length - h.capacity)).reverse ++ h.elements).take h.capacity =
        (values.reverse ++ h.elements).take h.capacity := by
      have hlen : (values.drop (values.length - h.capacity)).length = h.capacity := by
        rw [List.length_drop]
        omega
      rw [List.take_append_of_le_length (by rw [List.length_reverse, hlen]),
        List.take_append_of_le_length (by rw [List.length_reverse]; omega), List.reverse_drop,
        Nat.sub_sub_self (Nat.le_of_lt hlong), List.take_take, Nat.min_self]
    rwa [hlast] at hdrop
  case isFalse => exact hr.pushFront_foldl values

/-- One value joins at the end. -/
theorem append_one (hr : Represents N b h) (value : α) (hroom : b.size < b.capacity) :
    Represents N { b with
      size := b.size + 1
      buffer := (b.buffer.set (b.mapIndex N b.size) value).set (b.mapIndex N b.size + b.ringCapacity N) value }
      { h with elements := h.elements ++ [value] } := by
  have hpos := hr.position_lt
  have hcap := hr.capacity_le
  have hlen := hr.length
  have hmap := hr.mapIndex (show b.size ≤ b.ringCapacity N by omega)
  have hplace := wrap_cases (b.ringCapacity N) (b.writePosition + b.size)
  rw [hmap]
  refine @append _ _ _ _ hr [value] _ hroom ?_ (fun j x hx => ?_) fun k hk => ?_
  · rw [List.length_set, List.length_set]
  · obtain ⟨rfl, rfl⟩ : j = 0 ∧ value = x := by
      cases j with
      | zero => exact ⟨rfl, Option.some.inj hx⟩
      | succ j => cases hx
    rw [Nat.add_zero]
    refine ⟨?_, ?_⟩
    · rw [List.getElem?_set_ne (by omega), List.getElem?_set_self (by omega)]
    · rw [List.getElem?_set_self (by rw [List.length_set]; omega)]
  · obtain ⟨hfirst, hsecond⟩ := hk 0 (Nat.zero_lt_succ _)
    rw [Nat.add_zero] at hfirst hsecond
    rw [List.getElem?_set_ne (fun heq => hsecond heq.symm), List.getElem?_set_ne (fun heq => hfirst heq.symm)]

theorem pushBack (hr : Represents N b h) (value : α) :
    Represents N (b.pushBack N value) { h with elements := BoundedDeque.pushBack h.capacity h.elements value } := by
  have hle := hr.size_le
  have hcapPos := hr.capacity_pos
  simp only [HistoryBuffer.pushBack]
  split
  case isTrue hfull =>
    have hadvanced := hr.advance (n := 1) (by omega)
    have happended := hadvanced.append_one value (by show b.size - 1 < b.capacity; omega)
    have hsize : b.size - 1 + 1 = b.size := by omega
    have hlist : BoundedDeque.pushBack h.capacity h.elements value = h.elements.drop 1 ++ [value] := by
      rw [BoundedDeque.pushBack_of_full (by rw [← hr.size, hfull, hr.capacity]),
        List.drop_append_of_le_length (by rw [← hr.size]; omega)]
    rw [hlist]
    dsimp only at happended ⊢
    rw [hsize] at happended
    exact happended
  case isFalse hroom =>
    have hlist : BoundedDeque.pushBack h.capacity h.elements value = h.elements ++ [value] :=
      BoundedDeque.pushBack_of_room (by rw [← hr.size, ← hr.capacity]; omega)
    rw [hlist]
    exact hr.append_one value (by omega)

/-- A range that fits joins at the end, in two pieces where it wraps around. -/
theorem append_range (hr : Represents N b h) {values : List α} (hroom : b.size + values.length ≤ b.capacity)
    {startPos : Nat} (hstart : startPos = wrap (b.ringCapacity N) (b.writePosition + b.size)) :
    Represents N { b with
      size := b.size + values.length
      buffer :=
        let chunk1 := min values.length (b.ringCapacity N - startPos)
        let first := overwrite (overwrite b.buffer startPos (values.take chunk1)) (startPos + b.ringCapacity N)
          (values.take chunk1)
        if values.length - chunk1 > 0 then
          overwrite (overwrite first 0 (values.drop chunk1)) (b.ringCapacity N) (values.drop chunk1)
        else first }
      { h with elements := h.elements ++ values } := by
  dsimp only
  generalize hchunk : min values.length (b.ringCapacity N - startPos) = chunk1
  generalize hfirst : overwrite (overwrite b.buffer startPos (values.take chunk1)) (startPos + b.ringCapacity N)
    (values.take chunk1) = first
  generalize hbuffer : (if values.length - chunk1 > 0 then
    overwrite (overwrite first 0 (values.drop chunk1)) (b.ringCapacity N) (values.drop chunk1) else first) = buffer
  have hpos := hr.position_lt
  have hcap := hr.capacity_le
  have hlen := hr.length
  have hplace := wrap_cases (b.ringCapacity N) (b.writePosition + b.size)
  have htake : (values.take chunk1).length = chunk1 := List.length_take_of_le (by omega)
  have hdrop : (values.drop chunk1).length = values.length - chunk1 := List.length_drop
  have hlen1 : (overwrite b.buffer startPos (values.take chunk1)).length = b.buffer.length :=
    length_overwrite (by omega)
  have hlen2 : first.length = b.buffer.length := by
    rw [← hfirst, length_overwrite (by omega), hlen1]
  have hlen3 : (overwrite first 0 (values.drop chunk1)).length = b.buffer.length := by
    rw [length_overwrite (by omega), hlen2]
  -- what the four copies leave at a place
  have hread (k : Nat) : buffer[k]? =
      if b.ringCapacity N ≤ k ∧ k < b.ringCapacity N + (values.length - chunk1) then
        (values.drop chunk1)[k - b.ringCapacity N]?
      else if k < values.length - chunk1 then (values.drop chunk1)[k]?
      else if startPos + b.ringCapacity N ≤ k ∧ k < startPos + b.ringCapacity N + chunk1 then
        (values.take chunk1)[k - (startPos + b.ringCapacity N)]?
      else if startPos ≤ k ∧ k < startPos + chunk1 then (values.take chunk1)[k - startPos]?
      else b.buffer[k]? := by
    have hreadFirst : first[k]? =
        if startPos + b.ringCapacity N ≤ k ∧ k < startPos + b.ringCapacity N + chunk1 then
          (values.take chunk1)[k - (startPos + b.ringCapacity N)]?
        else if startPos ≤ k ∧ k < startPos + chunk1 then (values.take chunk1)[k - startPos]?
        else b.buffer[k]? := by
      rw [← hfirst, getElem?_overwrite (by omega), htake, getElem?_overwrite (by omega), htake]
    rw [← hbuffer]
    by_cases hrest : values.length - chunk1 > 0
    · rw [if_pos hrest, getElem?_overwrite (by omega), hdrop, getElem?_overwrite (by omega), hdrop, hreadFirst]
      simp only [Nat.zero_le, true_and, Nat.zero_add, Nat.sub_zero]
    · rw [if_neg hrest, hreadFirst, if_neg (c := b.ringCapacity N ≤ k ∧ _) (by omega), if_neg (c := k < _) (by omega)]
  refine hr.append hroom ?_ (fun j x hx => ?_) fun k hk => ?_
  · rw [← hbuffer]
    split
    · rw [length_overwrite (by omega), hlen3]
    · exact hlen2
  · have hj : j < values.length := (List.getElem?_eq_some_iff.mp hx).1
    have hat := wrap_cases (b.ringCapacity N) (b.writePosition + (b.size + j))
    rw [hread, hread]
    by_cases hchunk1 : j < chunk1
    · have hx' : (values.take chunk1)[j]? = some x := by rwa [List.getElem?_take_of_lt hchunk1]
      refine ⟨?_, ?_⟩
      · rw [if_neg (by omega), if_neg (by omega), if_neg (by omega), if_pos (by omega), ← hx']
        congr 1
        omega
      · rw [if_neg (by omega), if_neg (by omega), if_pos (by omega), ← hx']
        congr 1
        omega
    · have hx' : (values.drop chunk1)[j - chunk1]? = some x := by
        rwa [List.getElem?_drop, Nat.add_sub_cancel' (Nat.le_of_not_lt hchunk1)]
      refine ⟨?_, ?_⟩
      · rw [if_neg (by omega), if_pos (by omega), ← hx']
        congr 1
        omega
      · rw [if_pos (by omega), ← hx']
        congr 1
        omega
  · have hcell {j : Nat} (hj : j < values.length) := hk j hj
    have hat {j : Nat} := wrap_cases (b.ringCapacity N) (b.writePosition + (b.size + j))
    rw [hread, if_neg, if_neg, if_neg, if_neg]
    · rintro ⟨hlo, hhi⟩
      have := hcell (j := k - startPos) (by omega)
      have := hat (j := k - startPos)
      omega
    · rintro ⟨hlo, hhi⟩
      have := hcell (j := k - (startPos + b.ringCapacity N)) (by omega)
      have := hat (j := k - (startPos + b.ringCapacity N))
      omega
    · intro hlt
      have := hcell (j := chunk1 + k) (by omega)
      have := hat (j := chunk1 + k)
      omega
    · rintro ⟨hlo, hhi⟩
      have := hcell (j := chunk1 + (k - b.ringCapacity N)) (by omega)
      have := hat (j := chunk1 + (k - b.ringCapacity N))
      omega

/-- The values of a range that are kept. -/
theorem foldl_pushBack_kept (hr : Represents N b h) {values kept : List α}
    (hkept : (if values.length ≥ b.capacity then values.drop (values.length - b.capacity) else values) = kept) :
    kept.length = min values.length b.capacity ∧ values.foldl (BoundedDeque.pushBack h.capacity) h.elements =
      h.elements.drop (b.size + kept.length - b.capacity) ++ kept := by
  have hle := hr.size_le
  have hsize := hr.size
  rw [BoundedDeque.foldl_pushBack hr.length_le, List.length_append, ← hr.capacity, List.drop_append]
  split at hkept
  case isTrue hlong =>
    have hlen : kept.length = b.capacity := by
      rw [← hkept, List.length_drop]
      omega
    refine ⟨by omega, ?_⟩
    have hgone : h.elements.drop (h.elements.length + values.length - b.capacity) = [] :=
      List.drop_of_length_le (by omega)
    have hgone' : h.elements.drop (b.size + b.capacity - b.capacity) = [] := List.drop_of_length_le (by omega)
    rw [hlen, hgone, hgone', ← hkept]
    congr 2
    omega
  case isFalse hshort =>
    subst hkept
    refine ⟨by omega, ?_⟩
    have hzero : h.elements.length + values.length - b.capacity - h.elements.length = 0 := by omega
    rw [hzero, List.drop_zero, hsize]

theorem pushBackRange (hr : Represents N b h) (values : List α) :
    Represents N (b.pushBackRange N values)
      { h with elements := values.foldl (BoundedDeque.pushBack h.capacity) h.elements } := by
  have hle := hr.size_le
  have hcap := hr.capacity_le
  simp only [HistoryBuffer.pushBackRange]
  split
  case isTrue hnil =>
    rw [List.eq_nil_of_length_eq_zero hnil]
    exact hr
  case isFalse hne =>
    generalize hkept : (if values.length ≥ b.capacity then values.drop (values.length - b.capacity) else values) = kept
    obtain ⟨hlength, hlist⟩ := hr.foldl_pushBack_kept hkept
    rw [hlist]
    split
    case isTrue hover =>
      have hadvanced := hr.advance (n := b.size + kept.length - b.capacity) (by omega)
      have hroom : b.size - (b.size + kept.length - b.capacity) ≤ b.ringCapacity N := by omega
      have hstart := hadvanced.mapIndex hroom
      have hdirty : b.mirrorDirtyCount - min b.mirrorDirtyCount (b.size + kept.length - b.capacity) =
          b.mirrorDirtyCount - (b.size + kept.length - b.capacity) := by omega
      rw [hdirty]
      dsimp only
      rw [Nat.add_sub_cancel]
      exact hadvanced.append_range (by show b.size - _ + _ ≤ b.capacity; omega) hstart
    case isFalse hfits =>
      have hzero : b.size + kept.length - b.capacity = 0 := by omega
      rw [hzero, List.drop_zero, Nat.add_sub_cancel]
      exact hr.append_range (by omega) (hr.mapIndex (by omega))

theorem popFront (hr : Represents N b h) (hne : b.size ≠ 0) :
    Represents N { b with
      writePosition := b.mapIndex N 1
      size := b.size - 1
      mirrorDirtyCount := b.mirrorDirtyCount - 1 } { h with elements := h.elements.tail } := by
  rw [← List.drop_one]
  exact hr.advance (Nat.one_le_iff_ne_zero.mpr hne)

theorem popBack (hr : Represents N b h) :
    Represents N { b with size := b.size - 1 } { h with elements := h.elements.dropLast } := by
  have hle := hr.size_le
  have hshorter {i : Nat} {x : α} (hx : h.elements.dropLast[i]? = some x) : h.elements[i]? = some x := by
    obtain ⟨hi, rfl⟩ := List.getElem?_eq_some_iff.mp hx
    rw [List.getElem_dropLast, List.getElem?_eq_getElem]
  refine ⟨hr.shape, hr.capacity, hr.capacity_pos, hr.capacity_le, hr.length, hr.position_lt, hr.dirty_le, ?_, ?_,
    fun i x hx => hr.primary i x (hshorter hx), fun i x hx hi hlast => hr.mirror i x (hshorter hx) hi hlast⟩
  · show b.size - 1 = h.elements.dropLast.length
    rw [List.length_dropLast, hr.size]
  · show b.size - 1 ≤ b.capacity
    omega

theorem reset (hr : Represents N b h) (defaultValue : α) :
    Represents N (b.reset defaultValue) { h with elements := [] } := by
  have hpos := hr.position_lt
  exact ⟨hr.shape, hr.capacity, hr.capacity_pos, hr.capacity_le, List.length_replicate.trans hr.length,
    Nat.zero_lt_of_lt hpos, Nat.zero_le _, rfl, Nat.zero_le _, nofun, nofun⟩

/-- The elements that fit are laid out anew, in both halves. -/
theorem resize [Inhabited α] {b : HistoryBuffer α} (hr : Represents .dynamic b h) {newCapacity : Nat} (hne : newCapacity ≠ 0) :
    ∃ b', b.resize .dynamic newCapacity = some b' ∧
      Represents .dynamic b' ⟨newCapacity, h.elements.take newCapacity⟩ := by
  have hle := le_bitCeil newCapacity
  refine ⟨_, if_neg hne, ?_⟩
  rw [hr.range_eq, hr.size]
  have hpos := bitCeil_pos newCapacity
  generalize hrc : bitCeil newCapacity = rc at hle hpos
  have hmask : rc - 1 + 1 = rc := Nat.sub_add_cancel hpos
  generalize hcount : min h.elements.length newCapacity = copyCount
  have hkept : h.elements.take copyCount = h.elements.take newCapacity := by
    rw [← hcount, List.take_eq_take_iff]
    omega
  have htake : (h.elements.take newCapacity).length = copyCount := by
    rw [List.length_take]
    omega
  have hlen : (overwrite (List.replicate (rc * 2) (default : α)) 0 (h.elements.take newCapacity)).length = rc * 2 := by
    rw [length_overwrite (by rw [htake, List.length_replicate]; omega), List.length_replicate]
  have hfirst {i : Nat} (hi : i < copyCount) :
      (overwrite (List.replicate (rc * 2) (default : α)) 0 (h.elements.take newCapacity))[i]? =
        (h.elements.take newCapacity)[i]? := by
    rw [getElem?_overwrite (by rw [htake, List.length_replicate]; omega), htake, if_pos (by omega), Nat.sub_zero]
  have hin {i : Nat} {x : α} (hx : (h.elements.take newCapacity)[i]? = some x) : i < copyCount := by
    rw [← htake]
    exact (List.getElem?_eq_some_iff.mp hx).1
  have hwrap {i : Nat} (hi : i < copyCount) : wrap rc (0 + i) = i := by
    rw [Nat.zero_add, wrap, if_pos (by omega)]
  rw [hkept]
  refine ⟨⟨Nat.clog 2 newCapacity, hmask.trans hrc.symm⟩, rfl, Nat.pos_of_ne_zero hne, ?_, ?_, ?_, Nat.zero_le _,
    htake.symm, ?_, fun i x hx => ?_, fun i x hx _ _ => ?_⟩
  · show newCapacity ≤ rc - 1 + 1
    omega
  · show (copyWithin _ 0 copyCount rc).length = (rc - 1 + 1) * 2
    rw [length_copyWithin (by omega) (by omega), hlen, hmask]
  · show 0 < rc - 1 + 1
    omega
  · show copyCount ≤ newCapacity
    omega
  · have hi := hin hx
    show (copyWithin _ 0 copyCount rc)[wrap (rc - 1 + 1) (0 + i)]? = some x
    rw [hmask, hwrap hi, getElem?_copyWithin (by omega) (by omega), if_neg (by omega), hfirst hi, hx]
  · have hi := hin hx
    show (copyWithin _ 0 copyCount rc)[wrap (rc - 1 + 1) (0 + i) + (rc - 1 + 1)]? = some x
    rw [hmask, hwrap hi, getElem?_copyWithin (by omega) (by omega), if_pos (by omega), Nat.zero_add,
      Nat.add_sub_cancel, hfirst hi, hx]

/-- A write leaves the mirror of its element as it was. -/
theorem write (hr : Represents N b h) {index : Nat} {value : α} (hi : index < b.size)
    (hmirror : index < b.mirrorDirtyCount ∨ b.capacity ≤ b.mapIndex N index + 1 ∨
      b.buffer[b.mapIndex N index + b.ringCapacity N]? = some value) :
    Represents N (b.write N index value) { h with elements := h.elements.set index value } := by
  have hpos := hr.position_lt
  have hle := hr.size_le
  have hcap := hr.capacity_le
  have hlen := hr.length
  have hmap := hr.mapIndex (show index ≤ b.ringCapacity N by omega)
  have hplace := wrap_cases (b.ringCapacity N) (b.writePosition + index)
  rw [hmap] at hmirror
  have hset (i : Nat) (x : α) (hx : (h.elements.set index value)[i]? = some x) :
      i < b.size ∧ (i = index ∧ x = value ∨ i ≠ index ∧ h.elements[i]? = some x) := by
    have hlt : i < h.elements.length := by
      have := (List.getElem?_eq_some_iff.mp hx).1
      rwa [List.length_set] at this
    refine ⟨hr.size ▸ hlt, ?_⟩
    by_cases heq : i = index
    · subst heq
      rw [List.getElem?_set_self hlt] at hx
      exact Or.inl ⟨rfl, (Option.some.inj hx).symm⟩
    · rw [List.getElem?_set_ne (Ne.symm heq)] at hx
      exact Or.inr ⟨heq, hx⟩
  refine ⟨hr.shape, hr.capacity, hr.capacity_pos, hcap, ?_, hpos, hr.dirty_le, ?_, hle, fun i x hx => ?_,
    fun i x hx hdirty hlast => ?_⟩
  · show (b.buffer.set _ value).length = _
    rw [List.length_set]
    exact hlen
  · show b.size = (h.elements.set index value).length
    rw [List.length_set, hr.size]
  · show (b.buffer.set (b.mapIndex N index) value)[wrap (b.ringCapacity N) (b.writePosition + i)]? = some x
    rw [hmap]
    obtain ⟨hlt, ⟨rfl, rfl⟩ | ⟨hne, hx⟩⟩ := hset i x hx
    · rw [List.getElem?_set_self (by omega)]
    · have hother := wrap_cases (b.ringCapacity N) (b.writePosition + i)
      rw [List.getElem?_set_ne (by omega)]
      exact hr.primary i x hx
  · have hdirty : b.mirrorDirtyCount ≤ i := hdirty
    have hlast : wrap (b.ringCapacity N) (b.writePosition + i) + 1 < b.capacity := hlast
    show (b.buffer.set (b.mapIndex N index) value)[wrap (b.ringCapacity N) (b.writePosition + i) + b.ringCapacity N]? =
      some x
    rw [hmap, List.getElem?_set_ne (by omega)]
    obtain ⟨hlt, ⟨rfl, rfl⟩ | ⟨hne, hx⟩⟩ := hset i x hx
    · rcases hmirror with hpending | hend | hsame
      · omega
      · omega
      · exact hsame
    · exact hr.mirror i x hx hdirty hlast

/-! #### Runs -/

/-- A call throws where the list refuses it, and leads to what it makes of the list otherwise. -/
theorem apply [Inhabited α] (hr : Represents N b h) (op : Op α) :
    b.apply N op = none ∧ h.apply N op = none ∨
      ∃ b' h', b.apply N op = some b' ∧ h.apply N op = some h' ∧ Represents N b' h' := by
  have hempty : h.elements = [] ↔ b.size = 0 := by rw [hr.size, List.length_eq_zero_iff]
  cases op with
  | pushFront value => exact Or.inr ⟨_, _, rfl, rfl, hr.pushFront value⟩
  | pushFrontRange values => exact Or.inr ⟨_, _, rfl, rfl, hr.pushFrontRange values⟩
  | pushBack value => exact Or.inr ⟨_, _, rfl, rfl, hr.pushBack value⟩
  | pushBackRange values => exact Or.inr ⟨_, _, rfl, rfl, hr.pushBackRange values⟩
  | popFront =>
    by_cases hzero : b.size = 0
    · exact Or.inl ⟨if_pos hzero, if_pos (hempty.mpr hzero)⟩
    · exact Or.inr ⟨_, _, if_neg hzero, if_neg (mt hempty.mp hzero), hr.popFront hzero⟩
  | popBack =>
    by_cases hzero : b.size = 0
    · exact Or.inl ⟨if_pos hzero, if_pos (hempty.mpr hzero)⟩
    · exact Or.inr ⟨_, _, if_neg hzero, if_neg (mt hempty.mp hzero), hr.popBack⟩
  | resize newCapacity =>
    cases N with
    | fixed n => exact Or.inl ⟨rfl, rfl⟩
    | dynamic =>
      by_cases hzero : newCapacity = 0
      · exact Or.inl ⟨if_pos hzero, if_pos hzero⟩
      · obtain ⟨b', hb, hr'⟩ := hr.resize hzero
        exact Or.inr ⟨b', _, hb, if_neg hzero, hr'⟩
  | reset defaultValue => exact Or.inr ⟨_, _, rfl, rfl, hr.reset defaultValue⟩
  | view => exact Or.inr ⟨_, _, rfl, rfl, hr.syncMirror⟩

/-- The constructors leave an empty buffer. -/
theorem of_make [Inhabited α] {capacity : Nat} (hmake : make N capacity = some b) :
    Represents N b ⟨capacity, []⟩ := by
  cases N with
  | dynamic =>
    simp only [make] at hmake
    split at hmake
    · cases hmake
    case isFalse hne =>
      cases hmake
      have hle := le_bitCeil capacity
      have hpos := bitCeil_pos capacity
      have hmask : bitCeil capacity - 1 + 1 = bitCeil capacity := Nat.sub_add_cancel hpos
      refine ⟨⟨Nat.clog 2 capacity, hmask⟩, rfl, Nat.pos_of_ne_zero hne, ?_, ?_, ?_, Nat.zero_le _, rfl, Nat.zero_le _,
        nofun, nofun⟩
      · show capacity ≤ bitCeil capacity - 1 + 1
        rwa [hmask]
      · show (List.replicate _ _).length = (bitCeil capacity - 1 + 1) * 2
        rw [List.length_replicate, hmask]
      · show 0 < bitCeil capacity - 1 + 1
        exact Nat.succ_pos _
  | fixed n =>
    simp only [make] at hmake
    split at hmake
    · cases hmake
    case isFalse hne =>
      cases hmake
      have hn : 0 < n ∧ capacity = n := by omega
      exact ⟨hn.1, hn.2.symm, hn.1, Nat.le_refl _, List.length_replicate, hn.1, Nat.zero_le _, rfl, Nat.zero_le _,
        nofun, nofun⟩

end Represents

/-- What the accesses to a buffer show is the list, in its order, and the same calls throw. -/
structure Agrees [Inhabited α] (N : Extent) (b : HistoryBuffer α) (h : History α) : Prop where
  size : b.size = h.elements.length
  get : ∀ i < b.size, b.get N i = h.elements[i]?
  range : b.range N = h.elements
  span : ∀ index ≤ b.size, ∀ length, b.getSpan N index length = (h.elements.drop index).take length
  throws : ∀ op, b.apply N op = none ↔ h.apply N op = none

theorem Represents.agrees [Inhabited α] (hr : Represents N b h) : Agrees N b h where
  size := hr.size
  get _ hi := hr.get_eq hi
  range := hr.range_eq
  span _ hi length := hr.getSpan_eq hi length
  throws op := by
    rcases hr.apply op with ⟨hb, hh⟩ | ⟨b', h', hb, hh, -⟩
    · exact iff_of_true hb hh
    · exact iff_of_false (by rw [hb]; exact nofun) (by rw [hh]; exact nofun)

/-- The write reaches every place that a view reads the element from: its mirror is still to be written, no view reads
    the mirror, or the mirror holds the value. -/
def Mirrored (N : Extent) (s : HistoryBuffer α × History α) : Act α → Prop
  | .call _ => True
  | .write index value =>
    index < s.1.mirrorDirtyCount ∨ s.1.capacity ≤ s.1.mapIndex N index + 1 ∨
      s.1.buffer[s.1.mapIndex N index + s.1.ringCapacity N]? = some value

instance [DecidableEq α] (N : Extent) (s : HistoryBuffer α × History α) : ∀ a, Decidable (Mirrored N s a)
  | .call _ => .isTrue trivial
  | .write _ _ => inferInstanceAs (Decidable (_ ∨ _))

/-- No element is written in place. -/
def CallsOnly (_ : HistoryBuffer α × History α) : Act α → Prop
  | .call _ => True
  | .write _ _ => False

instance (s : HistoryBuffer α × History α) : ∀ a, Decidable (CallsOnly s a)
  | .call _ => .isTrue trivial
  | .write _ _ => .isFalse id

theorem reach_represents [Inhabited α] {capacity : Nat} {s : HistoryBuffer α × History α}
    (hs : (system N capacity).Reach (Mirrored N) s) : Represents N s.1 s.2 := by
  refine hs.invariant (I := fun s => Represents N s.1 s.2) (fun s hstart => ?_) fun s a t hr hok hstep => ?_
  · rw [hstart.2]
    exact Represents.of_make hstart.1
  · cases a with
    | call op =>
      cases hstep
      rcases hr.apply op with ⟨hb, hh⟩ | ⟨b', h', hb, hh, hr'⟩
      · rwa [hb, hh]
      · rwa [hb, hh]
    | write index value =>
      simp only [system] at hstep
      split at hstep
      case isTrue hi =>
        cases hstep
        exact hr.write hi hok
      case isFalse => cases hstep

/-- Through any calls, a history buffer is a list of bounded length, and the contiguous views show that list. -/
theorem bounded_list [Inhabited α] (N : Extent) (capacity : Nat) (s : HistoryBuffer α × History α)
    (hs : (system N capacity).Reach CallsOnly s) : Agrees N s.1 s.2 := by
  refine (reach_represents (hs.mono fun s a ha => ?_)).agrees
  cases a with
  | call => trivial
  | write => exact ha.elim

/-- Three values at the back of a buffer for two, one at its front, and a view. -/
def pushAround : List (Act Nat) :=
  [.call (.pushBackRange [1, 2, 3]), .call (.pushFront 4), .call .view, .call .popBack]

theorem bounded_list_pushAround : Agrees (.fixed 2) ⟨[2, 4, 2, 4], 2, 1, 1, 1, 0⟩ ⟨2, [4]⟩ :=
  bounded_list (.fixed 2) 2 _
    ((system (.fixed 2) 2).reach_get pushAround (s := (⟨[0, 0, 0, 0], 2, 0, 0, 1, 0⟩, ⟨2, []⟩)) ⟨rfl, rfl⟩ (by decide) rfl)

/-- As long as each write reaches every place that a view reads its element from, every view shows what was written. -/
theorem writes_seen [Inhabited α] (N : Extent) (capacity : Nat) (s : HistoryBuffer α × History α)
    (hs : (system N capacity).Reach (Mirrored N) s) : Agrees N s.1 s.2 := (reach_represents hs).agrees

/-- The newest element is written while its mirror is pending. -/
def writeNewest : List (Act Nat) := [.call (.pushFront 1), .write 0 5, .call (.pushFront 2), .call .view]

theorem writes_seen_writeNewest : Agrees (.fixed 2) ⟨[2, 5, 2, 5], 2, 0, 2, 1, 0⟩ ⟨2, [2, 5]⟩ :=
  writes_seen (.fixed 2) 2 _
    ((system (.fixed 2) 2).reach_get writeNewest (s := (⟨[0, 0, 0, 0], 2, 0, 0, 1, 0⟩, ⟨2, []⟩)) ⟨rfl, rfl⟩ (by decide) rfl)

/-- The newest of three elements lies at the start of the ring, and a view reads its mirror behind the others. -/
def writeMirrored : List (Act Nat) := [.call (.pushBackRange [1, 2]), .call (.pushBackRange [3, 4]), .write 2 9]

theorem writes_stale : ¬ ∀ (N : Extent) (capacity : Nat) (s : HistoryBuffer Nat × History Nat),
    (system N capacity).Reachable s → Agrees N s.1 s.2 := fun hall => by
  have hrun := (system (.fixed 3) 3).reachable_get writeMirrored
    (s := (⟨[0, 0, 0, 0, 0, 0], 3, 0, 0, 2, 0⟩, ⟨3, []⟩)) ⟨rfl, rfl⟩ (by decide)
  exact absurd (hall _ _ _ hrun).range (by decide)

end GnuRadio.HistoryBuffer
