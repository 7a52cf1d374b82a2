import Mathlib.Algebra.Order.Group.Multiset
import Mathlib.Tactic.Abel

/-! A list of bounded length to which values are pushed at either end. A push to a full list drops the element at the
    opposite end. -/

namespace BoundedDeque

universe u

variable {α : Type u}

def pushFront (capacity : Nat) (l : List α) (x : α) : List α := (x :: l).take capacity

def pushBack (capacity : Nat) (l : List α) (x : α) : List α := (l ++ [x]).drop (l.length + 1 - capacity)

variable {capacity : Nat} {l xs : List α} {x : α}

theorem length_pushFront (hl : l.length ≤ capacity) :
    (pushFront capacity l x).length = if l.length < capacity then l.length + 1 else l.length := by
  rw [pushFront, List.length_take, List.length_cons]
  split <;> omega

theorem length_pushBack_le : (pushBack capacity l x).length ≤ capacity := by
  rw [pushBack, List.length_drop, List.length_append, List.length_singleton]
  omega

theorem pushBack_of_full (hl : l.length = capacity) : pushBack capacity l x = (l ++ [x]).drop 1 := by
  rw [pushBack, hl, Nat.add_sub_cancel_left]

theorem pushBack_of_room (hl : l.length < capacity) : pushBack capacity l x = l ++ [x] := by
  rw [pushBack, Nat.sub_eq_zero_of_le hl, List.drop_zero]

/-- Pushes to the front leave the last of them first. -/
theorem foldl_pushFront (hl : l.length ≤ capacity) :
    xs.foldl (pushFront capacity) l = (xs.reverse ++ l).take capacity := by
  induction xs generalizing l with
  | nil => exact (List.take_of_length_le hl).symm
  | cons x xs ih =>
    have hlen : (pushFront capacity l x).length ≤ capacity := List.length_take_le ..
    rw [List.foldl_cons, ih hlen, pushFront, List.reverse_cons, List.append_assoc,
      List.singleton_append, List.take_append, List.take_append, List.take_take,
      Nat.min_eq_left (Nat.sub_le ..)]

/-- Pushes to the back leave the last values of the sequence. -/
theorem foldl_pushBack (hl : l.length ≤ capacity) :
    xs.foldl (pushBack capacity) l = (l ++ xs).drop ((l ++ xs).length - capacity) := by
  induction xs generalizing l with
  | nil => rw [List.append_nil, Nat.sub_eq_zero_of_le hl, List.drop_zero, List.foldl_nil]
  | cons x xs ih =>
    rw [List.foldl_cons, ih length_pushBack_le]
    have hsplit : l ++ x :: xs = (l ++ [x]) ++ xs := by rw [List.append_assoc, List.singleton_append]
    have hlen : (l ++ [x]).length = l.length + 1 := by rw [List.length_append, List.length_singleton]
    have hle : l.length + 1 - capacity ≤ (l ++ [x]).length := hlen ▸ Nat.sub_le ..
    have hmove : pushBack capacity l x ++ xs = (l ++ x :: xs).drop (l.length + 1 - capacity) := by
      rw [hsplit]
      exact (List.drop_append_of_le_length hle).symm
    rw [hmove, List.drop_drop, List.length_drop]
    congr 1
    simp only [List.length_append, List.length_cons]
    omega

end BoundedDeque

/-! A queue in front of a bounded target: a call brings a batch of items, writes the first of those that wait, and keeps
    the others, without the items that are not worth keeping and without the oldest beyond a capacity. -/

namespace Backlog

universe u

/-- The items that wait, those that were written, in order, those that were dropped, and all that were accepted, in
    order. -/
structure Queue (α : Type u) where
  kept : List α
  written : List α
  dropped : List α
  accepted : List α

variable {α : Type u} {keeps : α → Bool} {capacity : Nat} {q q' : Queue α} {batch : List α}

/-- What a call does: `sent` is written, `lost` are the oldest of those that would be kept. -/
structure Call (keeps : α → Bool) (capacity : Nat) (q : Queue α) (batch sent lost : List α) (q' : Queue α) : Prop where
  written : q'.written = q.written ++ sent
  accepted : q'.accepted = q.accepted ++ batch
  kept : ∃ left, q.kept ++ batch = sent ++ left ∧ left.filter keeps = lost ++ q'.kept ∧
    q'.dropped = q.dropped ++ (left.filter (fun x => !keeps x) ++ lost)
  bounded : q'.kept.length ≤ capacity
  full : lost ≠ [] → q'.kept.length = capacity

/-- The accepted items are those written, kept and dropped; the written and the kept ones are in the order of their
    acceptance. -/
structure Conserved (keeps : α → Bool) (q : Queue α) : Prop where
  partitions : (q.written ++ q.kept ++ q.dropped).Perm q.accepted
  inOrder : (q.written ++ q.kept).Sublist q.accepted
  worth : ∀ x ∈ q.kept, keeps x = true

theorem Conserved.empty (keeps : α → Bool) : Conserved keeps (⟨[], [], [], []⟩ : Queue α) :=
  ⟨.refl _, .refl _, nofun⟩

theorem Conserved.call {sent lost : List α} (h : Conserved keeps q) (hc : Call keeps capacity q batch sent lost q') :
    Conserved keeps q' := by
  obtain ⟨left, hleft, hkept, hdropped⟩ := hc.kept
  have hsub : q'.kept.Sublist left :=
    (hkept ▸ List.sublist_append_right lost q'.kept).trans List.filter_sublist
  refine ⟨?_, ?_, fun x hx => ?_⟩
  · have hsplit : (left.filter keeps ++ left.filter fun x => !keeps x).Perm left := List.filter_append_perm keeps left
    have hold := h.partitions
    rw [hkept] at hsplit
    rw [hc.written, hc.accepted, hdropped]
    rw [← Multiset.coe_eq_coe] at hsplit hold ⊢
    have hleft : (q.kept : Multiset α) + batch = sent + left := congrArg Multiset.ofList hleft
    simp only [← Multiset.coe_add] at hsplit hold ⊢
    calc (q.written : Multiset α) + sent + q'.kept + (q.dropped + (left.filter (fun x => !keeps x) + lost))
        = q.written + q.dropped + (sent + (lost + q'.kept + left.filter fun x => !keeps x)) := by abel
      _ = q.written + q.dropped + (q.kept + batch) := by rw [hsplit, hleft]
      _ = q.written + q.kept + q.dropped + batch := by abel
      _ = q.accepted + batch := by rw [hold]
  · rw [hc.written, hc.accepted, List.append_assoc]
    refine (((hsub.append_left sent).append_left q.written).trans ?_)
    rw [← hleft, ← List.append_assoc]
    exact h.inOrder.append_right batch
  · have hmem : x ∈ left.filter keeps := hkept ▸ List.mem_append_right lost hx
    exact (List.mem_filter.mp hmem).2

end Backlog
