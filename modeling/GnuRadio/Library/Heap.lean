import Mathlib.Data.List.Perm.Subperm

/-! A heap whose cells are never used again once they are freed: an access to a cell that is not live has no result,
    so a program that always has one neither reads freed memory nor frees a cell twice. -/

universe u

structure Heap (β : Type u) where
  cells : List (Option β)

namespace Heap

variable {β : Type u}

def empty : Heap β := ⟨[]⟩

def get (h : Heap β) (p : Nat) : Option β := (h.cells[p]?).join

/-- The heap with a new cell, and the pointer to it. -/
def alloc (h : Heap β) (b : β) : Heap β × Nat := (⟨h.cells ++ [some b]⟩, h.cells.length)

def modify (h : Heap β) (p : Nat) (f : β → β) : Option (Heap β) :=
  (h.get p).map fun b => ⟨h.cells.set p (some (f b))⟩

def free (h : Heap β) (p : Nat) : Option (Heap β) := (h.get p).map fun _ => ⟨h.cells.set p none⟩

variable {h h' : Heap β} {p q : Nat} {b : β} {f : β → β}

theorem lt_of_get (hp : h.get p = some b) : p < h.cells.length := by
  rw [get, Option.join_eq_some_iff] at hp
  exact (List.getElem?_eq_some_iff.mp hp).1

/-! ### A new cell -/

theorem get_alloc_self : (h.alloc b).1.get (h.alloc b).2 = some b := by
  rw [alloc, get, List.getElem?_append_right (Nat.le_refl _), Nat.sub_self]
  rfl

theorem get_alloc {c : β} (hp : h.get p = some c) : (h.alloc b).1.get p = some c := by
  rw [alloc, get, List.getElem?_append_left (lt_of_get hp)]
  exact hp

theorem ne_fresh {c : β} (hp : h.get p = some c) : p ≠ (h.alloc b).2 := Nat.ne_of_lt (lt_of_get hp)

/-! ### A cell that is changed or freed -/

theorem get_set_self {o : Option β} (hp : h.get p = some b) : (Heap.mk (h.cells.set p o)).get p = o := by
  rw [get, List.getElem?_set_self (lt_of_get hp), Option.join_some]

theorem get_set_of_ne {o : Option β} (hq : q ≠ p) : (Heap.mk (h.cells.set p o)).get q = h.get q := by
  rw [get, List.getElem?_set_ne hq.symm, get]

theorem modify_eq (hp : h.get p = some b) : h.modify p f = some ⟨h.cells.set p (some (f b))⟩ := by
  rw [modify, hp, Option.map_some]

theorem free_eq (hp : h.get p = some b) : h.free p = some ⟨h.cells.set p none⟩ := by
  rw [free, hp, Option.map_some]

/-! ### Lists of cells

Cells that name their successors, up to one that names none. -/

def Chain (next : β → Option Nat) (h : Heap β) : Option Nat → List Nat → Prop
  | start, [] => start = none
  | start, p :: l => start = some p ∧ ∃ b, h.get p = some b ∧ Chain next h (next b) l

namespace Chain

variable {next : β → Option Nat} {start : Option Nat} {l : List Nat}

theorem live (hc : Chain next h start l) (hp : p ∈ l) : ∃ b, h.get p = some b := by
  induction l generalizing start with
  | nil => cases hp
  | cons q l ih =>
    obtain ⟨-, b, hb, hc⟩ := hc
    rcases List.mem_cons.mp hp with rfl | hp
    · exact ⟨b, hb⟩
    · exact ih hc hp

/-- A heap whose cells of the list name the same successors has the same list. -/
theorem congr (hc : Chain next h start l)
    (hn : ∀ p ∈ l, ∀ b, h.get p = some b → ∃ b', h'.get p = some b' ∧ next b' = next b) : Chain next h' start l := by
  induction l generalizing start with
  | nil => exact hc
  | cons q l ih =>
    obtain ⟨hs, b, hb, hc⟩ := hc
    obtain ⟨b', hb', he⟩ := hn q (.head _) b hb
    refine ⟨hs, b', hb', he ▸ ih hc fun p hp => hn p (.tail _ hp)⟩

theorem congr_get (hc : Chain next h start l) (hn : ∀ p ∈ l, h'.get p = h.get p) : Chain next h' start l :=
  hc.congr fun p hp b hb => ⟨b, (hn p hp).trans hb, rfl⟩

theorem length_le (hc : Chain next h start l) (hl : l.Nodup) : l.length ≤ h.cells.length := by
  have hsub : l ⊆ List.range h.cells.length := fun p hp => by
    obtain ⟨b, hb⟩ := hc.live hp
    exact List.mem_range.mpr (lt_of_get hb)
  simpa using (List.subperm_of_subset hl hsub).length_le

end Chain

end Heap
