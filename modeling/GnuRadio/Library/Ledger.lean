import Mathlib.Data.List.Dedup
import Mathlib.Data.List.Perm.Subperm

/-! Items numbered in the order in which they are accepted. A holder that joins after some of them gets the later ones,
    in order, and each of them is held or has been dropped. -/

namespace Ledger

/-- Of the first `n` items, a holder has those from `since` on, except the ones that are dropped. Of the items before, it
    may hold any. -/
structure Accounts (since n : Nat) (held dropped : List Nat) : Prop where
  inOrder : (held.filter (since ≤ ·)).Pairwise (· < ·)
  lt : ∀ k ∈ held, since ≤ k → k < n
  once : ∀ k, since ≤ k → k < n → (k ∈ held ↔ k ∉ dropped)

variable {since n : Nat} {held held' dropped before lost rest : List Nat}

theorem mem_filter_since {k : Nat} (hk : since ≤ k) : k ∈ held.filter (since ≤ ·) ↔ k ∈ held := by
  rw [List.mem_filter, decide_eq_true_eq]
  exact and_iff_left hk

namespace Accounts

/-- A holder that joins now has none of the later items. -/
theorem joins (h : ∀ k ∈ held, k < n) : Accounts n n held dropped where
  inOrder := by
    rw [List.filter_eq_nil_iff.mpr fun k hk => by simpa using h k hk]
    exact .nil
  lt k hk _ := h k hk
  once _ hs hn := absurd hs (Nat.not_le.mpr hn)

/-- Only the items from `since` on matter. -/
theorem congr (h : Accounts since n held dropped) (heq : held'.filter (since ≤ ·) = held.filter (since ≤ ·)) :
    Accounts since n held' dropped := by
  have hmem (k : Nat) (hk : since ≤ k) : k ∈ held' ↔ k ∈ held := by
    rw [← mem_filter_since hk, heq, mem_filter_since hk]
  refine ⟨?_, fun k hk hs => h.lt k ((hmem k hs).mp hk) hs, fun k hs hn => ?_⟩
  · rw [heq]
    exact h.inOrder
  · rw [hmem k hs]
    exact h.once k hs hn

/-- The next item is accepted, behind the others. -/
theorem accept (h : Accounts since n held dropped) (hn : since ≤ n) (hd : ∀ k ∈ dropped, k < n) :
    Accounts since (n + 1) (held ++ [n]) dropped where
  inOrder := by
    rw [List.filter_append, List.filter_singleton, decide_eq_true hn, cond_true, List.pairwise_append]
    refine ⟨h.inOrder, List.pairwise_singleton _ _, fun k hk m hm => ?_⟩
    obtain ⟨hk, hs⟩ := List.mem_filter.mp hk
    rw [List.mem_singleton.mp hm]
    exact h.lt k hk (of_decide_eq_true hs)
  lt k hk hs := by
    obtain hk | hk := List.mem_append.mp hk
    · exact Nat.lt_succ_of_lt (h.lt k hk hs)
    · rw [List.mem_singleton.mp hk]
      exact Nat.lt_succ_self n
  once k hs hk := by
    rw [List.mem_append, List.mem_singleton]
    obtain hk | rfl := Nat.lt_succ_iff_lt_or_eq.mp hk
    · rw [← h.once k hs hk]
      exact or_iff_left (Nat.ne_of_lt hk)
    · exact iff_of_true (.inr rfl) fun hm => Nat.lt_irrefl _ (hd _ hm)

/-- Items that are dropped are none of those that stay. -/
theorem drop (h : Accounts since n (before ++ lost ++ rest) dropped) :
    Accounts since n (before ++ rest) (dropped ++ lost) := by
  have hsub : (before ++ rest).Sublist (before ++ lost ++ rest) := by
    rw [List.append_assoc]
    exact (List.sublist_append_right lost rest).append_left before
  have hnodup : ((before ++ lost ++ rest).filter (since ≤ ·)).Nodup := h.inOrder.imp Nat.ne_of_lt
  refine ⟨h.inOrder.sublist (hsub.filter _), fun k hk hs => h.lt k (hsub.mem hk) hs, fun k hs hn => ?_⟩
  have honce := h.once k hs hn
  rw [List.filter_append, List.filter_append, List.nodup_append', List.nodup_append'] at hnodup
  obtain ⟨⟨-, -, hbefore⟩, -, hrest⟩ := hnodup
  simp only [List.mem_append, not_or] at honce ⊢
  constructor
  · rintro (hb | hr)
    · exact ⟨honce.mp (.inl (.inl hb)), fun hl => hbefore ((mem_filter_since hs).mpr hb) ((mem_filter_since hs).mpr hl)⟩
    · exact ⟨honce.mp (.inr hr), fun hl => hrest (List.mem_append.mpr (.inr ((mem_filter_since hs).mpr hl)))
        ((mem_filter_since hs).mpr hr)⟩
  · rintro ⟨hd, hl⟩
    obtain (hb | hl') | hr := honce.mpr hd
    · exact .inl hb
    · exact absurd hl' hl
    · exact .inr hr

/-- Each item is held once, or has been dropped once. -/
theorem count_eq_one (h : Accounts since n held dropped) (hd : dropped.Nodup) {k : Nat} (hs : since ≤ k) (hn : k < n) :
    (held ++ dropped).count k = 1 := by
  have hnodup : (held.filter (since ≤ ·)).Nodup := h.inOrder.imp Nat.ne_of_lt
  have hheld : held.count k = (held.filter (since ≤ ·)).count k := by rw [List.count_filter (by simpa using hs)]
  have honce := h.once k hs hn
  rw [List.count_append, hheld]
  by_cases hk : k ∈ held
  · rw [List.count_eq_one_of_mem hnodup ((mem_filter_since hs).mpr hk), List.count_eq_zero_of_not_mem (honce.mp hk)]
  · rw [List.count_eq_zero_of_not_mem fun hm => hk ((mem_filter_since hs).mp hm),
      List.count_eq_one_of_mem hd (Decidable.not_not.mp fun hm => hk (honce.mpr hm))]

end Accounts

end Ledger

/-! Items that are sent and the images of them that are delivered, in any order or in the order sent. -/

namespace Delivery

universe u v w x

variable {α : Type u} {β : Type v} {γ : Type w} {δ : Type x} {ordered : Prop} {image : α → Option β}

/-- The same items, in the same order where `ordered` holds. -/
structure Same (ordered : Prop) (l l' : List α) : Prop where
  perm : l.Perm l'
  eq : ordered → l = l'

namespace Same

variable {l l' l'' : List α}

theorem refl (ordered : Prop) (l : List α) : Same ordered l l := ⟨.refl l, fun _ => rfl⟩

theorem trans (h : Same ordered l l') (h' : Same ordered l' l'') : Same ordered l l'' :=
  ⟨h.perm.trans h'.perm, fun ho => (h.eq ho).trans (h'.eq ho)⟩

theorem append_left (h : Same ordered l l') (pre : List α) : Same ordered (pre ++ l) (pre ++ l') :=
  ⟨h.perm.append_left pre, fun ho => by rw [h.eq ho]⟩

theorem append_right (h : Same ordered l l') (rest : List α) : Same ordered (l ++ rest) (l' ++ rest) :=
  ⟨h.perm.append_right rest, fun ho => by rw [h.eq ho]⟩

theorem filter (h : Same ordered l l') (p : α → Bool) : Same ordered (l.filter p) (l'.filter p) :=
  ⟨h.perm.filter p, fun ho => by rw [h.eq ho]⟩

end Same

/-- Every item that has an image is delivered, and no image more often than it was sent; where `ordered` holds, exactly the
    images are delivered, in the order sent. -/
structure Delivers (ordered : Prop) (image : α → Option β) (sent : List α) (delivered : List β) : Prop where
  all : ∀ item ∈ sent, ∀ y ∈ image item, y ∈ delivered
  once : delivered.Subperm (sent.filterMap image)
  eq : ordered → delivered = sent.filterMap image

namespace Delivers

variable {sent sent' : List α} {delivered delivered' : List β}

theorem nil : Delivers ordered image [] [] :=
  ⟨fun _ h => (by cases h), List.Subperm.refl _, fun _ => rfl⟩

theorem imp {weaker : Prop} (h : Delivers ordered image sent delivered) (himp : weaker → ordered) :
    Delivers weaker image sent delivered :=
  ⟨h.all, h.once, fun ho => h.eq (himp ho)⟩

theorem refl (ordered : Prop) (image : α → Option β) (sent : List α) : Delivers ordered image sent (sent.filterMap image) :=
  ⟨fun item hitem _ hy => List.mem_filterMap.mpr ⟨item, hitem, hy⟩, List.Subperm.refl _, fun _ => rfl⟩

theorem append (h : Delivers ordered image sent delivered) (h' : Delivers ordered image sent' delivered') :
    Delivers ordered image (sent ++ sent') (delivered ++ delivered') := by
  refine ⟨fun item hitem y hy => ?_, ?_, fun ho => ?_⟩
  · rcases List.mem_append.mp hitem with hitem | hitem
    · exact List.mem_append_left _ (h.all item hitem y hy)
    · exact List.mem_append_right _ (h'.all item hitem y hy)
  · rw [List.filterMap_append]
    exact h.once.append h'.once
  · rw [List.filterMap_append, h.eq ho, h'.eq ho]

/-- The order of what is sent does not matter, unless it is delivered in order. -/
theorem same (h : Delivers ordered image sent delivered) (hsame : Same ordered sent sent') :
    Delivers ordered image sent' delivered := by
  refine ⟨fun item hitem => h.all item (hsame.perm.mem_iff.mpr hitem), ?_, fun ho => ?_⟩
  · exact (hsame.perm.filterMap image).subperm_left.mp h.once
  · rw [h.eq ho, hsame.eq ho]

/-- Some of the items are delivered, each of them at least once, in any order. -/
theorem of_sublist (hnot : ¬ ordered) {kept : List α} (hkept : kept.Sublist sent) (hmem : ∀ item ∈ sent, item ∈ kept)
    (hperm : delivered.Perm (kept.filterMap image)) : Delivers ordered image sent delivered := by
  refine ⟨fun item hitem y hy => ?_, ?_, fun ho => absurd ho hnot⟩
  · exact hperm.mem_iff.mpr (List.mem_filterMap.mpr ⟨item, hmem item hitem, hy⟩)
  · exact hperm.subperm.trans (hkept.filterMap image).subperm

/-- What is sent and what is delivered under other names. -/
theorem map {f : γ → α} {g : β → δ} {image' : γ → Option δ} {sent : List γ}
    (h : Delivers ordered image (sent.map f) delivered) (himage : ∀ item ∈ sent, (image (f item)).map g = image' item) :
    Delivers ordered image' sent (delivered.map g) := by
  have hmap : ((sent.map f).filterMap image).map g = sent.filterMap image' := by
    rw [List.filterMap_map, List.map_filterMap]
    exact List.filterMap_congr himage
  refine ⟨fun item hitem y hy => ?_, ?_, fun ho => ?_⟩
  · rw [← himage item hitem] at hy
    obtain ⟨z, hz, rfl⟩ := Option.map_eq_some_iff.mp hy
    exact List.mem_map_of_mem (h.all (f item) (List.mem_map_of_mem hitem) z hz)
  · rw [← hmap]
    obtain ⟨l, hperm, hsub⟩ := h.once
    exact ⟨l.map g, hperm.map g, hsub.map g⟩
  · rw [h.eq ho, hmap]

theorem map_delivered {g : β → δ} {image' : α → Option δ} (h : Delivers ordered image sent delivered)
    (himage : ∀ item ∈ sent, (image item).map g = image' item) : Delivers ordered image' sent (delivered.map g) := by
  rw [← List.map_id sent] at h
  exact h.map himage

/-- The images of the items that are sent are all that counts. -/
theorem congr {image' : α → Option β} (h : Delivers ordered image sent delivered)
    (himage : ∀ item ∈ sent, image item = image' item) : Delivers ordered image' sent delivered := by
  rw [← List.map_id delivered]
  exact h.map_delivered fun item hitem => by rw [Option.map_id, id, himage item hitem]

end Delivers

section Once

variable {sent kept : List α} {delivered : List β}

/-- Each of the distinct items that has an image is delivered once. -/
def DeliversOnce (image : α → Option β) (sent : List α) (delivered : List β) : Prop :=
  ∃ items : List α, items.Nodup ∧ (∀ item, item ∈ items ↔ item ∈ sent) ∧ delivered.Perm (items.filterMap image)

theorem deliversOnce_iff_perm [DecidableEq α] : DeliversOnce image sent delivered ↔ delivered.Perm (sent.dedup.filterMap image) := by
  constructor
  · rintro ⟨items, hnodup, hmem, hperm⟩
    have hitems : items.Perm sent.dedup :=
      (List.perm_ext_iff_of_nodup hnodup (List.nodup_dedup sent)).mpr fun item => (hmem item).trans List.mem_dedup.symm
    exact hperm.trans (hitems.filterMap image)
  · exact fun hperm => ⟨sent.dedup, List.nodup_dedup sent, fun item => List.mem_dedup, hperm⟩

/-- The items that are kept hold each distinct item. Those that are kept again deliver nothing. -/
theorem deliversOnce_iff [BEq α] [LawfulBEq α] (hmem : ∀ item, item ∈ kept ↔ item ∈ sent) (hperm : delivered.Perm (kept.filterMap image)) :
    DeliversOnce image sent delivered ↔ ∀ item, (image item).isSome → kept.count item ≤ 1 := by
  classical
  have hsubset : sent.dedup ⊆ kept := fun item hitem => (hmem item).mpr (List.mem_dedup.mp hitem)
  obtain ⟨items, hitems, hsublist⟩ := List.subperm_of_subset (List.nodup_dedup sent) hsubset
  obtain ⟨again, hsplit⟩ := hsublist.exists_perm_append
  have hagain : kept.Perm (sent.dedup ++ again) := hsplit.trans (hitems.append_right again)
  clear hsplit
  have hsplit : (kept.filterMap image).Perm (sent.dedup.filterMap image ++ again.filterMap image) := by
    rw [← List.filterMap_append]
    exact hagain.filterMap image
  have hcount (item : α) : kept.count item = sent.dedup.count item + again.count item := by
    rw [hagain.count_eq, List.count_append]
  rw [deliversOnce_iff_perm]
  constructor
  · intro honce item hsome
    have hlength := ((hperm.symm.trans honce).symm.trans hsplit).length_eq
    rw [List.length_append] at hlength
    have hnil : again.filterMap image = [] := List.length_eq_zero_iff.mp (by omega)
    have hnot : item ∉ again := fun hitem => by
      rw [List.filterMap_eq_nil_iff.mp hnil item hitem] at hsome
      cases hsome
    rw [hcount item, List.count_eq_zero.mpr hnot]
    exact List.nodup_iff_count_le_one.mp (List.nodup_dedup sent) item
  · intro hall
    have hnil : again.filterMap image = [] := by
      refine List.filterMap_eq_nil_iff.mpr fun item hitem => ?_
      by_contra hsome
      have hle := hall item (Option.isSome_iff_ne_none.mpr hsome)
      have hkept : item ∈ kept := hagain.mem_iff.mpr (List.mem_append_right _ hitem)
      have hfirst := List.count_pos_iff.mpr (List.mem_dedup.mpr ((hmem item).mp hkept))
      have hsecond := List.count_pos_iff.mpr hitem
      rw [hcount item] at hle
      omega
    rw [hnil, List.append_nil] at hsplit
    exact hperm.trans hsplit

end Once

end Delivery
