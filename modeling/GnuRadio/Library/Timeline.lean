import Mathlib.Data.List.Induction
import Mathlib.Data.List.TakeWhile
import Mathlib.Order.Lattice

/-! Records with a time. The latest record at a time is the one with the greatest time up to it, and among records of
    one time the one written last. A sorted vector whose equal times stand newest first is read from its end, and it
    may lose the records that a later one hides. -/

namespace Timeline

universe u v

variable {α : Type u} {τ : Type v} [LinearOrder τ] (time : α → τ)

/-- The latest of the records `l`, which stand in the order in which they are written. -/
def latest (l : List α) (t : τ) : Option α :=
  l.foldl (fun best e => if time e ≤ t ∧ ∀ b ∈ best, time b ≤ time e then some e else best) none

variable {time} {l : List α} {e b : α} {t : τ}

@[simp] theorem latest_nil : latest time [] t = none := rfl

theorem latest_concat : latest time (l ++ [e]) t =
    if time e ≤ t ∧ ∀ b ∈ latest time l t, time b ≤ time e then some e else latest time l t := by
  rw [latest, List.foldl_append]
  rfl

/-! ### What the latest record is -/

theorem latest_mem (h : latest time l t = some b) : b ∈ l ∧ time b ≤ t := by
  induction l using List.reverseRecOn with
  | nil => cases h
  | append_singleton l e ih =>
    rw [latest_concat] at h
    split at h
    · next he =>
      cases h
      exact ⟨List.mem_concat_self, he.1⟩
    · exact ⟨List.mem_append_left _ (ih h).1, (ih h).2⟩

theorem exists_latest (he : e ∈ l) (ht : time e ≤ t) : ∃ b, latest time l t = some b ∧ time e ≤ time b := by
  induction l using List.reverseRecOn with
  | nil => cases he
  | append_singleton l x ih =>
    rw [latest_concat]
    split
    · next hx =>
      refine ⟨x, rfl, ?_⟩
      rcases List.mem_append.mp he with he | he
      · obtain ⟨b, hb, heb⟩ := ih he
        exact heb.trans (hx.2 b hb)
      · cases List.mem_singleton.mp he
        exact le_rfl
    · next hx =>
      rcases List.mem_append.mp he with he | he
      · exact ih he
      · cases List.mem_singleton.mp he
        -- the record that hides `e` is not older
        cases hl : latest time l t with
        | none => exact absurd ⟨ht, fun b hb => by rw [hl] at hb; cases hb⟩ hx
        | some b =>
          refine ⟨b, rfl, le_of_not_ge fun hbe => hx ⟨ht, fun c hc => ?_⟩⟩
          rw [hl] at hc
          cases hc
          exact hbe

theorem latest_eq_none : latest time l t = none ↔ ∀ e ∈ l, t < time e := by
  constructor
  · intro h e he
    by_contra ht
    obtain ⟨b, hb, -⟩ := exists_latest he (not_lt.mp ht)
    rw [h] at hb
    cases hb
  · intro h
    cases hl : latest time l t with
    | none => rfl
    | some b => exact absurd (h b (latest_mem hl).1) (not_lt.mpr (latest_mem hl).2)

/-- The latest record has the greatest time up to `t`, and each record written after it has another time or comes too
    late. -/
theorem latest_eq_some_iff : latest time l t = some b ↔
    ∃ before after, l = before ++ b :: after ∧ time b ≤ t ∧ (∀ e ∈ before, time e ≤ t → time e ≤ time b) ∧
      ∀ e ∈ after, time e ≤ t → time e < time b := by
  induction l using List.reverseRecOn with
  | nil => simp
  | append_singleton l x ih =>
    rw [latest_concat]
    constructor
    · intro h
      split at h
      · next hx =>
        cases h
        refine ⟨l, [], rfl, hx.1, fun e he ht => ?_, fun e he => nomatch he⟩
        obtain ⟨c, hc, hec⟩ := exists_latest he ht
        exact hec.trans (hx.2 c hc)
      · next hx =>
        obtain ⟨before, after, rfl, hb, hbefore, hafter⟩ := ih.mp h
        refine ⟨before, after ++ [x], by simp, hb, hbefore, fun e he ht => ?_⟩
        rcases List.mem_append.mp he with he | he
        · exact hafter e he ht
        · cases List.mem_singleton.mp he
          by_contra hbe
          refine hx ⟨ht, fun c hc => ?_⟩
          rw [h] at hc
          cases hc
          exact not_lt.mp hbe
    · rintro ⟨before, after, hl, hb, hbefore, hafter⟩
      rcases List.eq_nil_or_concat after with rfl | ⟨after, y, rfl⟩
      · obtain ⟨rfl, hxb⟩ := List.append_inj' hl rfl
        cases hxb
        rw [if_pos]
        refine ⟨hb, fun c hc => ?_⟩
        exact hbefore c (latest_mem hc).1 (latest_mem hc).2
      · have hl' : l ++ [x] = (before ++ b :: after) ++ [y] := by simpa using hl
        obtain ⟨rfl, hxy⟩ := List.append_inj' hl' rfl
        cases hxy
        have hlb := ih.mpr ⟨before, after, rfl, hb, hbefore, fun e he => hafter e (by simp [he])⟩
        rw [if_neg, hlb]
        rintro ⟨hx, hle⟩
        exact absurd (hle b hlb) (not_le.mpr (hafter x (by simp) hx))

/-! ### Records that hide others -/

/-- A record that a later time hides may be written at any point. -/
theorem latest_concat_of_hidden {k : α} (hk : k ∈ l) (hkt : time k ≤ t) (he : time e < time k) :
    latest time (l ++ [e]) t = latest time l t := by
  obtain ⟨b, hb, hkb⟩ := exists_latest hk hkt
  rw [latest_concat, if_neg]
  rintro ⟨-, h⟩
  exact absurd (h b hb) (not_le.mpr (he.trans_le hkb))

theorem latest_append_of_hidden {erased : List α} (h : ∀ e ∈ erased, ∃ k ∈ l, time k ≤ t ∧ time e < time k) :
    latest time (l ++ erased) t = latest time l t := by
  induction erased using List.reverseRecOn with
  | nil => rw [List.append_nil]
  | append_singleton erased e ih =>
    obtain ⟨k, hk, hkt, hek⟩ := h e List.mem_concat_self
    rw [← List.append_assoc, latest_concat_of_hidden (List.mem_append_left _ hk) hkt hek]
    exact ih fun x hx => h x (List.mem_append_left _ hx)

/-- Two records of different times may change places. -/
theorem latest_swap {x y : α} (h : time x ≠ time y) :
    latest time (l ++ [x] ++ [y]) t = latest time (l ++ [y] ++ [x]) t := by
  simp only [latest_concat]
  cases latest time l t with
  | none =>
    simp only [Option.mem_def, reduceCtorEq, false_implies, implies_true, and_true]
    grind
  | some b =>
    simp only [Option.mem_def, Option.some.injEq, forall_eq']
    grind

/-- A record may be written before records of other times. -/
theorem latest_append_comm {later : List α} (h : ∀ x ∈ later, time x ≠ time e) :
    latest time (l ++ [e] ++ later) t = latest time (l ++ later ++ [e]) t := by
  induction later using List.reverseRecOn with
  | nil => rw [List.append_nil, List.append_nil]
  | append_singleton later x ih =>
    have hx : time x ≠ time e := h x List.mem_concat_self
    have ih := ih fun y hy => h y (List.mem_append_left _ hy)
    calc latest time (l ++ [e] ++ (later ++ [x])) t = latest time (l ++ later ++ [e] ++ [x]) t := by
          rw [← List.append_assoc, latest_concat, ih, ← latest_concat]
      _ = latest time (l ++ later ++ [x] ++ [e]) t := latest_swap hx.symm
      _ = latest time (l ++ (later ++ [x]) ++ [e]) t := by rw [List.append_assoc l later [x]]

/-! ### A vector sorted by time -/

variable (time) in
/-- Times do not decrease along the vector, and a new record stands before the records of its own time. -/
def Sorted (vec : List α) : Prop := vec.Pairwise (time · ≤ time ·)

variable (time) in
/-- The vector with `e` at the first position whose time is not before its own. -/
def insert (e : α) (vec : List α) : List α :=
  vec.takeWhile (time · < time e) ++ e :: vec.dropWhile (time · < time e)

variable {vec : List α}

theorem Sorted.le_of_mem_dropWhile (h : Sorted time vec) {u : τ} {x : α}
    (hx : x ∈ vec.dropWhile (time · < u)) : u ≤ time x := by
  induction vec with
  | nil => cases hx
  | cons y vec ih =>
    rw [List.dropWhile_cons] at hx
    split at hx
    · exact ih (List.pairwise_cons.mp h).2 hx
    · next hy =>
      have hy : u ≤ time y := by simpa using hy
      rcases List.mem_cons.mp hx with rfl | hx
      · exact hy
      · exact hy.trans ((List.pairwise_cons.mp h).1 x hx)

theorem lt_of_mem_takeWhile {u : τ} {x : α} (hx : x ∈ vec.takeWhile (time · < u)) : time x < u := by
  simpa using List.mem_takeWhile_imp hx

theorem Sorted.insert (h : Sorted time vec) (e : α) : Sorted time (insert time e vec) := by
  have hvec : Sorted time (vec.takeWhile (time · < time e) ++ vec.dropWhile (time · < time e)) := by
    rw [List.takeWhile_append_dropWhile]
    exact h
  obtain ⟨htake, hdrop, hcross⟩ := List.pairwise_append.mp hvec
  refine List.pairwise_append.mpr ⟨htake, List.pairwise_cons.mpr ⟨fun x hx => h.le_of_mem_dropWhile hx, hdrop⟩, ?_⟩
  intro x hx y hy
  rcases List.mem_cons.mp hy with rfl | hy
  · exact (lt_of_mem_takeWhile hx).le
  · exact hcross x hx y hy

@[simp] theorem mem_insert {x : α} : x ∈ insert time e vec ↔ x = e ∨ x ∈ vec := by
  conv_rhs => rw [← List.takeWhile_append_dropWhile (p := fun y => decide (time y < time e)) (l := vec)]
  simp only [insert, List.mem_append, List.mem_cons]
  tauto

/-- An insertion counts as the most recent write. -/
theorem latest_insert : latest time (insert time e vec).reverse t = latest time (vec.reverse ++ [e]) t := by
  have hsplit : vec.reverse = (vec.dropWhile (time · < time e)).reverse ++ (vec.takeWhile (time · < time e)).reverse := by
    rw [← List.reverse_append, List.takeWhile_append_dropWhile]
  rw [hsplit, insert, List.reverse_append, List.reverse_cons]
  exact latest_append_comm fun x hx => (lt_of_mem_takeWhile (List.mem_reverse.mp hx)).ne

/-- A vector may lose a front whose records are each hidden by one that it keeps. -/
theorem latest_drop_front {erased kept : List α} (h : ∀ e ∈ erased, ∃ k ∈ kept, time k ≤ t ∧ time e < time k) :
    latest time (erased ++ kept).reverse t = latest time kept.reverse t := by
  rw [List.reverse_append]
  refine latest_append_of_hidden fun e he => ?_
  obtain ⟨k, hk, hkt⟩ := h e (List.mem_reverse.mp he)
  exact ⟨k, List.mem_reverse.mpr hk, hkt⟩

/-- The latest record of a sorted vector is the first of the greatest time up to `t`. -/
theorem Sorted.latest_eq_find? (h : Sorted time vec) {last : α} (hl : last ∈ vec) (ht : time last ≤ t)
    (hle : ∀ e ∈ vec, time e ≤ t → time e ≤ time last) :
    latest time vec.reverse t = vec.find? (time · = time last) := by
  obtain ⟨first, hfirst⟩ : ∃ first, vec.find? (time · = time last) = some first :=
    Option.isSome_iff_exists.mp (List.find?_isSome.mpr ⟨last, hl, by simp⟩)
  obtain ⟨heq, before, after, rfl, hbefore⟩ := List.find?_eq_some_iff_append.mp hfirst
  have heq : time first = time last := by simpa using heq
  rw [hfirst, latest_eq_some_iff]
  refine ⟨after.reverse, before.reverse, by simp, heq.trans_le ht, fun e he het => ?_, fun e he het => ?_⟩
  · rw [heq]
    exact hle e (by simp [List.mem_reverse.mp he]) het
  · have he := List.mem_reverse.mp he
    have hne : time e ≠ time last := by simpa using hbefore e he
    rw [heq]
    exact lt_of_le_of_ne (hle e (by simp [he]) het) hne

theorem insert_perm : (insert time e vec).Perm (vec ++ [e]) := by
  have h : (e :: vec).Perm (vec ++ [e]) := (List.perm_append_singleton e vec).symm
  refine List.Perm.trans ?_ h
  conv_rhs => rw [← List.takeWhile_append_dropWhile (p := fun y => decide (time y < time e)) (l := vec)]
  exact List.perm_middle

end Timeline
