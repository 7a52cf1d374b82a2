import Mathlib.Data.Nat.ModEq
import GnuRadio.Buffer.SegmentedBufferAccesses
import GnuRadio.Library.Roster
import GnuRadio.Theorems.ReaderSet

/-! The storage of a `SegmentedBuffer`: the segments between the oldest and the next have entries of their own in the
    current index, and what the writer allocates, copies and frees keeps the entries that a span may read. -/

namespace GnuRadio.SegmentedBuffer

open Function

variable {α : Type} {m t : Memory α} {chain : List Nat} {index : SegmentIndex} {p n : Nat}

/-! ### Entries -/

namespace SegmentIndex

theorem entry_eq_mod (hl : ∃ j, index.length = 2 ^ j) : index.entry n = n % index.length := by
  obtain ⟨j, hj⟩ := hl
  rw [entry, hj, Nat.and_two_pow_sub_one_eq_mod]

/-- Segments that are less than the length apart have different entries. -/
theorem entry_ne (hl : ∃ j, index.length = 2 ^ j) {n' : Nat} (hlt : n < n') (hd : n' - n < index.length) :
    index.entry n ≠ index.entry n' := by
  rw [entry_eq_mod hl, entry_eq_mod hl]
  intro he
  have hdvd := (Nat.modEq_iff_dvd' (Nat.le_of_lt hlt)).mp he
  exact absurd (Nat.le_of_dvd (Nat.sub_pos_of_lt hlt) hdvd) (Nat.not_le.mpr hd)

theorem entry_ne_of_window (hl : ∃ j, index.length = 2 ^ j) {oldest next n' : Nat} (hd : next - oldest ≤ index.length)
    (hn : oldest ≤ n ∧ n < next) (hn' : oldest ≤ n' ∧ n' < next) (hne : n ≠ n') : index.entry n ≠ index.entry n' := by
  rcases Nat.lt_or_gt_of_ne hne with h | h
  · exact entry_ne hl h (by omega)
  · exact (entry_ne hl h (by omega)).symm

@[simp] theorem store_length {e : Option Nat} : (index.store n e).length = index.length := rfl

@[simp] theorem store_replaced {e : Option Nat} : (index.store n e).replaced = index.replaced := rfl

@[simp] theorem store_replacedAt {e : Option Nat} : (index.store n e).replacedAt = index.replacedAt := rfl

theorem store_segment_self {e : Option Nat} : (index.store n e).segment n = e := update_self ..

theorem store_segment_of_ne {n' : Nat} {e : Option Nat} (h : index.entry n' ≠ index.entry n) :
    (index.store n e).segment n' = index.segment n' := update_of_ne h ..

/-- `replaceIndex` copies the entries of a window that the new length holds. -/
theorem copySegments_segment (index current : SegmentIndex) (hl : ∃ j, index.length = 2 ^ j) {oldest next : Nat}
    (hd : next - oldest ≤ index.length) :
    (index.copySegments current oldest next).length = index.length ∧
      (index.copySegments current oldest next).replaced = index.replaced ∧
      (index.copySegments current oldest next).replacedAt = index.replacedAt ∧
      ∀ n, oldest ≤ n → n < next → (index.copySegments current oldest next).segment n = current.segment n := by
  unfold copySegments
  suffices h : ∀ k, k ≤ index.length →
      let copy := (List.range' oldest k).foldl (fun index n => index.store n (current.segment n)) index
      copy.length = index.length ∧ copy.replaced = index.replaced ∧ copy.replacedAt = index.replacedAt ∧
        ∀ n, oldest ≤ n → n < oldest + k → copy.segment n = current.segment n by
    obtain ⟨h1, h2, h3, h4⟩ := h (next - oldest) hd
    exact ⟨h1, h2, h3, fun n hn hlt => h4 n hn (by omega)⟩
  intro k
  induction k with
  | zero => exact fun _ => ⟨rfl, rfl, rfl, fun n h1 h2 => by omega⟩
  | succ k ih =>
    intro hk
    obtain ⟨h1, h2, h3, h4⟩ := ih (by omega)
    dsimp only at h1 h2 h3 h4 ⊢
    rw [List.range'_concat, List.foldl_append, List.foldl_cons, List.foldl_nil, Nat.one_mul]
    refine ⟨h1, h2, h3, fun n hn hlt => ?_⟩
    rcases Nat.lt_or_ge n (oldest + k) with h | h
    · rw [store_segment_of_ne, h4 n hn h]
      exact entry_ne (h1 ▸ hl) h (by omega)
    · obtain rfl : n = oldest + k := by omega
      exact store_segment_self

end SegmentIndex

/-! ### Segments in use -/

namespace Memory

/-- The segment of a number in the index at `p`. -/
def entryAt (m : Memory α) (p n : Nat) : Option Nat := (m.indexes.get p).bind (·.segment n)

/-- The segment of a number in the current index. -/
def inUse (m : Memory α) (n : Nat) : Option Nat := m.index.bind (m.entryAt · n)

/-- The segments between the oldest and the next are allocated, each with an entry of its own in the current index, and
    the replaced indexes, `chain` with the current one, are allocated too. -/
structure Sound (m : Memory α) (chain : List Nat) : Prop where
  indexes : Heap.Chain SegmentIndex.replaced m.indexes m.index chain
  nodup : chain.Nodup
  length : ∀ index, m.current = some index → ∃ j, index.length = 2 ^ j
  window : m.oldestSegment ≤ m.nextSegment
  fits : ∀ index, m.current = some index → m.nextSegment - m.oldestSegment ≤ index.length
  null : m.index = none → m.nextSegment = 0
  live : ∀ n, m.oldestSegment ≤ n → n < m.nextSegment → ∃ q b, m.inUse n = some q ∧ m.segments.get q = some b
  inj : ∀ n n', m.oldestSegment ≤ n → n < m.nextSegment → m.oldestSegment ≤ n' → n' < m.nextSegment →
    m.inUse n = m.inUse n' → n = n'

/-- What a step leaves to the readers of the segments from `oldest` on: their entries, in every index of the chain. -/
structure KeepsEntries (oldest : Nat) (chain : List Nat) (m t : Memory α) : Prop where
  next : m.nextSegment ≤ t.nextSegment
  entry : ∀ p ∈ chain, ∀ n, oldest ≤ n → n < m.nextSegment → t.entryAt p n = m.entryAt p n
  inUse : ∀ n, oldest ≤ n → n < m.nextSegment → t.inUse n = m.inUse n

/-- And their slots, where nothing is written. -/
structure Keeps (oldest : Nat) (chain : List Nat) (m t : Memory α) : Prop extends KeepsEntries oldest chain m t where
  slots : ∀ n q, oldest ≤ n → n < m.nextSegment → m.inUse n = some q → t.segments.get q = m.segments.get q

theorem current_eq (hp : m.index = some p) : m.current = m.indexes.get p := by
  rw [current, hp, Option.bind_some]

theorem inUse_eq (hc : m.current = some index) : m.inUse n = index.segment n := by
  obtain ⟨p, hp, hi⟩ := Option.bind_eq_some_iff.mp hc
  rw [inUse, hp, Option.bind_some, entryAt, hi, Option.bind_some]

namespace Sound

theorem empty : (Memory.empty : Memory α).Sound [] where
  indexes := rfl
  nodup := .nil
  length _ h := by cases h
  window := Nat.le_refl _
  fits _ h := by cases h
  null _ := rfl
  live n h1 h2 := absurd h2 (Nat.not_lt_zero n)
  inj n _ _ h2 := absurd h2 (Nat.not_lt_zero n)

/-- A buffer with an index has a current one, at the head of the chain. -/
theorem head (h : m.Sound chain) (hp : m.index = some p) :
    ∃ rest index, chain = p :: rest ∧ m.indexes.get p = some index ∧ m.current = some index ∧
      Heap.Chain SegmentIndex.replaced m.indexes index.replaced rest := by
  have hc := h.indexes
  cases hchain : chain with
  | nil =>
    rw [hchain] at hc
    rw [hp] at hc
    cases hc
  | cons q rest =>
    rw [hchain] at hc
    obtain ⟨hq, index, hi, hrest⟩ := hc
    cases hp.symm.trans hq
    exact ⟨rest, index, rfl, hi, (current_eq hp).trans hi, hrest⟩

/-- A segment in use has an index. -/
theorem index_of_lt (h : m.Sound chain) (hn : n < m.nextSegment) : ∃ p, m.index = some p := by
  cases hp : m.index with
  | none =>
    have := h.null hp
    omega
  | some p => exact ⟨p, rfl⟩

end Sound

/-! ### The entries of the current index -/

/-- A change of the current index that leaves the index it replaced. -/
theorem chain_modify (h : m.Sound chain) (hp : m.index = some p) (hi : m.indexes.get p = some index)
    {index' : SegmentIndex} (hr : index'.replaced = index.replaced) :
    Heap.Chain SegmentIndex.replaced ⟨m.indexes.cells.set p (some index')⟩ m.index chain := by
  refine h.indexes.congr fun q _ b hb => ?_
  rcases eq_or_ne q p with rfl | hq
  · cases hi.symm.trans hb
    exact ⟨index', Heap.get_set_self hi, hr⟩
  · exact ⟨b, (Heap.get_set_of_ne hq).trans hb, rfl⟩

theorem storeEntry_eq (hp : m.index = some p) (hi : m.indexes.get p = some index) (e : Option Nat) :
    m.storeEntry n e = some { m with indexes := ⟨m.indexes.cells.set p (some (index.store n e))⟩ } := by
  rw [storeEntry, hp, Option.bind_some, Heap.modify_eq hi, Option.map_some]

/-- A store into the entry of `n` changes no index at the numbers with other entries. -/
theorem entryAt_store (hi : m.indexes.get p = some index) {e : Option Nat} {q n' : Nat}
    (hn : index.entry n' ≠ index.entry n) {segments : Heap (Nat → α)} {next oldest : Nat} {i : Option Nat} :
    Memory.entryAt ⟨segments, ⟨m.indexes.cells.set p (some (index.store n e))⟩, i, next, oldest⟩ q n' =
      m.entryAt q n' := by
  rcases eq_or_ne q p with rfl | hq
  · rw [entryAt, entryAt, hi, Option.bind_some]
    dsimp only
    rw [Heap.get_set_self hi, Option.bind_some, SegmentIndex.store_segment_of_ne hn]
  · rw [entryAt, entryAt]
    dsimp only
    rw [Heap.get_set_of_ne hq]

/-! ### The operations -/

namespace Sound

/-- `replaceIndex` with a length that holds the segments in use: the new index is the head of the chain. -/
theorem replaceIndex (h : m.Sound chain) {length : Nat} (cursor : Nat) (hl : ∃ j, length = 2 ^ j)
    (hfits : m.nextSegment - m.oldestSegment ≤ length) :
    ∃ t q index, m.replaceIndex length cursor = some t ∧ t.Sound (q :: chain) ∧ Keeps m.oldestSegment chain m t ∧
      t.index = some q ∧ t.current = some index ∧ index.length = length ∧ index.replaced = m.index ∧
      index.replacedAt = cursor ∧ t.nextSegment = m.nextSegment ∧ t.oldestSegment = m.oldestSegment ∧
      t.segments = m.segments := by
  -- The index that is installed, whichever it copies.
  suffices hinstall : ∀ index : SegmentIndex, index.length = length → index.replaced = m.index →
      index.replacedAt = cursor →
      (∀ n, m.oldestSegment ≤ n → n < m.nextSegment → index.segment n = m.inUse n) →
      let t : Memory α := { m with
        indexes := (m.indexes.alloc index).1
        index := some (m.indexes.alloc index).2 }
      t.Sound ((m.indexes.alloc index).2 :: chain) ∧ Keeps m.oldestSegment chain m t ∧ t.current = some index by
    unfold Memory.replaceIndex
    cases hp : m.index with
    | none =>
      have h0 := h.null hp
      obtain ⟨h1, h2, h3⟩ := hinstall ⟨length, fun _ => none, none, cursor⟩ rfl hp.symm rfl fun n _ hn => by omega
      exact ⟨_, _, _, rfl, h1, h2, rfl, h3, rfl, rfl, rfl, rfl, rfl, rfl⟩
    | some p =>
      obtain ⟨rest, current, -, hi, hc, -⟩ := h.head hp
      obtain ⟨c1, c2, c3, c4⟩ := SegmentIndex.copySegments_segment ⟨length, fun _ => none, some p, cursor⟩ current
        hl hfits
      obtain ⟨h1, h2, h3⟩ := hinstall _ c1 (c2.trans hp.symm) c3 fun n hn hlt => by rw [inUse_eq hc, c4 n hn hlt]
      dsimp only
      rw [hi, Option.map_some]
      exact ⟨_, _, _, rfl, h1, h2, rfl, h3, c1, c2, c3, rfl, rfl, rfl⟩
  intro index hlen hrep hat hseg t
  have hcur : t.current = some index := by
    rw [current_eq (m := t) rfl]
    exact Heap.get_alloc_self
  have hget : ∀ q ∈ chain, t.indexes.get q = m.indexes.get q := fun q hq => by
    obtain ⟨b, hb⟩ := h.indexes.live hq
    rw [hb]
    exact Heap.get_alloc hb
  have huse : ∀ n, m.oldestSegment ≤ n → n < m.nextSegment → t.inUse n = m.inUse n := fun n hn hlt => by
    rw [inUse_eq hcur, hseg n hn hlt]
  refine ⟨⟨⟨rfl, index, Heap.get_alloc_self, ?_⟩, ?_, ?_, h.window, ?_, (nofun), ?_, ?_⟩, ?_, hcur⟩
  · rw [hrep]
    exact h.indexes.congr_get hget
  · refine List.nodup_cons.mpr ⟨fun hmem => ?_, h.nodup⟩
    obtain ⟨b, hb⟩ := h.indexes.live hmem
    exact Heap.ne_fresh (b := index) hb rfl
  · intro i hi
    cases hcur.symm.trans hi
    exact hlen ▸ hl
  · intro i hi
    cases hcur.symm.trans hi
    exact hlen ▸ hfits
  · intro n hn hlt
    rw [huse n hn hlt]
    exact h.live n hn hlt
  · intro n n' hn hlt hn' hlt' he
    rw [huse n hn hlt, huse n' hn' hlt'] at he
    exact h.inj n n' hn hlt hn' hlt' he
  · refine ⟨⟨Nat.le_refl _, fun q hq n _ _ => ?_, huse⟩, fun _ _ _ _ _ => rfl⟩
    rw [entryAt, entryAt, hget q hq]

/-- A new segment goes into a free entry. -/
theorem allocateSegment [Inhabited α] (h : m.Sound chain) (hc : m.current = some index)
    (hfree : m.nextSegment - m.oldestSegment < index.length) :
    ∃ t q index', m.allocateSegment = some t ∧ t.Sound chain ∧ Keeps m.oldestSegment chain m t ∧
      t.index = m.index ∧ t.current = some index' ∧ index'.length = index.length ∧
      index'.replaced = index.replaced ∧ index'.replacedAt = index.replacedAt ∧
      t.nextSegment = m.nextSegment + 1 ∧ t.oldestSegment = m.oldestSegment ∧
      t.inUse m.nextSegment = some q ∧ t.segments.get q = some fun _ => default := by
  obtain ⟨p, hp, hi⟩ := Option.bind_eq_some_iff.mp hc
  have hl := h.length index hc
  have hw := h.window
  let new := m.segments.alloc fun _ => (default : α)
  let index' := index.store m.nextSegment (some new.2)
  let t : Memory α := ⟨new.1, ⟨m.indexes.cells.set p (some index')⟩, m.index, m.nextSegment + 1, m.oldestSegment⟩
  have ht : m.allocateSegment = some t := by
    unfold Memory.allocateSegment
    dsimp only
    rw [storeEntry_eq (m := { m with segments := new.1 }) hp hi, Option.map_some]
  have hcur : t.current = some index' := by
    rw [current_eq (m := t) hp]
    exact Heap.get_set_self hi
  -- The new entry is none of those in use.
  have hne : ∀ n, m.oldestSegment ≤ n → n < m.nextSegment → index.entry n ≠ index.entry m.nextSegment :=
    fun n hn hlt => SegmentIndex.entry_ne hl hlt (by omega)
  have hentry : ∀ q n, m.oldestSegment ≤ n → n < m.nextSegment → t.entryAt q n = m.entryAt q n :=
    fun q n hn hlt => entryAt_store hi (hne n hn hlt)
  have huse : ∀ n, m.oldestSegment ≤ n → n < m.nextSegment → t.inUse n = m.inUse n := fun n hn hlt => by
    rw [inUse_eq hcur, inUse_eq hc]
    exact SegmentIndex.store_segment_of_ne (hne n hn hlt)
  have hnew : t.inUse m.nextSegment = some new.2 := by
    rw [inUse_eq hcur]
    exact SegmentIndex.store_segment_self
  -- The segments in use are older than the new one.
  have holder : ∀ n, m.oldestSegment ≤ n → n < m.nextSegment → t.inUse n ≠ some new.2 := fun n hn hlt he => by
    obtain ⟨q, b, hq, hb⟩ := h.live n hn hlt
    rw [huse n hn hlt, hq] at he
    exact Heap.ne_fresh hb (Option.some.inj he)
  refine ⟨t, new.2, index', ht, ⟨chain_modify h hp hi SegmentIndex.store_replaced, h.nodup, ?_, ?_, ?_, ?_, ?_, ?_⟩,
    ⟨⟨Nat.le_succ _, fun q _ n hn hlt => hentry q n hn hlt, huse⟩, ?_⟩, rfl, hcur, rfl, rfl, rfl, rfl, rfl, hnew,
    Heap.get_alloc_self⟩
  · intro i hi'
    cases hcur.symm.trans hi'
    exact hl
  · exact Nat.le_succ_of_le hw
  · intro i hi'
    cases hcur.symm.trans hi'
    change m.nextSegment + 1 - m.oldestSegment ≤ index.length
    omega
  · intro hn
    cases hp.symm.trans hn
  · intro n hn hlt
    rcases Nat.lt_succ_iff_lt_or_eq.mp hlt with hlt | rfl
    · obtain ⟨q, b, hq, hb⟩ := h.live n hn hlt
      exact ⟨q, b, (huse n hn hlt).trans hq, Heap.get_alloc hb⟩
    · exact ⟨_, _, hnew, Heap.get_alloc_self⟩
  · intro n n' hn hlt hn' hlt' he
    rcases Nat.lt_succ_iff_lt_or_eq.mp hlt with hlt | rfl <;> rcases Nat.lt_succ_iff_lt_or_eq.mp hlt' with hlt' | rfl
    · rw [huse n hn hlt, huse n' hn' hlt'] at he
      exact h.inj n n' hn hlt hn' hlt' he
    · exact absurd (he.trans hnew) (holder n hn hlt)
    · exact absurd (he.symm.trans hnew) (holder n' hn' hlt')
    · rfl
  · intro n q hn hlt hq
    obtain ⟨q', b, hq', hb⟩ := h.live n hn hlt
    cases hq.symm.trans hq'
    rw [hb]
    exact Heap.get_alloc hb

/-- The oldest segment is freed, and its entry is free. -/
theorem freeSegment (h : m.Sound chain) (hlt : m.oldestSegment < m.nextSegment) (hc : m.current = some index) :
    ∃ t index', m.freeSegment = some t ∧ t.Sound chain ∧ Keeps (m.oldestSegment + 1) chain m t ∧
      t.index = m.index ∧ t.current = some index' ∧ index'.length = index.length ∧
      index'.replaced = index.replaced ∧ index'.replacedAt = index.replacedAt ∧
      t.nextSegment = m.nextSegment ∧ t.oldestSegment = m.oldestSegment + 1 := by
  obtain ⟨p, hp, hi⟩ := Option.bind_eq_some_iff.mp hc
  have hl := h.length index hc
  obtain ⟨s, slots, hs, hslots⟩ := h.live m.oldestSegment (Nat.le_refl _) hlt
  let index' := index.store m.oldestSegment none
  let t : Memory α := ⟨⟨m.segments.cells.set s none⟩, ⟨m.indexes.cells.set p (some index')⟩, m.index, m.nextSegment,
    m.oldestSegment + 1⟩
  have ht : m.freeSegment = some t := by
    rw [Memory.freeSegment, hc, Option.bind_some, storeEntry_eq hp hi, Option.bind_some, ← inUse_eq hc, hs, deallocate]
    dsimp only
    rw [Heap.free_eq hslots, Option.map_some, Option.map_some]
  have hcur : t.current = some index' := by
    rw [current_eq (m := t) hp]
    exact Heap.get_set_self hi
  have hfits := h.fits index hc
  have hne : ∀ n, m.oldestSegment + 1 ≤ n → n < m.nextSegment → index.entry n ≠ index.entry m.oldestSegment :=
    fun n hn hlt => (SegmentIndex.entry_ne hl hn (by omega)).symm
  have huse : ∀ n, m.oldestSegment + 1 ≤ n → n < m.nextSegment → t.inUse n = m.inUse n := fun n hn hlt => by
    rw [inUse_eq hcur, inUse_eq hc]
    exact SegmentIndex.store_segment_of_ne (hne n hn hlt)
  -- The other segments are not the one that is freed.
  have hother : ∀ n q, m.oldestSegment + 1 ≤ n → n < m.nextSegment → m.inUse n = some q →
      t.segments.get q = m.segments.get q := fun n q hn hlt' hq => by
    refine Heap.get_set_of_ne fun hqs => ?_
    have := h.inj n m.oldestSegment (by omega) hlt' (Nat.le_refl _) hlt (hq.trans (hqs ▸ hs.symm))
    omega
  refine ⟨t, index', ht, ⟨chain_modify h hp hi SegmentIndex.store_replaced, h.nodup, ?_, hlt, ?_, ?_, ?_, ?_⟩,
    ⟨⟨Nat.le_refl _, fun q _ n hn hlt => entryAt_store hi (hne n hn hlt), huse⟩, hother⟩, rfl, hcur, rfl, rfl, rfl, rfl, rfl⟩
  · intro i hi'
    cases hcur.symm.trans hi'
    exact hl
  · intro i hi'
    cases hcur.symm.trans hi'
    change m.nextSegment - (m.oldestSegment + 1) ≤ index.length
    omega
  · intro hn
    cases hp.symm.trans hn
  · intro n hn hlt'
    obtain ⟨q, b, hq, hb⟩ := h.live n (Nat.le_of_succ_le hn) hlt'
    exact ⟨q, b, (huse n hn hlt').trans hq, (hother n q hn hlt' hq).trans hb⟩
  · intro n n' hn hlt hn' hlt' he
    rw [huse n hn hlt, huse n' hn' hlt'] at he
    exact h.inj n n' (Nat.le_of_succ_le hn) hlt (Nat.le_of_succ_le hn') hlt' he

/-- The replaced indexes leave the chain. -/
theorem takeReplaced (h : m.Sound (p :: chain)) (hc : m.current = some index) :
    ∃ t index', m.takeReplaced = some (t, index.replaced) ∧ t.Sound [p] ∧ Keeps m.oldestSegment (p :: chain) m t ∧
      t.index = m.index ∧ t.current = some index' ∧ index'.length = index.length ∧ index'.replaced = none ∧
      index'.replacedAt = index.replacedAt ∧ t.nextSegment = m.nextSegment ∧ t.oldestSegment = m.oldestSegment ∧
      Heap.Chain SegmentIndex.replaced t.indexes index.replaced chain := by
  obtain ⟨hp, i, hi, hrest⟩ := h.indexes
  obtain rfl := Option.some.inj (hc.symm.trans ((current_eq hp).trans hi))
  let index' : SegmentIndex := { index with replaced := none }
  let t : Memory α := { m with indexes := ⟨m.indexes.cells.set p (some index')⟩ }
  have ht : m.takeReplaced = some (t, index.replaced) := by
    rw [Memory.takeReplaced, hp, Option.bind_some, hi, Option.bind_some, Heap.modify_eq hi, Option.map_some]
    simp only [t, index', hp]
  have hcur : t.current = some index' := by
    rw [current_eq (m := t) hp]
    exact Heap.get_set_self hi
  have huse : ∀ n, t.inUse n = m.inUse n := fun n => by
    rw [inUse_eq hcur, inUse_eq hc]
    rfl
  have hpc : p ∉ chain := (List.nodup_cons.mp h.nodup).1
  have hother : ∀ q ∈ chain, t.indexes.get q = m.indexes.get q := fun q hq =>
    Heap.get_set_of_ne fun he => hpc (he ▸ hq)
  refine ⟨t, index', ht, ⟨⟨hp, index', Heap.get_set_self hi, rfl⟩, List.pairwise_singleton _ p, ?_, h.window, ?_, h.null,
    ?_, ?_⟩, ⟨⟨Nat.le_refl _, fun q hq n _ _ => ?_, fun n _ _ => huse n⟩, fun _ _ _ _ _ => rfl⟩, rfl, hcur, rfl, rfl,
    rfl, rfl, rfl, hrest.congr_get hother⟩
  · intro i hi'
    cases hcur.symm.trans hi'
    exact h.length index hc
  · intro i hi'
    cases hcur.symm.trans hi'
    exact h.fits index hc
  · intro n hn hlt
    rw [huse]
    exact h.live n hn hlt
  · intro n n' hn hlt hn' hlt' he
    rw [huse, huse] at he
    exact h.inj n n' hn hlt hn' hlt' he
  · rcases List.mem_cons.mp hq with rfl | hq
    · rw [entryAt, entryAt, hi, Heap.get_set_self hi]
      rfl
    · rw [entryAt, entryAt, hother q hq]

/-- An index that has left the chain is freed. -/
theorem freeIndex (h : m.Sound chain) {rest : List Nat}
    (hp : Heap.Chain SegmentIndex.replaced m.indexes (some p) (p :: rest)) (hn : (chain ++ p :: rest).Nodup) :
    ∃ t start, m.freeIndex p = some (t, start) ∧ t.Sound chain ∧ Keeps m.oldestSegment chain m t ∧
      t.index = m.index ∧ t.current = m.current ∧ t.nextSegment = m.nextSegment ∧ t.oldestSegment = m.oldestSegment ∧
      Heap.Chain SegmentIndex.replaced t.indexes start rest := by
  obtain ⟨-, index, hi, hrest⟩ := hp
  obtain ⟨-, hnp, hdisj⟩ := List.nodup_append.mp hn
  let t : Memory α := { m with indexes := ⟨m.indexes.cells.set p none⟩ }
  have ht : m.freeIndex p = some (t, index.replaced) := by
    rw [Memory.freeIndex, hi, Option.bind_some, Heap.free_eq hi, Option.map_some]
  have hother : ∀ q ∈ chain, t.indexes.get q = m.indexes.get q := fun q hq =>
    Heap.get_set_of_ne (hdisj q hq p (.head _))
  have hrest' : ∀ q ∈ rest, t.indexes.get q = m.indexes.get q := fun q hq =>
    Heap.get_set_of_ne fun he => (List.nodup_cons.mp hnp).1 (he ▸ hq)
  have hcur : t.current = m.current := by
    cases hm : m.index with
    | none =>
      rw [current, current, hm]
      rfl
    | some q =>
      obtain ⟨l, i, rfl, -⟩ := h.head hm
      rw [current_eq hm, current_eq (m := t) hm, hother q (.head _)]
  have hentry : ∀ q ∈ chain, ∀ n, t.entryAt q n = m.entryAt q n := fun q hq n => by
    rw [entryAt, entryAt, hother q hq]
  have huse : ∀ n, t.inUse n = m.inUse n := fun n => by
    cases hm : m.index with
    | none =>
      rw [inUse, inUse, hm]
      rfl
    | some q =>
      obtain ⟨l, i, rfl, -⟩ := h.head hm
      rw [inUse, inUse, hm, Option.bind_some, Option.bind_some, hentry q (.head _)]
  refine ⟨t, index.replaced, ht, ⟨h.indexes.congr_get hother, h.nodup, fun i hi => h.length i (hcur ▸ hi), h.window,
    fun i hi => h.fits i (hcur ▸ hi), h.null, fun n hn hlt => ?_, fun n n' hn hlt hn' hlt' he => ?_⟩,
    ⟨⟨Nat.le_refl _, fun q hq n _ _ => hentry q hq n, fun n _ _ => huse n⟩, fun _ _ _ _ _ => rfl⟩, rfl, hcur, rfl, rfl,
    hrest.congr_get hrest'⟩
  · rw [huse]
    exact h.live n hn hlt
  · rw [huse, huse] at he
    exact h.inj n n' hn hlt hn' hlt' he

/-- A write changes one slot. -/
theorem writeSlot (h : m.Sound chain) {shift position s : Nat} {slots : Nat → α} {value : α}
    (hs : m.inUse (segmentNumber shift position) = some s) (hb : m.segments.get s = some slots) :
    ∃ t, m.writeSlot shift position value = some t ∧ t.Sound chain ∧ KeepsEntries m.oldestSegment chain m t ∧
      t.indexes = m.indexes ∧ t.index = m.index ∧ t.nextSegment = m.nextSegment ∧ t.oldestSegment = m.oldestSegment ∧
      t.segments.get s = some (update slots (slotNumber shift position) value) ∧
      ∀ q, q ≠ s → t.segments.get q = m.segments.get q := by
  obtain ⟨p, hp, hps⟩ := Option.bind_eq_some_iff.mp hs
  let t : Memory α := { m with
    segments := ⟨m.segments.cells.set s (some (update slots (slotNumber shift position) value))⟩ }
  have ht : m.writeSlot shift position value = some t := by
    unfold Memory.writeSlot segmentAt
    simp only [entryAt] at hps
    rw [hp, Option.bind_some, hps, Option.bind_some, Heap.modify_eq hb, Option.map_some]
    simp only [t, hp]
  have hself : t.segments.get s = some (update slots (slotNumber shift position) value) :=
    Heap.get_set_self hb
  have hother : ∀ q, q ≠ s → t.segments.get q = m.segments.get q := fun q hq => Heap.get_set_of_ne hq
  refine ⟨t, ht, ⟨h.indexes, h.nodup, h.length, h.window, h.fits, h.null, fun n hn hlt => ?_, h.inj⟩,
    ⟨Nat.le_refl _, fun _ _ _ _ _ => rfl, fun _ _ _ => rfl⟩, rfl, rfl, rfl, rfl, hself, hother⟩
  obtain ⟨q, b, hq, hb'⟩ := h.live n hn hlt
  rcases eq_or_ne q s with rfl | hqs
  · exact ⟨q, _, hq, hself⟩
  · exact ⟨q, b, hq, (hother q hqs).trans hb'⟩

end Sound

end Memory

end GnuRadio.SegmentedBuffer

/-! What holds in every state of a `SegmentedBuffer` in use: the writer's cursors and the reader set, the storage with
    what the live spans hold of it, and what the writer knows of the slowest reader where it frees. -/

namespace GnuRadio.SegmentedBuffer

variable {α ρ : Type} {shift : Nat} {s t : State α ρ} {r : ρ} {chain : List Nat}

/-! ### Segments of positions -/

theorem le_segmentNumber {n x : Nat} : n ≤ segmentNumber shift x ↔ n <<< shift ≤ x := by
  rw [segmentNumber, Nat.shiftRight_eq_div_pow, Nat.shiftLeft_eq, Nat.le_div_iff_mul_le (Nat.two_pow_pos shift)]

theorem segmentNumber_lt {n x : Nat} : segmentNumber shift x < n ↔ x < n <<< shift := by
  rw [segmentNumber, Nat.shiftRight_eq_div_pow, Nat.shiftLeft_eq, Nat.div_lt_iff_lt_mul (Nat.two_pow_pos shift)]

theorem allocatedThrough_iff {m : Memory α} {n : Nat} : m.AllocatedThrough shift n ↔ n ≤ m.nextSegment <<< shift := by
  rw [Memory.AllocatedThrough, segmentNumber_lt]
  generalize m.nextSegment <<< shift = e
  omega

theorem shiftLeft_mono {a b : Nat} (h : a ≤ b) : a <<< shift ≤ b <<< shift := by
  rw [Nat.shiftLeft_eq, Nat.shiftLeft_eq]
  exact Nat.mul_le_mul_right _ h

/-! ### The readers -/

namespace ReaderThread

/-- The position a reader reads from, once its constructor has read it for the second time. -/
def position (value : Nat) : ReaderThread ρ → Option Nat
  | .adding stage => stage.position
  | .notifyAdded | .unmark | .cacheIndex | .attached _ => some value
  | .absent | .removing _ | .notifyRemoved | .destroyed => none

/-- The constructor has put the reader into the list. -/
def Listed : ReaderThread ρ → Prop
  | .notifyAdded | .unmark | .cacheIndex | .attached _ => True
  | .absent | .adding _ | .removing _ | .notifyRemoved | .destroyed => False

/-- The constructor has raised the reader generation. -/
def Announced : ReaderThread ρ → Prop
  | .unmark | .cacheIndex | .attached _ => True
  | .absent | .adding _ | .notifyAdded | .removing _ | .notifyRemoved | .destroyed => False

/-- The reader is marked as attaching. -/
def Marked : ReaderThread ρ → Prop
  | .adding _ | .notifyAdded | .unmark => True
  | .absent | .cacheIndex | .attached _ | .removing _ | .notifyRemoved | .destroyed => False

/-- The reader holds the buffer. -/
def Holds : ReaderThread ρ → Prop
  | .absent | .destroyed => False
  | .adding _ | .notifyAdded | .unmark | .cacheIndex | .attached _ | .removing _ | .notifyRemoved => True

end ReaderThread

def State.value (s : State α ρ) (r : ρ) : Nat := s.impl.claimStrategy.readSequences.value r

def State.position (s : State α ρ) (r : ρ) : Option Nat := (s.readers r).position (s.value r)

/-- What a constructed reader knows: its spans start where it stands, and none goes beyond what is published. -/
structure Handle.Sound (publishCursor value : Nat) (h : Handle) : Prop where
  cached : h.reader.readIndexCached = value
  count : h.reader.instanceCount = h.spans.length
  firstGet : ∀ n, h.reader.nSamplesFirstGet = some n → value + n ≤ publishCursor
  requested : ∀ n, h.reader.nRequestedSamplesToConsume = some n → value + n ≤ publishCursor
  taking : ∀ n policy, h.taking = some (n, policy) → value + n ≤ publishCursor
  spans : ∀ span ∈ h.spans, span.first = value ∧ value + span.size ≤ publishCursor

def ReaderThread.Sound (s : State α ρ) (r : ρ) : ReaderThread ρ → Prop
  | .adding stage => stage.Sound s.publishCursor s.impl.claimStrategy.readSequences r
  | .attached h => h.Sound s.publishCursor (s.value r)
  | .removing stage => stage.Sound s.impl.claimStrategy.readSequences
  | .absent | .notifyAdded | .unmark | .cacheIndex | .notifyRemoved | .destroyed => True

/-- The cursors, the reader set and the writer's snapshot of it. -/
structure Cursors (s : State α ρ) : Prop where
  offset : s.publishCursor ≤ s.writer.writer.claimOffset
  reserve : s.publishCursor ≤ s.impl.claimStrategy.reserveCursor
  value : ∀ r, s.value r ≤ s.publishCursor
  generation : ∀ g, s.impl.claimStrategy.snapshotGeneration = some g → g ≤ s.impl.claimStrategy.readerGeneration
  listed : ∀ r, (s.readers r).Listed → r ∈ s.impl.claimStrategy.readSequences.list.sequences
  announced : s.impl.claimStrategy.snapshotGeneration = some s.impl.claimStrategy.readerGeneration →
    ∀ r, (s.readers r).Announced → r ∈ s.impl.claimStrategy.snapshotReadSequences
  attaching : Counted ReaderThread.Marked s.readers s.impl.nAttachingReaders
  readers : ∀ r, (s.readers r).Sound s r

/-! ### The storage -/

/-- An index that a reader at `v` may still hold: the current one, or one that was replaced at `v` or later. -/
structure Held (m : Memory α) (chain : List Nat) (v p : Nat) : Prop where
  mem : p ∈ chain
  replacedAt : m.index = some p ∨ ∀ index, m.current = some index → v ≤ index.replacedAt

/-- The index of a live span has the span's positions in the segments that the current one has them in. -/
def SpanHeld (shift : Nat) (m : Memory α) (chain : List Nat) (v : Nat) (span : ReaderSpan) : Prop :=
  match span.index with
  | none => span.size = 0
  | some p => Held m chain v p ∧
    ∀ x, span.first ≤ x → x < span.first + span.size → m.segmentAt shift p x = m.inUse (segmentNumber shift x)

/-- What the readers may read is allocated. -/
structure Storage (shift : Nat) (s : State α ρ) (chain : List Nat) : Prop where
  sound : s.impl.memory.Sound chain
  passed : s.impl.memory.oldestSegment <<< shift ≤ s.publishCursor
  position : ∀ r x, s.position r = some x → s.impl.memory.oldestSegment <<< shift ≤ x
  allocated : s.publishCursor ≤ s.impl.memory.nextSegment <<< shift
  spans : ∀ r h, s.readers r = .attached h → ∀ span ∈ h.spans, SpanHeld shift s.impl.memory chain (s.value r) span

/-! ### The writer -/

/-- Each reader with a position is among `readers`, or at or above one of the bounds. -/
def Bounded (s : State α ρ) (readers : ρ → Prop) (bound : Nat → Prop) : Prop :=
  ∀ r x, s.position r = some x → s.publishCursor ≤ x ∨ readers r ∨ bound x

/-- What `getMinReaderCursor` has read of a generation. -/
def MinReader.Loaded (s : State α ρ) : MinReader ρ → Prop
  | .loadSequences generation => generation ≤ s.impl.claimStrategy.readerGeneration
  | .loadGeneration | .readSequence .. | .found _ => True

/-- What `getMinReaderCursor` has established where each reader below the publish position is announced. -/
def MinReader.Sound (s : State α ρ) : MinReader ρ → Prop
  | .loadGeneration | .loadSequences _ => True
  | .readSequence minimum r rest => Bounded s (· ∈ r :: rest) fun x => ∃ m, minimum = some m ∧ m ≤ x
  | .found minReader => Bounded s (fun _ => False) (minReader ≤ ·)

def After.Sound (m : Memory α) : After α → Prop
  | .claim .. => True
  | .grow _ => m.index ≠ none

/-- What the writer knows. From the check of the mark on, each reader below the publish position is announced. -/
def Pc.Sound (s : State α ρ) (chain : List Nat) : Pc α ρ → Prop
  | .idle | .allocate _ => True
  | .claim _ _ _ stage => stage.Loaded s
  | .grow _ => s.impl.memory.index ≠ none
  | .append _ => ∃ index, s.impl.memory.current = some index ∧
      s.impl.memory.nextSegment - s.impl.memory.oldestSegment < index.length
  | .release after => after.Sound s.impl.memory
  | .checkAttaching _ => s.impl.memory.index ≠ none
  | .getRemainingCapacity _ stage => s.impl.memory.index ≠ none ∧
      Bounded s (fun r => (s.readers r).Announced) (fun _ => False) ∧ stage.Loaded s ∧ stage.Sound s
  | .loadReaders _ => s.impl.memory.index ≠ none ∧
      Bounded s (fun r => (s.readers r).Announced) (fun _ => False)
  | .readReaders _ slowest rest => s.impl.memory.index ≠ none ∧ Bounded s (· ∈ rest) (slowest ≤ ·)
  | .freeSegments _ slowestReader => s.impl.memory.index ≠ none ∧ slowestReader ≤ s.publishCursor ∧
      ∀ r x, s.position r = some x → slowestReader ≤ x
  | .freeIndexes _ replaced => s.impl.memory.index ≠ none ∧ ∃ pending,
      Heap.Chain SegmentIndex.replaced s.impl.memory.indexes replaced pending ∧ (chain ++ pending).Nodup

/-- The invariant of a buffer in use. -/
structure Inv (shift : Nat) (s : State α ρ) (chain : List Nat) : Prop where
  cursors : Cursors s
  storage : Storage shift s chain
  pc : s.writer.pc.Sound s chain

theorem Inv.of_initial : Inv shift (initial : State α ρ) [] where
  cursors :=
    { offset := Nat.le_refl _
      reserve := Nat.le_refl _
      value := fun _ => Nat.le_refl _
      generation := fun g hg => by cases hg
      listed := fun _ hr => hr.elim
      announced := nofun
      attaching := .none fun _ => id
      readers := fun _ => trivial }
  storage :=
    { sound := .empty
      passed := Nat.le_of_eq (Nat.zero_shiftLeft shift)
      position := fun r x hx => by cases hx
      allocated := Nat.zero_le _
      spans := fun r h hr => by cases hr }
  pc := trivial

end GnuRadio.SegmentedBuffer
