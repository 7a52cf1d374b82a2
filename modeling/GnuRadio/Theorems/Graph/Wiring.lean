import Mathlib.Algebra.Order.Group.Nat
import GnuRadio.Graph.Wiring
import GnuRadio.Library.Growth

/-! What an update of the wiring does to the streams: the readers, the rings that they read and the outputs that write
    these. -/

namespace GnuRadio.Graph.Wiring

open Function

variable {α β ι ω : Type} {w w' w'' : Wiring α β ι ω}

/-- The readers, and the content and the writers of every ring that is read, are those of before. -/
structure StreamsKept (w w' : Wiring α β ι ω) : Prop where
  reader : w'.reader = w.reader
  ring : ∀ k, w.Reads k → w'.rings[k]? = w.rings[k]?
  current : ∀ o k, w.Reads k → (w'.current o = some k ↔ w.current o = some k)

/-- How far an input and the ring that it reads have got. -/
def progress (w : Wiring α β ι ω) (i : ι) : Nat :=
  match w.reader i with
  | none => 0
  | some r => r.position + r.tagPosition +
      ((w.rings[r.ring]?.map fun R => R.samples.length + R.tags.length).getD 0)

theorem reads_of_reader {i : ι} {r : Reader} (h : w.reader i = some r) : w.Reads r.ring := ⟨i, r, h, rfl⟩

theorem lt_of_reads {k : Nat} (h : w.Reads k) : k < w.rings.length := by
  obtain ⟨i, r, hr, rfl⟩ := h
  obtain ⟨R, hR, -⟩ := w.reader_le i r hr
  exact (List.getElem?_eq_some_iff.mp hR).1

namespace StreamsKept

theorem refl (w : Wiring α β ι ω) : StreamsKept w w := ⟨rfl, fun _ _ => rfl, fun _ _ _ => Iff.rfl⟩

theorem reads (h : StreamsKept w w') {k : Nat} : w'.Reads k ↔ w.Reads k := by
  unfold Reads
  rw [h.reader]

theorem symm (h : StreamsKept w w') : StreamsKept w' w where
  reader := h.reader.symm
  ring k hk := (h.ring k (h.reads.mp hk)).symm
  current o k hk := (h.current o k (h.reads.mp hk)).symm

theorem trans (h : StreamsKept w w') (h' : StreamsKept w' w'') : StreamsKept w w'' where
  reader := h'.reader.trans h.reader
  ring k hk := (h'.ring k (h.reads.mpr hk)).trans (h.ring k hk)
  current o k hk := (h'.current o k (h.reads.mpr hk)).trans (h.current o k hk)

theorem progress_eq (h : StreamsKept w w') : w.progress = w'.progress := by
  funext i
  unfold progress
  rw [h.reader]
  cases hr : w.reader i with
  | none => rfl
  | some r =>
    simp only [h.ring r.ring (reads_of_reader hr)]

theorem queued_eq (h : StreamsKept w w') (i : ι) : w'.queued i = w.queued i := by
  unfold queued
  rw [h.reader]
  cases hr : w.reader i with
  | none => rfl
  | some r =>
    rw [Option.bind_eq_bind, Option.bind_eq_bind, Option.bind_some, Option.bind_some,
      h.ring r.ring (reads_of_reader hr)]

theorem drained (h : StreamsKept w w') (i : ι) : w'.Drained i ↔ w.Drained i := by
  unfold Drained
  rw [h.queued_eq]

theorem nWriters_eq [Fintype ω] (h : StreamsKept w w') (i : ι) : w'.nWriters i = w.nWriters i := by
  unfold nWriters
  rw [h.reader]
  cases hr : w.reader i with
  | none => rfl
  | some r =>
    rw [Option.map_some, Option.map_some]
    simp only [h.current _ _ (reads_of_reader hr)]

theorem inputConnected_eq [Fintype ω] (h : StreamsKept w w') (i : ι) : w'.inputConnected i = w.inputConnected i := by
  unfold inputConnected
  rw [h.nWriters_eq]

theorem hasRoom [Fintype ι] (h : StreamsKept w w') {k : Nat} (hk : w.Reads k) (n : Nat) :
    w'.HasRoom k n ↔ w.HasRoom k n := by
  unfold HasRoom
  rw [h.ring k hk, h.reader]

end StreamsKept

/-- Two states are the same when their streams are; the progress of the inputs tells others apart. -/
theorem frame {σ : Type} (wiring : σ → Wiring α β ι ω) :
    Growth.Frame (fun s t => StreamsKept (wiring s) (wiring t)) (fun s => (wiring s).progress) where
  refl _ := .refl _
  trans h h' := h.trans h'
  symm h := h.symm
  measure_eq h := h.progress_eq

/-! ### Readers -/

section SetReader
variable [DecidableEq ι] {i : ι} {r : Reader} (hr : w.reader i = some r)
include hr

theorem setReader_reader : ∃ r', (w.setReader i r.ring).reader i = some r' ∧ r'.ring = r.ring := by
  obtain ⟨R, hR, -⟩ := w.reader_le i r hr
  refine ⟨⟨r.ring, R.samples.length, R.tags.length⟩, ?_, rfl⟩
  show update w.reader i _ i = _
  rw [update_self, hR]
  rfl

end SetReader

/-! ### Rings -/

section Publish
variable (w) (k : Nat) (samples : List α) (tags : List β)

end Publish

end GnuRadio.Graph.Wiring
