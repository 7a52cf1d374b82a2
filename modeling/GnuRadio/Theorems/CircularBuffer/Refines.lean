import GnuRadio.Theorems.SingleProducer.Attach
import GnuRadio.Buffer.CircularBuffer

/-! The storage of a circular buffer: a slot is seen at two addresses, `size` apart, whichever way the two halves are
    kept alike. -/

namespace GnuRadio.CircularBuffer

variable {α ρ : Type} {l : Layout} {b : BufferImpl α ρ} {a a' index n p q i : Nat} {v w : α}

namespace BufferImpl

/-- Both addresses of position `p`'s slot show `v`. -/
def Holds (l : Layout) (b : BufferImpl α ρ) (p : Nat) (v : α) : Prop :=
  b.load l (p % l.size) = v ∧ b.load l (p % l.size + l.size) = v

theorem load_store_self : (b.store l a v).load l a = v := Function.update_self ..

theorem load_store_of_ne (h : l.cell a' ≠ l.cell a) : (b.store l a v).load l a' = b.load l a' :=
  Function.update_of_ne h ..

theorem cell_mmap (h : l.isMmapAllocated = true) : l.cell a = a % l.size := by rw [Layout.cell, if_pos h]

theorem cell_plain (h : l.isMmapAllocated = false) : l.cell a = a := by rw [Layout.cell, h, if_neg (by decide)]

theorem cell_mod (a : Nat) : l.cell a % l.size = a % l.size := by
  cases h : l.isMmapAllocated with
  | true => rw [cell_mmap h, Nat.mod_mod]
  | false => rw [cell_plain h]

/-- With the double mapping an address shows the slot of each position it is congruent to. -/
theorem holds_mmap (h : l.isMmapAllocated = true) : b.Holds l p v ↔ b.load l p = v := by
  have h1 : b.load l (p % l.size) = b.load l p := by simp only [load, cell_mmap h, Nat.mod_mod]
  have h2 : b.load l (p % l.size + l.size) = b.load l p := by
    simp only [load, cell_mmap h, Nat.add_mod_right, Nat.mod_mod]
  rw [Holds, h1, h2, and_self]

/-- Two positions less than a ring apart have different slots. -/
theorem mod_ne_mod (h : p < q) (h' : q < p + l.size) : q % l.size ≠ p % l.size := fun e => by
  have := Nat.sub_mod_eq_zero_of_mod_eq e
  rw [Nat.mod_eq_of_lt (by omega)] at this
  omega

/-- Where a span that starts at position `q` has the slot of position `q + i`: in the first half or past it. -/
theorem index_add (hi : i < l.size) :
    (q % l.size + i < l.size ∧ (q + i) % l.size = q % l.size + i) ∨
      (l.size ≤ q % l.size + i ∧ (q + i) % l.size + l.size = q % l.size + i) := by
  have hq := Nat.mod_lt q l.pos
  rw [← Nat.mod_add_mod]
  rcases Nat.lt_or_ge (q % l.size + i) l.size with hlt | hge
  · exact .inl ⟨hlt, Nat.mod_eq_of_lt hlt⟩
  · refine .inr ⟨hge, ?_⟩
    have hsub : q % l.size + i - l.size < l.size := by omega
    rw [Nat.mod_eq_sub_mod hge, Nat.mod_eq_of_lt hsub]
    omega

/-- A span of at most `size` slots that starts in the first half shows the slots of consecutive positions. -/
theorem Holds.load (h : b.Holds l (q + i) v) (hi : i < l.size) : b.load l (q % l.size + i) = v := by
  rcases index_add (q := q) hi with ⟨-, hadd⟩ | ⟨-, hadd⟩
  · rw [← hadd]
    exact h.1
  · rw [← hadd]
    exact h.2

/-- A store to an address of another slot is not seen. -/
theorem Holds.store (h : b.Holds l p v) (hne : a % l.size ≠ p % l.size) : (b.store l a w).Holds l p v := by
  have hcell : ∀ x, x % l.size = p % l.size → l.cell x ≠ l.cell a := fun x hx e => by
    apply hne
    rw [← cell_mod (l := l) a, ← e, cell_mod, hx]
  refine ⟨?_, ?_⟩
  · rw [load_store_of_ne (hcell _ (Nat.mod_mod ..))]
    exact h.1
  · rw [load_store_of_ne (hcell _ (by rw [Nat.add_mod_right, Nat.mod_mod]))]
    exact h.2

/-! ### Copies -/

theorem copyN_load (h : l.isMmapAllocated = false) :
    ∀ (n source target : Nat) (b : BufferImpl α ρ), source + n ≤ target ∨ target + n ≤ source →
      (b.copyN l source n target).load l a =
        if target ≤ a ∧ a < target + n then b.load l (source + (a - target)) else b.load l a
  | 0, source, target, b, _ => by
    rw [if_neg (by omega)]
    rfl
  | n + 1, source, target, b, hd => by
    rw [copyN, copyN_load h n (source + 1) (target + 1) _ (by omega)]
    have hcell : ∀ x y, x ≠ y → l.cell x ≠ l.cell y := fun x y hxy => by rwa [cell_plain h, cell_plain h]
    by_cases hin : target + 1 ≤ a ∧ a < target + 1 + n
    · rw [if_pos hin, if_pos (by omega), load_store_of_ne (hcell _ _ (by omega))]
      congr 1
      omega
    · rw [if_neg hin]
      rcases eq_or_ne a target with rfl | ha
      · rw [load_store_self, if_pos (by omega), Nat.sub_self, Nat.add_zero]
      · rw [load_store_of_ne (hcell _ _ ha), if_neg (by omega)]

/-- What the mirror shows at each address. -/
theorem mirror_load (h : l.isMmapAllocated = false) (hi : index < l.size) (hn : n ≤ l.size) :
    (b.mirror l index n).load l a =
      if a < n - min (l.size - index) n then b.load l (a + l.size)
      else if index + l.size ≤ a ∧ a < index + l.size + min (l.size - index) n then b.load l (a - l.size)
      else b.load l a := by
  have hmin := Nat.min_le_left (l.size - index) n
  have hmin' := Nat.min_le_right (l.size - index) n
  have hcase : min (l.size - index) n = n ∨ min (l.size - index) n = l.size - index := by omega
  rw [mirror, copyN_load h _ _ _ _ (by omega)]
  by_cases hlow : a < n - min (l.size - index) n
  · rw [if_pos (by omega), if_pos hlow, copyN_load h _ _ _ _ (by omega), if_neg (by omega)]
    congr 1
    omega
  · rw [if_neg (by omega), if_neg hlow, copyN_load h _ _ _ _ (by omega)]
    by_cases hhigh : index + l.size ≤ a ∧ a < index + l.size + min (l.size - index) n
    · rw [if_pos hhigh, if_pos hhigh]
      congr 1
      omega
    · rw [if_neg hhigh, if_neg hhigh]

/-- After the release both addresses of a published slot show what the writer wrote. -/
theorem holds_mirror (h : l.isMmapAllocated = false) (hn : n ≤ l.size) (hi : i < n)
    (hv : b.load l (p % l.size + i) = v) : (b.mirror l (p % l.size) n).Holds l (p + i) v := by
  have hp := Nat.mod_lt p l.pos
  have hcase : min (l.size - p % l.size) n = n ∧ n ≤ l.size - p % l.size ∨
      min (l.size - p % l.size) n = l.size - p % l.size ∧ l.size - p % l.size ≤ n := by omega
  rcases index_add (q := p) (Nat.lt_of_lt_of_le hi hn) with ⟨hlt, hadd⟩ | ⟨hge, hback⟩
  · refine ⟨?_, ?_⟩
    · rw [hadd, mirror_load h hp hn, if_neg (by omega), if_neg (by omega)]
      exact hv
    · rw [hadd, mirror_load h hp hn, if_neg (by omega), if_pos (by omega), Nat.add_sub_cancel]
      exact hv
  · refine ⟨?_, ?_⟩
    · rw [mirror_load h hp hn, if_pos (by omega), hback]
      exact hv
    · rw [mirror_load h hp hn, if_neg (by omega), if_neg (by omega), hback]
      exact hv

/-- A slot that is not published keeps what it shows. -/
theorem Holds.mirror (h : l.isMmapAllocated = false) (hn : n ≤ l.size) (hq : b.Holds l q v)
    (hne : ∀ i, i < n → (p + i) % l.size ≠ q % l.size) : (b.mirror l (p % l.size) n).Holds l q v := by
  have hp := Nat.mod_lt p l.pos
  have hq' := Nat.mod_lt q l.pos
  have hcase : min (l.size - p % l.size) n = n ∧ n ≤ l.size - p % l.size ∨
      min (l.size - p % l.size) n = l.size - p % l.size ∧ l.size - p % l.size ≤ n := by omega
  -- The slot lies outside both parts of the claim.
  have hlow : ¬ q % l.size < n - min (l.size - p % l.size) n := fun hlt => by
    apply hne (l.size - p % l.size + q % l.size) (by omega)
    have : p + (l.size - p % l.size + q % l.size) = q % l.size + l.size * (p / l.size + 1) := by
      have := Nat.mod_add_div p l.size
      rw [Nat.mul_succ]
      omega
    rw [this, Nat.add_mul_mod_self_left, Nat.mod_mod]
  have hhigh : ¬ (p % l.size ≤ q % l.size ∧ q % l.size < p % l.size + min (l.size - p % l.size) n) := fun hin => by
    apply hne (q % l.size - p % l.size) (by omega)
    have : p + (q % l.size - p % l.size) = q % l.size + l.size * (p / l.size) := by
      have := Nat.mod_add_div p l.size
      omega
    rw [this, Nat.add_mul_mod_self_left, Nat.mod_mod]
  refine ⟨?_, ?_⟩
  · rw [mirror_load h hp hn, if_neg hlow, if_neg (by omega)]
    exact hq.1
  · rw [mirror_load h hp hn, if_neg (by omega), if_neg (by omega)]
    exact hq.2

end BufferImpl

end GnuRadio.CircularBuffer

/-! A circular buffer with one writer is a bounded FIFO: what its operations return is what a FIFO of `size` slots may
    return, as long as a refused reservation is not the last span of a claim to be released. -/

namespace GnuRadio.CircularBuffer

open Function
open SingleProducerStrategy (Strategy)
open BufferImpl

variable {α ρ : Type} {l : Layout} {s t : State α ρ} {f : Fifo.State α ρ} {r : ρ}

/-! ### What an operation shows -/

/-- The event of a reservation: none inside a live one, and none for no slots. -/
def reserveEvent (l : Layout) (s : State α ρ) (n : Nat) : List (Fifo.Event α ρ) :=
  if 0 < s.writer.instanceCount ∨ n = 0 then []
  else match (s.buffer.claimStrategy.tryNext l.size n).2 with
    | some _ => [.reserve n]
    | none => [.full n]

/-- What each operation shows at the FIFO. A span's element `i` is position `i` after the reader's own position. A
    claim is published when the last span that holds it is released. -/
def events (l : Layout) (s : State α ρ) : Act α ρ → List (Fifo.Event α ρ)
  | .tryReserve n _ | .reserve n _ => reserveEvent l s n
  | .write _ i value => [.write i value]
  | .releaseWriterSpan k =>
    match s.writerSpans[k]? with
    | some span =>
      if span.isRefused ∨ s.writer.instanceCount ≠ 1 then []
      else match span.requested { s.writer with instanceCount := s.writer.instanceCount - 1 } with
        | some w => [.publish (w.nRequestedSamplesToPublish.getD 0)]
        | none => []
    | none => []
  | .attach r => [.attach r]
  | .detach r => [.detach r]
  | .available r =>
    match s.readers r with
    | some a => [.available r (a.reader.available s.publishCursor)]
    | none => []
  | .get r nRequested policy =>
    match s.readers r with
    | some a => [.get r (a.reader.get l s.publishCursor nRequested policy).2.size]
    | none => []
  | .read r k i =>
    match s.readers r with
    | some a =>
      match a.spans[k]? with
      | some span => [.read r (a.reader.readIndexCached + i) (s.buffer.load l (span.index + i))]
      | none => []
    | none => []
  | .releaseReaderSpan r k =>
    match s.readers r with
    | some a =>
      match a.spans[k]? with
      | some span =>
        if a.reader.instanceCount = 1 then
          match span.nConsumed s.publishCursor a.reader with
          | some n => [.consume r n]
          | none => []
        else []
      | none => []
    | none => []
  | .copyWriterSpan _ | .publish .. | .copyReaderSpan .. | .tryConsume .. => []

/-- A refused reservation is not the last span of a claim to be released. -/
def ReleasedByHolder (s : State α ρ) : Act α ρ → Prop
  | .releaseWriterSpan k => ∀ span ∈ s.writerSpans[k]?, span.isRefused = true → s.writer.instanceCount = 1 →
      s.writer.internalSpan.size = 0
  | _ => True

section

variable [DecidableEq ρ] {q : ρ} {a : Option Acquisition}

theorem setReader_self : (s.setReader r a).readers r = a := update_self ..

theorem setReader_of_ne (h : q ≠ r) : (s.setReader r a).readers q = s.readers q := update_of_ne h ..

theorem readers_setReader {b : Acquisition} (h : (s.setReader r a).readers q = some b) :
    (q = r ∧ a = some b) ∨ (q ≠ r ∧ s.readers q = some b) := by
  rcases eq_or_ne q r with rfl | hq
  · exact .inl ⟨rfl, setReader_self.symm.trans h⟩
  · exact .inr ⟨hq, (setReader_of_ne hq).symm.trans h⟩

end

/-! ### The relation -/

/-- What a reader knows of the spans it handed out: they start at its position, and none is longer than the first one
    of the acquisition, which was available. -/
structure Acquisition.Sound (l : Layout) (publishCursor : Nat) (a : Acquisition) : Prop where
  count : a.reader.instanceCount = a.spans.length
  unset : a.spans = [] → a.reader.nSamplesFirstGet = none ∧ a.reader.nRequestedSamplesToConsume = none
  first : ∀ m, a.reader.nSamplesFirstGet = some m → a.reader.readIndexCached + m ≤ publishCursor
  span : ∀ sp ∈ a.spans, sp.index = a.reader.readIndexCached % l.size ∧
    ∃ m, a.reader.nSamplesFirstGet = some m ∧ sp.size ≤ m
  requested : ∀ n, a.reader.nRequestedSamplesToConsume = some n →
    ∃ m, a.reader.nSamplesFirstGet = some m ∧ n ≤ m

theorem Acquisition.Sound.mono {a : Acquisition} {c c' : Nat} (h : a.Sound l c) (hc : c ≤ c') : a.Sound l c' :=
  ⟨h.count, h.unset, fun m hm => Nat.le_trans (h.first m hm) hc, h.span, h.requested⟩

/-- The buffer holds the FIFO's contents: each reader finds the stream from its position on at both addresses of each
    slot, and the writer its claim at the addresses of its span. -/
structure Represents [DecidableEq ρ] (l : Layout) (s : State α ρ) (f : Fifo.State α ρ) : Prop where
  published : s.publishCursor = f.published.length
  offset : s.writer.offset = s.publishCursor
  reserve : s.buffer.claimStrategy.reserveCursor = s.publishCursor + f.claim.length
  span : s.writer.internalSpan.size = f.claim.length
  first : f.claim ≠ [] →
    s.writer.internalSpan.first = s.publishCursor % l.size ∧ s.writer.index = s.publishCursor % l.size
  capacity : f.claim.length ≤ l.size
  count : s.writer.instanceCount = s.writerSpans.length
  live : f.claim ≠ [] → s.writerSpans ≠ []
  requested : s.writer.nRequestedSamplesToPublish.getD 0 ≤ f.claim.length
  claimed : ∀ i v, f.claim[i]? = some (some v) → s.buffer.load l (s.publishCursor % l.size + i) = v
  readable : ∀ r q, f.position r = some q → ∀ p v, q ≤ p → f.published[p]? = some (some v) → s.buffer.Holds l p v
  position : ∀ r, f.position r = (s.readers r).map (·.reader.readIndexCached)
  value : ∀ r q, f.position r = some q → s.buffer.claimStrategy.readSequences.value r = q
  listed : ∀ r, r ∈ s.buffer.claimStrategy.readSequences.list.sequences ↔ (f.position r).isSome
  snapshot : s.buffer.claimStrategy.Snapshot
  acquisitions : ∀ r a, s.readers r = some a → a.Sound l s.publishCursor
  bounded : f.Bounded l.size

namespace Represents

variable [DecidableEq ρ]

theorem of_initial [Inhabited α] : Represents l (initial : State α ρ) Fifo.init where
  published := rfl
  offset := rfl
  reserve := rfl
  span := rfl
  first h := absurd rfl h
  capacity := Nat.zero_le _
  count := rfl
  live h := absurd rfl h
  requested := Nat.le_refl _
  claimed i v h := by simp [Fifo.init] at h
  readable r q h := by cases h
  position r := rfl
  value r q h := by cases h
  listed r := by simp [initial, Strategy.init, Fifo.init]
  snapshot := ⟨fun g h => (by cases h), fun h => (by cases h)⟩
  acquisitions r a h := by cases h
  bounded r q h := by cases h

variable {a : Acquisition}

theorem position_of (h : Represents l s f) (hr : s.readers r = some a) :
    f.position r = some a.reader.readIndexCached := by
  rw [h.position, hr, Option.map_some]

/-- Without a live span there is no claim. -/
theorem claim_nil (h : Represents l s f) (hc : s.writer.instanceCount = 0) : f.claim = [] := by
  by_contra hne
  exact h.live hne (List.length_eq_zero_iff.mp (h.count.symm.trans hc))

/-! ### The writer -/

/-- The writer's own bookkeeping, with the claim and the offset as they are. -/
theorem writer (h : Represents l s f) {w : Writer} {spans : List WriterSpan} (ho : w.offset = s.writer.offset)
    (hs : w.internalSpan = s.writer.internalSpan) (hi : w.index = s.writer.index)
    (hc : w.instanceCount = spans.length) (hl : f.claim ≠ [] → spans ≠ [])
    (hr : w.nRequestedSamplesToPublish.getD 0 ≤ f.claim.length) :
    Represents l { s with writer := w, writerSpans := spans } f :=
  { h with
    offset := ho.trans h.offset
    span := hs ▸ h.span
    first := by
      dsimp only
      rw [hs, hi]
      exact h.first
    count := hc
    live := hl
    requested := hr }

theorem values_le (h : Represents l s f) : ∀ r ∈ s.buffer.claimStrategy.readSequences.list.sequences,
    s.buffer.claimStrategy.readSequences.value r ≤ s.buffer.claimStrategy.reserveCursor := fun r hr => by
  obtain ⟨q, hq⟩ := Option.isSome_iff_exists.mp ((h.listed r).mp hr)
  have := (h.bounded r q hq).1
  rw [h.value r q hq, h.reserve, h.published]
  omega

/-- `tryReserve` is a reservation of the FIFO, its refusal, or nothing. -/
theorem tryReserve (h : Represents l s f) (n : Nat) (policy : SpanReleasePolicy) :
    ∃ g, Transition.System.Accepts (Fifo.Step l.size) f (reserveEvent l s n) g ∧
      Represents l (s.tryReserve l n policy) g := by
  have hspans : ∀ span : WriterSpan, (s.writerSpans ++ [span]).length = s.writer.instanceCount + 1 := fun span => by
    rw [List.length_append, h.count, List.length_singleton]
  by_cases hc : 0 < s.writer.instanceCount
  · refine ⟨f, ?_, ?_⟩
    · rw [reserveEvent, if_pos (.inl hc)]
      exact rfl
    · simp only [State.tryReserve, Writer.tryReserve, if_pos hc]
      exact h.writer rfl rfl rfl (hspans _).symm (fun _ => List.append_ne_nil_of_right_ne_nil _ (by simp)) h.requested
  have hclaim := h.claim_nil (Nat.eq_zero_of_not_pos hc)
  rcases Nat.eq_zero_or_pos n with rfl | hn
  · refine ⟨f, ?_, ?_⟩
    · rw [reserveEvent, if_pos (.inr rfl)]
      exact rfl
    · simp only [State.tryReserve, Writer.tryReserve, if_neg hc, if_true]
      exact h.writer rfl rfl rfl (hspans _).symm (fun _ => List.append_ne_nil_of_right_ne_nil _ (by simp))
        (Nat.zero_le _)
  have hno : ¬ (0 < s.writer.instanceCount ∨ n = 0) := by omega
  have hreserve : s.buffer.claimStrategy.reserveCursor = s.publishCursor := by
    rw [h.reserve, hclaim, List.length_nil, Nat.add_zero]
  by_cases hfit : n ≤ l.size ∧ ∀ r ∈ s.buffer.claimStrategy.readSequences.list.sequences,
      s.buffer.claimStrategy.reserveCursor + n ≤ s.buffer.claimStrategy.readSequences.value r + l.size
  · have htry := Strategy.tryNext_granted h.snapshot hn h.values_le hfit.1 hfit.2
    have hroom : ∀ r q, f.position r = some q → f.published.length + n ≤ q + l.size := fun r q hq => by
      have := hfit.2 r ((h.listed r).mpr (by rw [hq]; rfl))
      rwa [h.value r q hq, hreserve, h.published] at this
    have hstep : Fifo.Step l.size f (.reserve n) { f with claim := List.replicate n none } :=
      .reserve hfit.1 hclaim hroom
    refine ⟨{ f with claim := List.replicate n none }, ?_, ?_⟩
    · rw [reserveEvent, if_neg hno, htry]
      exact .single hstep
    have hindex : calculateIndex l.size (s.buffer.claimStrategy.reserveCursor + n + l.size - n) =
        s.publishCursor % l.size := by
      rw [calculateIndex_eq_mod, hreserve, show s.publishCursor + n + l.size - n = s.publishCursor + l.size by omega,
        Nat.add_mod_right]
    simp only [State.tryReserve, Writer.tryReserve, if_neg hc, if_neg (Nat.ne_of_gt hn), htry, hindex]
    exact
      { published := h.published
        offset := by
          show s.buffer.claimStrategy.reserveCursor + n - n = s.publishCursor
          omega
        reserve := by
          show s.buffer.claimStrategy.reserveCursor + n = s.publishCursor + (List.replicate n none).length
          rw [hreserve, List.length_replicate]
        span := by simp only [List.length_replicate]
        first := fun _ => ⟨rfl, rfl⟩
        capacity := by simpa only [List.length_replicate] using hfit.1
        count := (hspans _).symm
        live := fun _ => List.append_ne_nil_of_right_ne_nil _ (by simp)
        requested := Nat.zero_le _
        claimed := fun i v hi => by simp [List.getElem?_replicate] at hi
        readable := h.readable
        position := h.position
        value := h.value
        listed := h.listed
        snapshot := ⟨Strategy.snapshot_refreshed.1, Strategy.snapshot_refreshed.2⟩
        acquisitions := h.acquisitions
        bounded := h.bounded.step h.capacity hstep }
  · have htry := Strategy.tryNext_refused h.snapshot hn h.values_le hfit
    have hstep : Fifo.Step l.size f (.full n) f := by
      refine .full ?_
      by_contra hno
      simp only [not_or, not_exists, not_and, Nat.not_lt] at hno
      refine hfit ⟨hno.1, fun r hr => ?_⟩
      obtain ⟨q, hq⟩ := Option.isSome_iff_exists.mp ((h.listed r).mp hr)
      rw [h.value r q hq, hreserve, h.published]
      exact hno.2 r q hq
    refine ⟨f, ?_, ?_⟩
    · rw [reserveEvent, if_neg hno, htry]
      exact .single hstep
    simp only [State.tryReserve, Writer.tryReserve, if_neg hc, if_neg (Nat.ne_of_gt hn), htry]
    exact
      { h with
        count := (hspans _).symm
        live := fun _ => List.append_ne_nil_of_right_ne_nil _ (by simp)
        requested := Nat.zero_le _
        snapshot := Strategy.snapshot_refreshed }

/-- A write goes to the claim's slot and to no slot that a reader has still to read. -/
theorem write (h : Represents l s f) {i : Nat} (v : α) (hi : i < s.writer.internalSpan.size) :
    Fifo.Step l.size f (.write i v) { f with claim := f.claim.set i (some v) } ∧
      Represents l { s with buffer := s.buffer.store l (s.writer.internalSpan.first + i) v }
        { f with claim := f.claim.set i (some v) } := by
  rw [h.span] at hi
  have hstep : Fifo.Step l.size f (.write i v) { f with claim := f.claim.set i (some v) } := .write hi
  have hne : f.claim ≠ [] := List.ne_nil_of_length_pos (Nat.lt_of_le_of_lt (Nat.zero_le i) hi)
  have hcap := h.capacity
  refine ⟨hstep, ?_⟩
  rw [(h.first hne).1]
  exact
    { h with
      reserve := by
        rw [List.length_set]
        exact h.reserve
      span := by simpa only [List.length_set] using h.span
      first := fun _ => h.first hne
      capacity := by simpa only [List.length_set] using h.capacity
      live := fun _ => h.live hne
      requested := by simpa only [List.length_set] using h.requested
      claimed := fun j w hj => by
        show (s.buffer.store l (s.publishCursor % l.size + i) v).load l (s.publishCursor % l.size + j) = w
        rcases eq_or_ne j i with rfl | hji
        · rw [List.getElem?_set_self hi] at hj
          cases hj
          exact load_store_self
        · rw [List.getElem?_set_ne hji.symm] at hj
          have hj' : j < f.claim.length := (List.getElem?_eq_some_iff.mp hj).1
          rw [← h.claimed j w hj]
          refine load_store_of_ne fun e => ?_
          have hmod := congrArg (· % l.size) e
          simp only [cell_mod] at hmod
          rcases Nat.lt_or_gt_of_ne hji with hlt | hgt
          · exact mod_ne_mod (l := l) (p := s.publishCursor % l.size + j) (by omega) (by omega) hmod.symm
          · exact mod_ne_mod (l := l) (p := s.publishCursor % l.size + i) (by omega) (by omega) hmod
      readable := fun r q hq p w hp hw => by
        have hp' : p < f.published.length := (List.getElem?_eq_some_iff.mp hw).1
        have hb := (h.bounded r q hq).2
        refine (h.readable r q hq p w hp hw).store ?_
        rw [Nat.mod_add_mod, h.published]
        exact mod_ne_mod (by omega) (by omega)
      bounded := h.bounded.step h.capacity hstep }

/-- What `publish` and the release policy make of a request stays within the claim. -/
theorem requested_spec {span : WriterSpan} {w w' : Writer} (h : span.requested w = some w')
    (hr : span.isRefused = false) (hw : w.nRequestedSamplesToPublish.getD 0 ≤ w.internalSpan.size) :
    w' = { w with nRequestedSamplesToPublish := w'.nRequestedSamplesToPublish } ∧
      w'.nRequestedSamplesToPublish.getD 0 ≤ w.internalSpan.size := by
  have hpublish : ∀ n, (span.publish w n) =
      { w with nRequestedSamplesToPublish := (span.publish w n).nRequestedSamplesToPublish } ∧
      (span.publish w n).nRequestedSamplesToPublish.getD 0 ≤ w.internalSpan.size := fun n => by
    simp only [WriterSpan.publish, hr, Bool.false_eq_true, if_false, Option.getD_some, true_and]
    omega
  rw [WriterSpan.requested] at h
  split at h
  · cases h
    exact ⟨rfl, hw⟩
  · split at h <;> cases h
    · exact hpublish _
    · exact hpublish _

omit [DecidableEq ρ] in
/-- The published slots show at both addresses what the writer wrote, the others what they showed before. -/
theorem commit_holds {b : BufferImpl α ρ} {w : Writer} {n p : Nat} {v : α}
    (hn : w.nRequestedSamplesToPublish.getD 0 = n) (hsize : n ≤ l.size) {c : Nat} (hi : 0 < n → w.index = c % l.size)
    (hv : (b.Holds l p v ∧ ∀ i, i < n → (c + i) % l.size ≠ p % l.size) ∨
      ∃ i, i < n ∧ p = c + i ∧ b.load l (c % l.size + i) = v) :
    (w.commit l b).1.Holds l p v := by
  subst hn
  cases hm : l.isMmapAllocated with
  | true =>
    have hkeep : (w.commit l b).1.Holds l p v ↔ b.Holds l p v := by simp only [Writer.commit, hm]; exact Iff.rfl
    rw [hkeep]
    rcases hv with ⟨h, -⟩ | ⟨i, hi, rfl, h⟩
    · exact h
    · rw [holds_mmap hm, ← h]
      simp only [load, cell_mmap hm, Nat.mod_add_mod]
  | false =>
    have hkeep : (w.commit l b).1.Holds l p v ↔
        (b.mirror l w.index (w.nRequestedSamplesToPublish.getD 0)).Holds l p v := by
      simp only [Writer.commit, hm]
      exact Iff.rfl
    rw [hkeep]
    rcases Nat.eq_zero_or_pos (w.nRequestedSamplesToPublish.getD 0) with hz | hpos
    · rw [hz, mirror, Nat.min_zero]
      rcases hv with ⟨h, -⟩ | ⟨i, hi, -⟩
      · exact h
      · omega
    · rw [hi hpos]
      rcases hv with ⟨h, hne⟩ | ⟨i, hi, rfl, h⟩
      · exact h.mirror hm hsize hne
      · exact holds_mirror hm hsize hi h

/-- The last release of a claim publishes what was requested of it. -/
theorem commit (h : Represents l s f) {w : Writer} {k : Nat}
    (hw : w = { s.writer with instanceCount := 0, nRequestedSamplesToPublish := w.nRequestedSamplesToPublish })
    (hr : w.nRequestedSamplesToPublish.getD 0 ≤ s.writer.internalSpan.size) (hk : s.writerSpans.eraseIdx k = []) :
    let n := w.nRequestedSamplesToPublish.getD 0
    let g : Fifo.State α ρ := { f with published := f.published ++ f.claim.take n, claim := [] }
    Fifo.Step l.size f (.publish n) g ∧
      Represents l { s with
        buffer := (w.commit l s.buffer).1
        writer := (w.commit l s.buffer).2
        writerSpans := s.writerSpans.eraseIdx k } g := by
  intro n g
  rw [h.span] at hr
  have hoffset : w.offset = s.publishCursor := by
    rw [hw]
    exact h.offset
  have hindex : 0 < n → w.index = s.publishCursor % l.size := fun hn => by
    rw [hw]
    exact (h.first (List.ne_nil_of_length_pos (Nat.lt_of_lt_of_le hn hr))).2
  have hlen : g.published.length = s.publishCursor + n := by
    simp only [g, List.length_append, List.length_take, h.published]
    omega
  have hstep : Fifo.Step l.size f (.publish n) g := .publish hr
  have hstrategy : (w.commit l s.buffer).1.claimStrategy = s.buffer.claimStrategy.publish w.offset n := by
    have hcopy : ∀ (m source target : Nat) (b : BufferImpl α ρ),
        (b.copyN l source m target).claimStrategy = b.claimStrategy := fun m => by
      induction m with
      | zero => exact fun _ _ _ => rfl
      | succ m ih => exact fun _ _ _ => ih ..
    simp only [Writer.commit]
    split
    · rfl
    · rw [mirror, hcopy, hcopy]
  have hcursor : (w.commit l s.buffer).1.claimStrategy.publishCursor = s.publishCursor + n := by
    rw [hstrategy, Strategy.publish, hoffset]
  refine ⟨hstep, ?_⟩
  exact
    { published := hcursor.trans hlen.symm
      offset := by
        show w.offset + n = _
        rw [State.publishCursor, hcursor, hoffset]
      reserve := by
        show (w.commit l s.buffer).1.claimStrategy.reserveCursor = _
        rw [State.publishCursor, hcursor, hstrategy, Strategy.publish, hoffset]
        rfl
      span := rfl
      first := fun hne => absurd rfl hne
      capacity := Nat.zero_le _
      count := by
        rw [hk, hw]
        rfl
      live := fun hne => absurd rfl hne
      requested := Nat.le_refl _
      claimed := fun i v hi => by simp [g] at hi
      readable := fun r q hq p v hp hv => by
        have hb := (h.bounded r q hq).2
        refine commit_holds rfl (Nat.le_trans hr h.capacity) hindex ?_
        rcases Nat.lt_or_ge p f.published.length with hlt | hge
        · rw [List.getElem?_append_left hlt] at hv
          refine .inl ⟨h.readable r q hq p v hp hv, fun i hi => ?_⟩
          rw [h.published]
          exact mod_ne_mod (by omega) (by omega)
        · rw [List.getElem?_append_right hge] at hv
          have hlt := (List.getElem?_eq_some_iff.mp hv).1
          rw [List.length_take] at hlt
          rw [List.getElem?_take_of_lt (by omega)] at hv
          exact .inr ⟨p - f.published.length, by omega, by rw [h.published]; omega, h.claimed _ v hv⟩
      position := h.position
      value := by
        rw [hstrategy]
        exact h.value
      listed := by
        rw [hstrategy]
        exact h.listed
      snapshot := by
        rw [hstrategy]
        exact ⟨h.snapshot.1, h.snapshot.2⟩
      acquisitions := fun r a hr => by
        rw [State.publishCursor, hcursor]
        exact (h.acquisitions r a hr).mono (Nat.le_add_right ..)
      bounded := h.bounded.step h.capacity hstep }

/-! ### The readers -/

/-- A reader's own bookkeeping, at the position where it is. -/
theorem reader (h : Represents l s f) {a a' : Acquisition} (hr : s.readers r = some a)
    (hp : a'.reader.readIndexCached = a.reader.readIndexCached) (ha : a'.Sound l s.publishCursor) :
    Represents l (s.setReader r (some a')) f :=
  { h with
    position := fun q => by
      rcases eq_or_ne q r with rfl | hq
      · rw [setReader_self, h.position_of hr, Option.map_some, hp]
      · rw [setReader_of_ne hq]
        exact h.position q
    acquisitions := fun q b hb => by
      rcases readers_setReader hb with ⟨-, hb⟩ | ⟨-, hb⟩
      · cases hb
        exact ha
      · exact h.acquisitions q b hb }

theorem attach (h : Represents l s f) (hr : s.readers r = none) :
    let g : Fifo.State α ρ := { f with position := update f.position r (some f.published.length) }
    Fifo.Step l.size f (.attach r) g ∧ Represents l
      ({ s with buffer := { s.buffer with claimStrategy := addReader s.buffer.claimStrategy r } }.setReader r
        (some ⟨.new s.publishCursor, []⟩)) g := by
  intro g
  have hnone : f.position r = none := by rw [h.position, hr, Option.map_none]
  have hstep : Fifo.Step l.size f (.attach r) g := .attach hnone
  refine ⟨hstep, ?_⟩
  exact
    { h with
      readable := fun q x hq p v hp hv => by
        rcases Fifo.position_update hq with ⟨-, hx⟩ | ⟨-, hq⟩
        · -- Nothing is published from there on.
          cases hx
          have := (List.getElem?_eq_some_iff.mp hv).1
          exact absurd hp (Nat.not_le.mpr this)
        · exact h.readable q x hq p v hp hv
      position := fun q => by
        simp only [g]
        rcases eq_or_ne q r with rfl | hq
        · rw [update_self, setReader_self, Option.map_some, Reader.new, h.published]
        · rw [update_of_ne hq, setReader_of_ne hq]
          exact h.position q
      value := fun q x hq => by
        show update s.buffer.claimStrategy.readSequences.value r s.publishCursor q = x
        rcases Fifo.position_update hq with ⟨rfl, hx⟩ | ⟨hne, hq⟩
        · rw [update_self, h.published]
          exact Option.some.inj hx
        · rw [update_of_ne hne]
          exact h.value q x hq
      listed := fun q => by
        show q ∈ s.buffer.claimStrategy.readSequences.list.sequences ++ [r] ↔ _
        rw [List.mem_append, List.mem_singleton, h.listed]
        rcases eq_or_ne q r with rfl | hq
        · simp only [g, update_self, Option.isSome_some, or_true]
        · simp only [g, update_of_ne hq, hq, or_false]
      snapshot := ⟨fun x hx => Nat.le_succ_of_le (h.snapshot.generation x hx), fun hx => by
        have := h.snapshot.generation _ hx
        exact absurd this (Nat.not_succ_le_self _)⟩
      acquisitions := fun q b hb => by
        rcases readers_setReader hb with ⟨-, hb⟩ | ⟨-, hb⟩
        · cases hb
          exact ⟨rfl, fun _ => ⟨rfl, rfl⟩, fun m hm => (by cases hm), fun sp hsp => (by cases hsp),
            fun n hn => (by cases hn)⟩
        · exact h.acquisitions q b hb
      bounded := h.bounded.step h.capacity hstep }

theorem detach (h : Represents l s f) (hr : s.readers r = some a) :
    let g : Fifo.State α ρ := { f with position := update f.position r none }
    Fifo.Step l.size f (.detach r) g ∧ Represents l
      ({ s with buffer := { s.buffer with claimStrategy := removeReader s.buffer.claimStrategy r } }.setReader r none)
      g := by
  intro g
  have hstep : Fifo.Step l.size f (.detach r) g := .detach (h.position_of hr)
  have hold : ∀ {q x}, g.position q = some x → q ≠ r ∧ f.position q = some x := fun hq => by
    rcases Fifo.position_update hq with ⟨-, hx⟩ | hq
    · cases hx
    · exact hq
  refine ⟨hstep, ?_⟩
  exact
    { h with
      readable := fun q x hq => h.readable q x (hold hq).2
      position := fun q => by
        simp only [g]
        rcases eq_or_ne q r with rfl | hq
        · rw [update_self, setReader_self, Option.map_none]
        · rw [update_of_ne hq, setReader_of_ne hq]
          exact h.position q
      value := fun q x hq => h.value q x (hold hq).2
      listed := fun q => by
        show q ∈ s.buffer.claimStrategy.readSequences.list.sequences.filter (· ≠ r) ↔ _
        rw [List.mem_filter, decide_eq_true_iff, h.listed]
        rcases eq_or_ne q r with rfl | hq
        · simp only [g, update_self, Option.isSome_none, ne_eq, not_true_eq_false, and_false,
            Bool.false_eq_true]
        · simp only [g, update_of_ne hq, ne_eq, hq, not_false_eq_true, and_true]
      snapshot := ⟨fun x hx => Nat.le_succ_of_le (h.snapshot.generation x hx), fun hx => by
        have := h.snapshot.generation _ hx
        exact absurd this (Nat.not_succ_le_self _)⟩
      acquisitions := fun q b hb => by
        rcases readers_setReader hb with ⟨-, hb⟩ | ⟨-, hb⟩
        · cases hb
        · exact h.acquisitions q b hb
      bounded := h.bounded.step h.capacity hstep }

/-- The first span of an acquisition is available, and a later one is no longer. -/
theorem get (h : Represents l s f) (hr : s.readers r = some a) {nRequested : Option Nat}
    (policy : SpanReleasePolicy) (hn : nRequested.getD 0 ≤ a.reader.available s.publishCursor) :
    let o := a.reader.get l s.publishCursor nRequested policy
    Fifo.Step l.size f (.get r o.2.size) f ∧
      Represents l (s.setReader r (some ⟨o.1, a.spans ++ [o.2]⟩)) f := by
  intro o
  have ha := h.acquisitions r a hr
  have hq := h.position_of hr
  have hle : a.reader.readIndexCached ≤ s.publishCursor := h.published ▸ (h.bounded r _ hq).1
  have hsamples : nRequested.getD (a.reader.available s.publishCursor) ≤ s.publishCursor - a.reader.readIndexCached := by
    cases nRequested with
    | none => exact Nat.le_refl _
    | some n => exact hn
  have hcount : o.1.instanceCount = (a.spans ++ [o.2]).length := by
    have : o.1.instanceCount = a.reader.instanceCount + 1 := by
      simp only [o, Reader.get]
      split <;> rfl
    rw [this, ha.count, List.length_append, List.length_singleton]
  have hne : a.spans ++ [o.2] ≠ [] := List.append_ne_nil_of_right_ne_nil _ (by simp)
  cases hfirst : a.reader.nSamplesFirstGet with
  | none =>
    -- No span is live and nothing is requested.
    have hnil : a.spans = [] := List.eq_nil_iff_forall_not_mem.mpr fun sp hsp => by
      obtain ⟨-, m, hm, -⟩ := ha.span sp hsp
      rw [hfirst] at hm
      cases hm
    have ho : o = ({ a.reader with
        instanceCount := a.reader.instanceCount + 1
        nSamplesFirstGet := some (nRequested.getD (a.reader.available s.publishCursor))
        nSamplesConsumed := 0 },
        ⟨calculateIndex l.size a.reader.readIndexCached, nRequested.getD (a.reader.available s.publishCursor), policy⟩) := by
      simp only [o, Reader.get, hfirst]
    rw [ho] at hcount hne ⊢
    refine ⟨.get hq ?_, h.reader hr rfl ⟨hcount, fun hnil => absurd hnil hne, fun m hm => ?_, fun sp hsp => ?_,
      fun n hn => ?_⟩⟩
    · rw [← h.published]
      dsimp only
      omega
    · cases hm
      dsimp only
      omega
    · rw [hnil, List.nil_append, List.mem_singleton] at hsp
      subst hsp
      exact ⟨calculateIndex_eq_mod .., _, rfl, Nat.le_refl _⟩
    · rw [(ha.unset hnil).2] at hn
      cases hn
  | some m =>
    have hm := ha.first m hfirst
    have ho : o = ({ a.reader with instanceCount := a.reader.instanceCount + 1 },
        ⟨calculateIndex l.size a.reader.readIndexCached,
          min (nRequested.getD (a.reader.available s.publishCursor)) m, policy⟩) := by
      simp only [o, Reader.get, hfirst]
    rw [ho] at hcount hne ⊢
    refine ⟨.get hq ?_, h.reader hr rfl ⟨hcount, fun hnil => absurd hnil hne, ha.first, fun sp hsp => ?_, ha.requested⟩⟩
    · rw [← h.published]
      dsimp only
      omega
    · rcases List.mem_append.mp hsp with hsp | hsp
      · exact ha.span sp hsp
      · rw [List.mem_singleton] at hsp
        subst hsp
        exact ⟨calculateIndex_eq_mod .., m, hfirst, Nat.min_le_right ..⟩

/-- An element of a live span is the stream's at that position. -/
theorem read (h : Represents l s f) (hr : s.readers r = some a) {sp : ReaderSpan} (hsp : sp ∈ a.spans)
    {i : Nat} (hi : i < sp.size) :
    Fifo.Step l.size f (.read r (a.reader.readIndexCached + i) (s.buffer.load l (sp.index + i))) f := by
  have ha := h.acquisitions r a hr
  have hq := h.position_of hr
  obtain ⟨hindex, m, hfirst, hm⟩ := ha.span sp hsp
  have hpub := ha.first m hfirst
  have hb := (h.bounded r _ hq).2
  have hlt : a.reader.readIndexCached + i < f.published.length := by
    rw [← h.published]
    omega
  refine .read hq (Nat.le_add_right ..) (List.getElem?_eq_getElem hlt) fun x hx => ?_
  have hread := h.readable r _ hq _ x (Nat.le_add_right _ i) (by rw [List.getElem?_eq_getElem hlt, hx])
  rw [hindex]
  exact hread.load (by omega)

/-- What the last release takes is what was handed out at most. -/
theorem nConsumed_le {c : Nat} (ha : a.Sound l c) (hc : a.reader.readIndexCached ≤ c)
    {sp : ReaderSpan} {n : Nat} (hn : sp.nConsumed c a.reader = some n) : a.reader.readIndexCached + n ≤ c := by
  rw [ReaderSpan.nConsumed] at hn
  split at hn
  case h_1 n' hreq =>
    cases hn
    obtain ⟨m, hm, hle⟩ := ha.requested _ hreq
    have := ha.first m hm
    omega
  case h_2 =>
    split at hn
    · cases hn
    · split at hn <;> cases hn
      · split
        · rename_i hle
          rw [Reader.available] at hle
          omega
        · omega
      · omega
    · cases hn
      omega

/-- The last release moves the reader on. -/
theorem consume (h : Represents l s f) (hr : s.readers r = some a) {n : Nat}
    (hn : a.reader.readIndexCached + n ≤ s.publishCursor) (reader : Reader) (spans : List ReaderSpan)
    (hreader : reader.readIndexCached = a.reader.readIndexCached) (hcount : reader.instanceCount = 0)
    (hspans : spans = []) :
    let g : Fifo.State α ρ :=
      { f with position := update f.position r (some (a.reader.readIndexCached + n)) }
    let sequences := s.buffer.claimStrategy.readSequences
    Fifo.Step l.size f (.consume r n) g ∧ Represents l
      ({ s with buffer := { s.buffer with claimStrategy := { s.buffer.claimStrategy with
        readSequences := if n = 0 then sequences else sequences.setValue r (a.reader.readIndexCached + n) } }
      }.setReader r (some ⟨reader.performConsume n, spans⟩)) g := by
  intro g sequences
  have hq := h.position_of hr
  have hstep : Fifo.Step l.size f (.consume r n) g := .consume hq (h.published ▸ hn)
  have hlist : (if n = 0 then sequences else sequences.setValue r (a.reader.readIndexCached + n)).list =
      sequences.list := by
    split <;> rfl
  refine ⟨hstep, ?_⟩
  exact
    { h with
      readable := fun q x hx p v hp hv => by
        rcases Fifo.position_update hx with ⟨rfl, hx'⟩ | ⟨-, hx⟩
        · cases hx'
          exact h.readable q _ hq p v (Nat.le_trans (Nat.le_add_right ..) hp) hv
        · exact h.readable q x hx p v hp hv
      position := fun q => by
        simp only [g]
        rcases eq_or_ne q r with rfl | hne
        · rw [update_self, setReader_self, Option.map_some, Reader.performConsume, hreader]
        · rw [update_of_ne hne, setReader_of_ne hne]
          exact h.position q
      value := fun q x hx => by
        show (if n = 0 then sequences else sequences.setValue r (a.reader.readIndexCached + n)).value q = x
        rcases Fifo.position_update hx with ⟨rfl, hx'⟩ | ⟨hne, hx⟩
        · cases hx'
          split
          case isTrue hz =>
            rw [hz, Nat.add_zero]
            exact h.value q _ hq
          case isFalse => exact ReadSequences.setValue_self
        · rw [← h.value q x hx]
          split
          · rfl
          · exact ReadSequences.setValue_of_ne hne
      listed := fun q => by
        show q ∈ (if n = 0 then sequences else sequences.setValue r (a.reader.readIndexCached + n)).list.sequences ↔ _
        rw [hlist, h.listed]
        rcases eq_or_ne q r with rfl | hne
        · simp only [g, update_self, hq, Option.isSome_some]
        · simp only [g, update_of_ne hne]
      snapshot := ⟨h.snapshot.1, fun hx => by
        show _ = (if n = 0 then sequences else sequences.setValue r (a.reader.readIndexCached + n)).list.sequences
        rw [hlist]
        exact h.snapshot.2 hx⟩
      acquisitions := fun q b hb => by
        rcases readers_setReader hb with ⟨-, hb⟩ | ⟨-, hb⟩
        · cases hb
          subst hspans
          exact ⟨hcount, fun _ => ⟨rfl, rfl⟩, fun m hm => (by cases hm), fun sp hsp => (by cases hsp),
            fun n hn => (by cases hn)⟩
        · exact h.acquisitions q b hb
      bounded := h.bounded.step h.capacity hstep }

/-! ### Steps and runs -/

omit [DecidableEq ρ] in
theorem length_erase {β : Type} {xs : List β} {k : Nat} {x : β} (h : xs[k]? = some x) :
    (xs.eraseIdx k).length = xs.length - 1 := by
  rw [List.length_eraseIdx, if_pos (List.getElem?_eq_some_iff.mp h).1]

/-- The release of a writer's span. -/
theorem releaseWriterSpan (h : Represents l s f) {k : Nat} {span : WriterSpan} (hk : s.writerSpans[k]? = some span)
    (hok : span.isRefused = true → s.writer.instanceCount = 1 → s.writer.internalSpan.size = 0)
    {buffer : BufferImpl α ρ} {writer : Writer} (hs : span.release l s.buffer s.writer = some (buffer, writer)) :
    ∃ g, Transition.System.Accepts (Fifo.Step l.size) f (events l s (.releaseWriterSpan k)) g ∧
      Represents l { s with buffer := buffer, writer := writer, writerSpans := s.writerSpans.eraseIdx k } g := by
  have hlen := length_erase hk
  rw [← h.count] at hlen
  -- Where the claim goes on, some span is left, or the claim was empty.
  have hgo : (s.writer.instanceCount = 1 → f.claim = []) → Represents l { s with
      writer := { s.writer with instanceCount := s.writer.instanceCount - 1 }
      writerSpans := s.writerSpans.eraseIdx k } f := fun hone => by
    refine h.writer rfl rfl rfl hlen.symm (fun hne hnil => hne (hone ?_)) h.requested
    rw [hnil, List.length_nil] at hlen
    have : 0 < s.writer.instanceCount := by
      rw [h.count]
      exact Nat.lt_of_le_of_lt (Nat.zero_le k) (List.getElem?_eq_some_iff.mp hk).1
    omega
  simp only [WriterSpan.release] at hs
  cases hrefused : span.isRefused with
  | true =>
    rw [hrefused, if_pos rfl] at hs
    cases hs
    refine ⟨f, ?_, hgo fun hone => ?_⟩
    · simp only [events, hk, hrefused, true_or, if_true]
      exact rfl
    · exact List.length_eq_zero_iff.mp (h.span ▸ hok hrefused hone)
  | false =>
    rw [hrefused, if_neg Bool.false_ne_true] at hs
    split at hs
    case isFalse hne =>
      cases hs
      refine ⟨f, ?_, hgo fun hone => absurd (by omega) hne⟩
      have : s.writer.instanceCount ≠ 1 := by omega
      simp only [events, hk, this, ne_eq, not_false_eq_true, or_true, if_true]
      exact rfl
    case isTrue hlast =>
      obtain ⟨w, hw, hcommit⟩ := Option.map_eq_some_iff.mp hs
      have hone : s.writer.instanceCount = 1 := by
        have : 0 < s.writer.instanceCount := by
          rw [h.count]
          exact Nat.lt_of_le_of_lt (Nat.zero_le k) (List.getElem?_eq_some_iff.mp hk).1
        omega
      obtain ⟨hw', hle⟩ := requested_spec hw hrefused (h.span ▸ h.requested)
      have hnil : s.writerSpans.eraseIdx k = [] := List.length_eq_zero_iff.mp (hlen.trans hlast)
      obtain ⟨hstep, hrep⟩ := h.commit (w := w) (by rw [hw', hlast]) hle hnil
      rw [hcommit] at hrep
      refine ⟨_, ?_, hrep⟩
      simp only [events, hk, hrefused, hone, ne_eq, not_true_eq_false, or_self, Bool.false_eq_true, if_false]
      rw [hone] at hw
      rw [hw]
      exact .single hstep

/-- The release of a reader's span. -/
theorem releaseReaderSpan (h : Represents l s f) {k : Nat} {sp : ReaderSpan}
    (hr : s.readers r = some a) (hk : a.spans[k]? = some sp) (hs : s.releaseReaderSpan r k a sp = some t) :
    ∃ g, Transition.System.Accepts (Fifo.Step l.size) f (events l s (.releaseReaderSpan r k)) g ∧ Represents l t g := by
  have ha := h.acquisitions r a hr
  have hlen := length_erase hk
  rw [← ha.count] at hlen
  have hpos : 0 < a.reader.instanceCount := by
    rw [ha.count]
    exact Nat.lt_of_le_of_lt (Nat.zero_le k) (List.getElem?_eq_some_iff.mp hk).1
  simp only [State.releaseReaderSpan] at hs
  split at hs
  case isFalse hne =>
    cases hs
    refine ⟨f, ?_, h.reader hr rfl ⟨hlen.symm, fun hnil => ?_, ha.first, fun x hx => ?_, ha.requested⟩⟩
    · have : a.reader.instanceCount ≠ 1 := by omega
      simp only [events, hr, hk, if_neg this]
      exact rfl
    · have hzero : (a.spans.eraseIdx k).length = 0 := congrArg List.length hnil
      exact absurd (hlen.symm.trans hzero) hne
    · exact ha.span x (List.mem_of_mem_eraseIdx hx)
  case isTrue hlast =>
    obtain ⟨n, hn, rfl⟩ := Option.map_eq_some_iff.mp hs
    have hle : a.reader.readIndexCached ≤ s.publishCursor := h.published ▸ (h.bounded r _ (h.position_of hr)).1
    have hn' : sp.nConsumed s.publishCursor a.reader = some n := hn
    obtain ⟨hstep, hrep⟩ := h.consume hr (nConsumed_le ha hle hn')
      { a.reader with instanceCount := a.reader.instanceCount - 1 } (a.spans.eraseIdx k) rfl hlast
      (List.length_eq_zero_iff.mp (hlen.trans hlast))
    refine ⟨_, ?_, hrep⟩
    have : a.reader.instanceCount = 1 := by omega
    simp only [events, hr, hk, if_pos this, hn']
    exact .single hstep

/-- Every operation shows what the FIFO may do, and leaves the buffer with the FIFO's contents. -/
theorem step [Inhabited α] (h : Represents l s f) {a : Act α ρ} (hok : ReleasedByHolder s a)
    (hs : CircularBuffer.step l s a = some t) :
    ∃ g, Transition.System.Accepts (Fifo.Step l.size) f (events l s a) g ∧ Represents l t g := by
  cases a with
  | tryReserve n policy =>
    cases hs
    exact h.tryReserve n policy
  | reserve n policy =>
    simp only [CircularBuffer.step] at hs
    split at hs
    · cases hs
    · cases hs
      exact h.tryReserve n policy
  | copyWriterSpan k =>
    obtain ⟨span, -, rfl⟩ := Option.map_eq_some_iff.mp hs
    refine ⟨f, rfl, h.writer rfl rfl rfl ?_ (fun _ => List.append_ne_nil_of_right_ne_nil _ (by simp)) h.requested⟩
    rw [List.length_append, List.length_singleton, h.count]
  | write k i value =>
    obtain ⟨span, -, hs⟩ := Option.bind_eq_some_iff.mp hs
    split at hs
    case isTrue => cases hs
    case isFalse hi =>
      cases hs
      obtain ⟨hstep, hrep⟩ := h.write value (Nat.not_le.mp fun hle => hi (.inr hle))
      exact ⟨_, .single hstep, hrep⟩
  | publish k n =>
    obtain ⟨span, -, rfl⟩ := Option.map_eq_some_iff.mp hs
    refine ⟨f, rfl, ?_⟩
    cases hrefused : span.isRefused with
    | true =>
      rw [WriterSpan.publish, if_pos hrefused]
      exact h
    | false =>
      rw [WriterSpan.publish, hrefused, if_neg Bool.false_ne_true]
      refine h.writer rfl rfl rfl h.count h.live ?_
      have := h.requested
      have := h.span
      simp only [Option.getD_some]
      omega
  | releaseWriterSpan k =>
    obtain ⟨span, hk, hs⟩ := Option.bind_eq_some_iff.mp hs
    obtain ⟨⟨buffer, writer⟩, hrelease, rfl⟩ := Option.map_eq_some_iff.mp hs
    exact h.releaseWriterSpan hk (hok span hk) hrelease
  | attach r =>
    simp only [CircularBuffer.step] at hs
    split at hs
    case h_1 => cases hs
    case h_2 hr =>
      cases hs
      obtain ⟨hstep, hrep⟩ := h.attach hr
      exact ⟨_, .single hstep, hrep⟩
  | detach r =>
    obtain ⟨a, hr, hs⟩ := Option.bind_eq_some_iff.mp hs
    split at hs
    case isFalse => cases hs
    case isTrue =>
      cases hs
      obtain ⟨hstep, hrep⟩ := h.detach hr
      exact ⟨_, .single hstep, hrep⟩
  | available r =>
    obtain ⟨a, hr, rfl⟩ := Option.map_eq_some_iff.mp hs
    refine ⟨f, ?_, h⟩
    simp only [events, hr, Reader.available, h.published]
    exact .single (.available (h.position_of hr))
  | get r nRequested policy =>
    obtain ⟨a, hr, hs⟩ := Option.bind_eq_some_iff.mp hs
    split at hs
    case isFalse => cases hs
    case isTrue hn =>
      cases hs
      obtain ⟨hstep, hrep⟩ := h.get hr policy hn
      refine ⟨f, ?_, hrep⟩
      simp only [events, hr]
      exact .single hstep
  | copyReaderSpan r k =>
    obtain ⟨a, hr, hs⟩ := Option.bind_eq_some_iff.mp hs
    obtain ⟨sp, hk, rfl⟩ := Option.map_eq_some_iff.mp hs
    have ha := h.acquisitions r a hr
    refine ⟨f, rfl, h.reader hr rfl ⟨?_, fun hnil => ?_, ha.first, fun x hx => ?_, ha.requested⟩⟩
    · rw [List.length_append, List.length_singleton, ← ha.count]
    · exact absurd hnil (List.append_ne_nil_of_right_ne_nil _ (by simp))
    · rcases List.mem_append.mp hx with hx | hx
      · exact ha.span x hx
      · rw [List.mem_singleton.mp hx]
        exact ha.span sp (List.mem_of_getElem? hk)
  | read r k i =>
    obtain ⟨a, hr, hs⟩ := Option.bind_eq_some_iff.mp hs
    obtain ⟨sp, hk, hs⟩ := Option.bind_eq_some_iff.mp hs
    split at hs
    case isFalse => cases hs
    case isTrue hi =>
      cases hs
      refine ⟨f, ?_, h⟩
      simp only [events, hr, hk]
      exact .single (h.read hr (List.mem_of_getElem? hk) hi)
  | tryConsume r n =>
    obtain ⟨a, hr, hs⟩ := Option.bind_eq_some_iff.mp hs
    split at hs
    case isTrue => cases hs
    case isFalse hne =>
      cases hs
      have ha := h.acquisitions r a hr
      refine ⟨f, rfl, h.reader hr ?_ ?_⟩
      · simp only [Reader.tryConsume]
        split
        · rfl
        · split <;> rfl
      · simp only [Reader.tryConsume]
        split
        · exact ha
        · split
          · exact ha
          · -- The request is within the first span.
            rename_i hle
            refine ⟨ha.count, fun hnil => absurd hnil hne, ha.first, ha.span, fun m hm => ?_⟩
            cases hm
            obtain ⟨sp, rest, hsp⟩ := List.exists_cons_of_ne_nil hne
            obtain ⟨-, x, hx, -⟩ := ha.span sp (hsp ▸ (.head _))
            rw [hx, Option.getD_some] at hle
            exact ⟨x, hx, Nat.not_lt.mp hle⟩
  | releaseReaderSpan r k =>
    obtain ⟨a, hr, hs⟩ := Option.bind_eq_some_iff.mp hs
    obtain ⟨sp, hk, hs⟩ := Option.bind_eq_some_iff.mp hs
    exact h.releaseReaderSpan hr hk hs

end Represents

/-- What the operations of a run return is what a bounded FIFO of `size` slots returns, and in the end the buffer holds
    the FIFO's contents: in every run in which a refused reservation is never the last span of a claim to be
    released. -/
theorem fifo_refinement [DecidableEq ρ] [Inhabited α] {es : List (Fifo.Event α ρ)}
    (h : (system l).Trace ReleasedByHolder (events l) es s) :
    ∃ f, Transition.System.Accepts (Fifo.Step l.size) Fifo.init es f ∧ Represents l s f :=
  h.simulates (fun _ e => e ▸ .of_initial) fun _ _ _ _ hr hok hs => hr.step hok hs

instance [DecidableEq ρ] (s : State α ρ) (a : Act α ρ) : Decidable (ReleasedByHolder s a) := by
  unfold ReleasedByHolder
  split <;> infer_instance

/-- A portable ring of three slots. -/
def threeSlots : Layout := ⟨3, false, by decide⟩

/-- A reader takes two values one by one, and the second claim crosses the wrap point. -/
def wrapAround : List (Act Nat Unit) :=
  [.attach (), .tryReserve 2 .processAll, .write 0 0 7, .write 0 1 8, .releaseWriterSpan 0,
    .get () none .processNone, .read () 0 1, .tryConsume () 2, .releaseReaderSpan () 0,
    .tryReserve 2 .processNone, .write 0 1 9, .publish 0 2, .releaseWriterSpan 0,
    .get () (some 2) .processAll, .read () 0 1, .releaseReaderSpan () 0, .available ()]

theorem fifo_refinement_wrap : ∃ f : Fifo.State Nat Unit,
    Transition.System.Accepts (Fifo.Step 3) Fifo.init
      [.attach (), .reserve 2, .write 0 7, .write 1 8, .publish 2, .get () 2, .read () 1 8, .consume () 2,
        .reserve 2, .write 1 9, .publish 2, .get () 2, .read () 3 9, .consume () 2, .available () 0] f ∧
      Represents threeSlots (((system threeSlots).run initial wrapAround).get (by decide)) f :=
  fifo_refinement (l := threeSlots)
    ((system threeSlots).trace_get wrapAround rfl (by decide) (by decide))

/-- A reservation inside a live one is refused, and its span is released after the other one. -/
def refusedLast : List (Act Nat Unit) :=
  [.attach (), .tryReserve 2 .processNone, .write 0 0 7, .publish 0 1, .tryReserve 1 .processNone,
    .releaseWriterSpan 0, .releaseWriterSpan 0,
    .tryReserve 1 .processNone, .publish 0 1, .releaseWriterSpan 0, .get () none .processNone, .read () 0 1]

/-- The claim of two slots is neither published nor given back when its spans are gone, and the next claim makes both
    visible: no FIFO shows the reader a third slot after one was published of the first claim and one of the next. -/
theorem refusedLast_no_fifo : ¬ ∀ (l : Layout) (es : List (Fifo.Event Nat Unit)) (s : State Nat Unit),
    (system l).Trace (fun _ _ => True) (events l) es s →
      ∃ f, Transition.System.Accepts (Fifo.Step l.size) Fifo.init es f := fun h => by
  have htrace : (system threeSlots).Trace (fun _ _ => True) (events threeSlots)
      ((system threeSlots).eventsOf (events threeSlots) initial refusedLast) _ :=
    (system threeSlots).trace_get refusedLast rfl (Transition.System.meets_true _ _) (by decide)
  have hes : (system threeSlots).eventsOf (events threeSlots) initial refusedLast =
      [.attach (), .reserve 2, .write 0 7, .reserve 1, .publish 1, .get () 3, .read () 1 0] := rfl
  rw [hes] at htrace
  obtain ⟨f, _, h1, _, h2, _, h3, _, h4, -⟩ := h threeSlots _ _ htrace
  cases h1
  cases h2
  cases h3
  cases h4 with
  | reserve _ hc _ => simp at hc

end GnuRadio.CircularBuffer
