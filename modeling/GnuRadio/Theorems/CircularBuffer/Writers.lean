import GnuRadio.Buffer.Writers
import GnuRadio.Theorems.CircularBuffer.Refines

/-! Several writers on one buffer: a reservation without slots leaves the cursors where they are exactly when its
    writer's offset is the publish cursor and nothing is reserved, and then `primePort` appends what it was asked for or
    changes nothing that a reader sees. -/

namespace GnuRadio.Writers

open CircularBuffer Function
open SingleProducerStrategy (Strategy)

variable {α ω ρ : Type} {l : Layout} {s t : State α ω ρ}

/-! ### What a reader sees -/

/-- The samples that a reader has still to read, at the addresses of a span of all of them. -/
def samples (l : Layout) (b : BufferImpl α ρ) (reader : Reader) : List α :=
  (List.range (reader.available b.claimStrategy.publishCursor)).map fun i =>
    b.load l (calculateIndex l.size reader.readIndexCached + i)

/-- Every published slot was written, or holds what lay there before. -/
def Written (f : Fifo.State α ρ) : Prop := ∃ stream : List α, f.published = stream.map some

section

variable [DecidableEq ρ] {u u' : CircularBuffer.State α ρ} {f g : Fifo.State α ρ} {a : CircularBuffer.Act α ρ}
  {b : BufferImpl α ρ}

/-- Where the buffer holds a stream, a reader sees the part of it that it has not read. -/
theorem samples_eq (h : Represents l u f) (hb : u.buffer = b) {r : ρ} {acq : Acquisition}
    (hr : u.readers r = some acq) {stream : List α} (hf : f.published = stream.map some) :
    samples l b acq.reader = stream.drop acq.reader.readIndexCached := by
  subst hb
  have hq := h.position_of hr
  have hlen : u.publishCursor = stream.length := by rw [h.published, hf, List.length_map]
  have hb := h.bounded r _ hq
  rw [← h.published, hlen] at hb
  refine List.ext_getElem ?_ fun i hi hi' => ?_
  · rw [samples, List.length_map, List.length_range, List.length_drop, ← hlen]
    rfl
  · rw [List.length_drop] at hi'
    have hp : acq.reader.readIndexCached + i < stream.length := by omega
    have hsome : f.published[acq.reader.readIndexCached + i]? = some (some stream[acq.reader.readIndexCached + i]) := by
      rw [hf, List.getElem?_map, List.getElem?_eq_getElem hp, Option.map_some]
    have hholds := h.readable r _ hq _ _ (Nat.le_add_right _ i) hsome
    simp only [samples, List.getElem_map, List.getElem_range, List.getElem_drop, calculateIndex_eq_mod]
    exact hholds.load (by omega)

/-- A claimed slot that nobody wrote holds what lay there before. -/
theorem fill_claim (h : Represents l u f) : ∃ claim : List α, Represents l u { f with claim := claim.map some } := by
  refine ⟨(List.range f.claim.length).map fun i => u.buffer.load l (u.publishCursor % l.size + i), ?_⟩
  have hlen : (((List.range f.claim.length).map fun i =>
      u.buffer.load l (u.publishCursor % l.size + i)).map some).length = f.claim.length := by
    rw [List.length_map, List.length_map, List.length_range]
  have hne : ((List.range f.claim.length).map fun i =>
      u.buffer.load l (u.publishCursor % l.size + i)).map some ≠ [] → f.claim ≠ [] := fun hne hnil => by
    rw [hnil] at hne
    exact hne rfl
  exact
    { h with
      reserve := by rw [hlen]; exact h.reserve
      span := by rw [hlen]; exact h.span
      first := fun hc => h.first (hne hc)
      capacity := by rw [hlen]; exact h.capacity
      live := fun hc => h.live (hne hc)
      requested := by rw [hlen]; exact h.requested
      claimed := fun i v hi => by
        simp only [List.map_map, List.getElem?_map, Option.map_eq_some_iff, Function.comp_apply] at hi
        obtain ⟨j, hj, hv⟩ := hi
        obtain ⟨_, hj⟩ := List.getElem?_eq_some_iff.mp hj
        rw [List.getElem_range] at hj
        exact hj ▸ Option.some.inj hv
      bounded := fun r q hq => by
        rw [hlen]
        exact h.bounded r q hq }

omit [DecidableEq ρ] in
/-- An operation shows at most one event. -/
theorem events_cases (u : CircularBuffer.State α ρ) (a : CircularBuffer.Act α ρ) :
    events l u a = [] ∨ ∃ e, events l u a = [e] := by
  cases a <;> simp only [events, reserveEvent]
  all_goals (repeat' split)
  all_goals simp

/-- An operation keeps the stream so far, and what it publishes was written or lay there before. -/
theorem step_written [Inhabited α] (h : Represents l u f) (hf : Written f) (hok : ReleasedByHolder u a)
    (hs : CircularBuffer.step l u a = some u') :
    ∃ g, Represents l u' g ∧ Written g ∧ f.published <+: g.published := by
  obtain ⟨stream, hstream⟩ := hf
  obtain ⟨claim, hfill⟩ := fill_claim h
  obtain ⟨g, hacc, hrep⟩ := hfill.step hok hs
  rcases events_cases u a with he | ⟨e, he⟩
  · rw [he] at hacc
    cases hacc
    exact ⟨_, hrep, ⟨stream, hstream⟩, List.prefix_refl _⟩
  · rw [he] at hacc
    obtain ⟨g, hstep, rfl⟩ := hacc
    have hprefix := Fifo.published_prefix hstep
    refine ⟨_, hrep, ?_, hprefix⟩
    cases hstep with
    | @publish n hn => exact ⟨stream ++ claim.take n, by simp only [hstream, List.map_append, List.map_take]⟩
    | _ => exact ⟨stream, hstream⟩

/-! ### Writers without a claim -/

/-- A writer that holds no claim. -/
structure Idle (writer : Writer) (spans : List WriterSpan) : Prop where
  span : writer.internalSpan.size = 0
  requested : writer.nRequestedSamplesToPublish.getD 0 = 0
  count : writer.instanceCount = spans.length

theorem idle_of_claim (h : Represents l u f) (hc : f.claim = []) : Idle u.writer u.writerSpans where
  span := by rw [h.span, hc, List.length_nil]
  requested := by
    have := h.requested
    rw [hc] at this
    exact Nat.le_zero.mp this
  count := h.count

theorem claim_of_idle (h : Represents l u f) (hi : Idle u.writer u.writerSpans) : f.claim = [] :=
  List.length_eq_zero_iff.mp (h.span.symm.trans hi.span)

/-- Where nobody holds a claim, any writer at the publish cursor may stand for the one writer. -/
theorem represents_idle (h : Represents l u f) (hc : f.claim = []) {writer : Writer} {spans : List WriterSpan}
    (hi : Idle writer spans) (ho : writer.offset = u.publishCursor) :
    Represents l { u with writer := writer, writerSpans := spans } f :=
  { h with
    offset := ho
    span := by
      rw [hc]
      exact hi.span
    first := fun hne => absurd hc hne
    count := hi.count
    live := fun hne => absurd hc hne
    requested := by
      rw [hi.requested]
      exact Nat.zero_le _ }

/-- The buffer once the writer has looked at the readers again. -/
def refreshed (b : BufferImpl α ρ) : BufferImpl α ρ := { b with claimStrategy := b.claimStrategy.refreshed }

theorem represents_refreshed (h : Represents l u f) : Represents l { u with buffer := refreshed u.buffer } f :=
  { h with snapshot := Strategy.snapshot_refreshed }

omit [DecidableEq ρ] in
theorem tryNext_none {c : Strategy ρ} {size n : Nat} (h : c.Snapshot) (hn : (c.tryNext size n).2 = none) :
    c.tryNext size n = (c.refreshed, none) := by
  rw [Strategy.tryNext, Strategy.refreshReaderSnapshot_eq h] at hn ⊢
  by_cases hle : c.refreshed.getRemainingCapacity size < n
  · rw [if_pos hle]
  · rw [if_neg hle] at hn
    cases hn

omit [DecidableEq ρ] in
/-- The release of an empty reservation sets both cursors to the writer's offset. -/
theorem commit_empty {w : Writer} (h : w.nRequestedSamplesToPublish.getD 0 = 0) :
    w.commit l b = ({ b with claimStrategy := b.claimStrategy.publish w.offset 0 },
      { w with nRequestedSamplesToPublish := some 0, internalSpan := ⟨0, 0⟩ }) := by
  rw [Writer.commit, h]
  simp only [BufferImpl.mirror, Nat.min_zero, Nat.sub_zero, BufferImpl.copyN, ite_self, Nat.add_zero]

omit [DecidableEq ρ] in
theorem publish_of_eq {c : Strategy ρ} {offset : Nat} (hp : offset = c.publishCursor) (hr : offset = c.reserveCursor) :
    c.publish offset 0 = c := by
  rw [Strategy.publish, Nat.add_zero]
  nth_rewrite 1 [hp]
  rw [hr]

omit [DecidableEq ρ] in
theorem requested_idle {span : WriterSpan} {w w' : Writer} (h : span.requested w = some w')
    (hr : span.isRefused = false) (hs : w.internalSpan.size = 0) (hw : w.nRequestedSamplesToPublish.getD 0 = 0) :
    w'.nRequestedSamplesToPublish.getD 0 = 0 ∧ w'.offset = w.offset ∧ w'.instanceCount = w.instanceCount := by
  obtain ⟨hw', hle⟩ := Represents.requested_spec h hr (by omega)
  refine ⟨by omega, ?_, ?_⟩
  · rw [hw']
  · rw [hw']

omit [DecidableEq ρ] in
/-- The last release of an empty reservation. -/
theorem release_empty {span : WriterSpan} {w : Writer} {o : BufferImpl α ρ × Writer}
    (hr : span.isRefused = false) (hc : w.instanceCount = 1) (hs : w.internalSpan.size = 0)
    (hw : w.nRequestedSamplesToPublish.getD 0 = 0) (h : span.release l b w = some o) :
    o.1 = { b with claimStrategy := b.claimStrategy.publish w.offset 0 } ∧ Idle o.2 [] := by
  simp only [WriterSpan.release, hr, hc, Bool.false_eq_true, if_false, Nat.sub_self, if_true] at h
  obtain ⟨w', hw', rfl⟩ := Option.map_eq_some_iff.mp h
  obtain ⟨hzero, hoffset, hcount⟩ := requested_idle hw' hr hs hw
  rw [commit_empty hzero, hoffset]
  exact ⟨rfl, ⟨rfl, rfl, hcount⟩⟩

end

/-! ### The conditions on a step -/

/-- A reservation of `n` slots is granted. -/
def Granted (l : Layout) (s : State α ω ρ) (n : Nat) : Prop :=
  0 < n ∧ (s.buffer.claimStrategy.tryNext l.size n).2.isSome = true

/-- Nobody else holds a claim when one is granted. -/
def OneClaim (l : Layout) (s : State α ω ρ) : Act α ω ρ → Prop
  | .useWriter w (.tryReserve n _) | .useWriter w (.reserve n _) =>
    ∀ h ∈ s.writers w, h.writer.instanceCount = 0 → Granted l s n →
      ∀ v, v ≠ w → ∀ h' ∈ s.writers v, h'.writer.internalSpan.size = 0
  | .primePort c portIdx n =>
    match c.check s.writerCount portIdx n with
    | .ok (some _) => Granted l s n → ∀ v, ∀ h' ∈ s.writers v, h'.writer.internalSpan.size = 0
    | _ => True
  | _ => True

/-- A refused reservation is not the last span of a claim to be released. -/
def ReleasedByHolder (s : State α ω ρ) : Act α ω ρ → Prop
  | .useWriter w call => ∀ h ∈ s.writers w, CircularBuffer.ReleasedByHolder (s.view h.writer h.spans) call
  | _ => True

/-- An empty reservation is released by a writer whose offset is where both cursors are; the writer of `primePort`
    has its offset at zero. -/
def AtCursors (l : Layout) (s : State α ω ρ) : Act α ω ρ → Prop
  | .useWriter w (.releaseWriterSpan k) =>
    ∀ h ∈ s.writers w, ∀ span ∈ h.spans[k]?, span.isRefused = false → h.writer.instanceCount = 1 →
      h.writer.internalSpan.size = 0 → h.writer.offset = s.publishCursor ∧ h.writer.offset = s.reserveCursor
  | .primePort c portIdx n =>
    match c.check s.writerCount portIdx n with
    | .ok (some _) => ¬ Granted l s n → 0 = s.publishCursor ∧ 0 = s.reserveCursor
    | _ => True
  | _ => True

/-- What a run may do: the last condition is the one that the other two leave open. -/
structure Kept (l : Layout) (s : State α ω ρ) (a : Act α ω ρ) : Prop where
  oneClaim : OneClaim l s a
  releasedByHolder : ReleasedByHolder s a
  atCursors : AtCursors l s a

/-! ### The invariant -/

/-- Either nobody holds a claim, or one writer does: the one that the buffer is seen through. -/
def Held (s : State α ω ρ) (f : Fifo.State α ρ) (writer : Writer) (spans : List WriterSpan) : Prop :=
  (f.claim = [] ∧ ∀ v h, s.writers v = some h → Idle h.writer h.spans) ∨
    ∃ v, s.writers v = some ⟨writer, true, spans⟩ ∧
      ∀ u h, u ≠ v → s.writers u = some h → Idle h.writer h.spans

structure Sees [DecidableEq ρ] (l : Layout) (s : State α ω ρ) (f : Fifo.State α ρ) (writer : Writer)
    (spans : List WriterSpan) : Prop where
  represents : Represents l (s.view writer spans) f
  written : Written f
  held : Held s f writer spans

namespace Sees

variable [DecidableEq ρ] {f g : Fifo.State α ρ} {writer : Writer} {spans : List WriterSpan}

/-- A writer with live slots is the one that the buffer is seen through; where that one has none, nobody has. -/
theorem claim_nil (h : Sees l s f writer spans) (hidle : ∀ v x, s.writers v = some x → x.writer.internalSpan.size = 0) :
    f.claim = [] := by
  rcases h.held with ⟨hc, -⟩ | ⟨v, hv, -⟩
  · exact hc
  · exact List.length_eq_zero_iff.mp (h.represents.span.symm.trans (hidle v _ hv))

theorem idle (h : Sees l s f writer spans) (hc : f.claim = []) {v : ω} {x : Handle} (hv : s.writers v = some x) :
    Idle x.writer x.spans := by
  rcases h.held with ⟨-, hidle⟩ | ⟨u, hu, hidle⟩
  · exact hidle v x hv
  · rcases Classical.em (v = u) with rfl | hne
    · rw [hu] at hv
      cases hv
      exact idle_of_claim h.represents hc
    · exact hidle v x hne hv

/-- A writer without live spans holds no claim. -/
theorem idle_of_nil (h : Sees l s f writer spans) {v : ω} {x : Handle} (hv : s.writers v = some x)
    (hx : x.spans = []) : Idle x.writer x.spans := by
  rcases h.held with ⟨-, hidle⟩ | ⟨u, hu, hidle⟩
  · exact hidle v x hv
  · rcases Classical.em (v = u) with rfl | hne
    · rw [hu] at hv
      cases hv
      exact idle_of_claim h.represents (Classical.byContradiction fun hne => h.represents.live hne hx)
    · exact hidle v x hne hv

/-- A step of writers without a claim that leaves the buffer's contents alone. -/
theorem keep (h : Sees l s f writer spans) (hb : t.buffer = s.buffer ∨ t.buffer = refreshed s.buffer)
    (hr : t.readers = s.readers)
    (hback : ∀ v x, t.writers v = some x → Idle x.writer x.spans ∨ s.writers v = some x)
    (hkeep : ∀ v x, s.writers v = some x → ¬ Idle x.writer x.spans → t.writers v = some x) :
    Sees l t f writer spans where
  represents := by
    simp only [State.view, hr]
    rcases hb with hb | hb
    · rw [hb]
      exact h.represents
    · rw [hb]
      exact represents_refreshed h.represents
  written := h.written
  held := by
    by_cases hc : f.claim = []
    · refine .inl ⟨hc, fun v x hv => ?_⟩
      rcases hback v x hv with hx | hx
      · exact hx
      · exact h.idle hc hx
    · rcases h.held with ⟨hc', -⟩ | ⟨v, hv, hidle⟩
      · exact absurd hc' hc
      refine .inr ⟨v, hkeep v _ hv fun hi => hc (claim_of_idle h.represents hi), fun u x hne hu => ?_⟩
      rcases hback u x hu with hx | hx
      · exact hx
      · exact hidle u x hne hx

/-- A call through the writer that the buffer is seen through. -/
theorem call [Inhabited α] (h : Sees l s f writer spans) {a : CircularBuffer.Act α ρ} {u : CircularBuffer.State α ρ}
    (hok : CircularBuffer.ReleasedByHolder (s.view writer spans) a)
    (hs : CircularBuffer.step l (s.view writer spans) a = some u) :
    ∃ g, Represents l u g ∧ Written g ∧ s.publishCursor ≤ u.publishCursor := by
  obtain ⟨g, hrep, hwritten, hprefix⟩ := step_written h.represents h.written hok hs
  refine ⟨g, hrep, hwritten, ?_⟩
  have : s.publishCursor = f.published.length := h.represents.published
  rw [this, hrep.published]
  exact hprefix.length_le

end Sees

/-! ### Calls through a writer without a claim -/

section

variable [DecidableEq ρ] {b b' : BufferImpl α ρ} {w : Writer} {spans : List WriterSpan}
  {readers : ρ → Option Acquisition} {u : CircularBuffer.State α ρ} {a : CircularBuffer.Act α ρ}

/-- A call that is not granted slots leaves an idle writer idle, and the buffer's contents alone. -/
theorem idle_step (hi : Idle w spans) (hsnap : b.claimStrategy.Snapshot)
    (ha : ofWriter a = true)
    (hreserve : ∀ n p, a = .tryReserve n p ∨ a = .reserve n p → w.instanceCount = 0 → 0 < n →
      (b.claimStrategy.tryNext l.size n).2 = none)
    (hrelease : ∀ k, a = .releaseWriterSpan k → ∀ span ∈ spans[k]?, span.isRefused = false → w.instanceCount = 1 →
      w.offset = b.claimStrategy.publishCursor ∧ w.offset = b.claimStrategy.reserveCursor)
    (hs : CircularBuffer.step l ⟨b, w, spans, readers⟩ a = some u) :
    Idle u.writer u.writerSpans ∧ u.readers = readers ∧ (u.buffer = b ∨ u.buffer = refreshed b) := by
  have htry : ∀ n p, (w.instanceCount = 0 → 0 < n → (b.claimStrategy.tryNext l.size n).2 = none) →
      let t := State.tryReserve l ⟨b, w, spans, readers⟩ n p
      Idle t.writer t.writerSpans ∧ t.readers = readers ∧ (t.buffer = b ∨ t.buffer = refreshed b) := by
    intro n p hno
    have hcount : ∀ span : WriterSpan, w.instanceCount + 1 = (spans ++ [span]).length := fun span => by
      rw [List.length_append, hi.count, List.length_singleton]
    by_cases hc : 0 < w.instanceCount
    · simp only [State.tryReserve, Writer.tryReserve, if_pos hc]
      exact ⟨⟨hi.span, hi.requested, hcount _⟩, trivial, .inl trivial⟩
    rcases Nat.eq_zero_or_pos n with rfl | hn
    · simp only [State.tryReserve, Writer.tryReserve, if_neg hc, if_true]
      exact ⟨⟨hi.span, rfl, hcount _⟩, trivial, .inl trivial⟩
    · have hnone := tryNext_none hsnap (hno (Nat.eq_zero_of_not_pos hc) hn)
      simp only [State.tryReserve, Writer.tryReserve, if_neg hc, if_neg (Nat.ne_of_gt hn), hnone]
      exact ⟨⟨hi.span, rfl, hcount _⟩, trivial, .inr rfl⟩
  cases a with
  | tryReserve n p =>
    cases hs
    exact htry n p (hreserve n p (.inl rfl))
  | reserve n p =>
    simp only [CircularBuffer.step] at hs
    split at hs
    · cases hs
    · cases hs
      exact htry n p (hreserve n p (.inr rfl))
  | copyWriterSpan k =>
    obtain ⟨span, -, rfl⟩ := Option.map_eq_some_iff.mp hs
    refine ⟨⟨hi.span, hi.requested, ?_⟩, rfl, .inl rfl⟩
    rw [List.length_append, hi.count, List.length_singleton]
  | write k i value =>
    obtain ⟨span, -, hs⟩ := Option.bind_eq_some_iff.mp hs
    rw [if_pos (.inr (hi.span ▸ Nat.zero_le i))] at hs
    cases hs
  | publish k n =>
    obtain ⟨span, -, rfl⟩ := Option.map_eq_some_iff.mp hs
    refine ⟨?_, rfl, .inl rfl⟩
    simp only [WriterSpan.publish]
    split
    · exact hi
    · refine ⟨hi.span, ?_, hi.count⟩
      simp only [hi.span, hi.requested, Option.getD_some, Nat.sub_self, Nat.min_zero, Nat.add_zero]
  | releaseWriterSpan k =>
    obtain ⟨span, hk, hs⟩ := Option.bind_eq_some_iff.mp hs
    obtain ⟨⟨buffer, writer⟩, hspan, rfl⟩ := Option.map_eq_some_iff.mp hs
    have hlen := Represents.length_erase hk
    rw [← hi.count] at hlen
    have hpos : 0 < w.instanceCount := by
      rw [hi.count]
      exact Nat.lt_of_le_of_lt (Nat.zero_le k) (List.getElem?_eq_some_iff.mp hk).1
    have hgo : Idle { w with instanceCount := w.instanceCount - 1 } (spans.eraseIdx k) :=
      ⟨hi.span, hi.requested, hlen.symm⟩
    cases hr : span.isRefused with
    | true =>
      simp only [WriterSpan.release, hr, if_true] at hspan
      cases hspan
      exact ⟨hgo, rfl, .inl rfl⟩
    | false =>
      by_cases hone : w.instanceCount = 1
      · obtain ⟨hb, hidle⟩ := release_empty hr hone hi.span hi.requested hspan
        obtain ⟨hp, hc⟩ := hrelease k rfl span hk hr hone
        have hnil : spans.eraseIdx k = [] := List.length_eq_zero_iff.mp (hlen.trans (by rw [hone]))
        refine ⟨hnil ▸ hidle, rfl, .inl ?_⟩
        dsimp only at hb ⊢
        rw [hb, publish_of_eq hp hc]
      · simp only [WriterSpan.release, hr, Bool.false_eq_true, if_false,
          if_neg (show ¬ w.instanceCount - 1 = 0 by omega)] at hspan
        cases hspan
        exact ⟨hgo, rfl, .inl rfl⟩
  | _ => cases ha

/-- A reader's call neither reads nor changes the writer. -/
theorem step_reader (ha : ofWriter a = false) (w w' : Writer)
    (spans spans' : List WriterSpan) :
    CircularBuffer.step l ⟨b, w', spans', readers⟩ a =
      (CircularBuffer.step l ⟨b, w, spans, readers⟩ a).map fun u => ⟨u.buffer, w', spans', u.readers⟩ := by
  cases a <;> simp only [CircularBuffer.step]
  case tryReserve | reserve | copyWriterSpan | write | publish | releaseWriterSpan => cases ha
  case attach r =>
    split <;> rfl
  case detach r | tryConsume r n =>
    cases readers r with
    | none => rfl
    | some a =>
      simp only [Option.bind_some]
      split <;> rfl
  case available r =>
    cases readers r <;> rfl
  case get r nRequested policy =>
    cases readers r with
    | none => rfl
    | some a =>
      rw [Option.bind_some, Option.bind_some]
      split
      case isTrue hn =>
        split
        case isTrue => rfl
        case isFalse hno => exact absurd hn hno
      case isFalse hn =>
        split
        case isTrue hyes => exact absurd hyes hn
        case isFalse => rfl
  case copyReaderSpan r k =>
    cases readers r with
    | none => rfl
    | some a =>
      simp only [Option.bind_some, Option.map_map]
      rfl
  case read r k i =>
    cases readers r with
    | none => rfl
    | some a =>
      simp only [Option.bind_some]
      cases a.spans[k]? with
      | none => rfl
      | some sp =>
        simp only [Option.bind_some]
        split <;> rfl
  case releaseReaderSpan r k =>
    cases readers r with
    | none => rfl
    | some a =>
      simp only [Option.bind_some]
      cases a.spans[k]? with
      | none => rfl
      | some sp =>
        simp only [Option.bind_some, CircularBuffer.State.releaseReaderSpan, CircularBuffer.State.publishCursor]
        split
        · rw [Option.map_map]
          rfl
        · rfl

/-! ### Priming -/

variable [Inhabited α] {f : Fifo.State α ρ} {n : Nat}

/-- Writing default values from the first slot on. -/
theorem fill_represents (h : Represents l u f) : ∀ m, m ≤ f.claim.length →
    Represents l { u with buffer := fill l u.writer.internalSpan.first u.buffer m }
      { f with claim := List.replicate m (some default) ++ f.claim.drop m }
  | 0, _ => h
  | m + 1, hm => by
    have ih := fill_represents h m (Nat.le_of_succ_le hm)
    have hlt : m < u.writer.internalSpan.size := by
      rw [h.span]
      exact hm
    have hset : (List.replicate m (some default) ++ f.claim.drop m).set m (some default) =
        List.replicate (m + 1) (some default) ++ f.claim.drop (m + 1) := by
      rw [List.drop_eq_getElem_cons hm, List.set_append_right _ _ (by simp), List.length_replicate, Nat.sub_self,
        List.set_cons_zero, List.replicate_succ', List.append_assoc]
      rfl
    have hwrite := (ih.write default hlt).2
    rw [hset] at hwrite
    exact hwrite

/-- Where nobody holds a claim and there is room, `primePort`'s writer appends default values. -/
theorem prime_granted (h : Represents l ⟨b, w, spans, readers⟩ f) (hc : f.claim = []) (hn : 0 < n)
    (hg : (b.claimStrategy.tryNext l.size n).2.isSome = true) (hp : prime l b n = some b') :
    ∃ w', Represents l ⟨b', w', [], readers⟩
      { f with published := f.published ++ List.replicate n (some default), claim := [] } := by
  have hnew : Represents l ⟨b, { Writer.new with offset := b.claimStrategy.publishCursor }, [], readers⟩ f :=
    represents_idle h hc ⟨rfl, rfl, rfl⟩ rfl
  obtain ⟨g, hacc, hrep⟩ := hnew.tryReserve n .processAll
  obtain ⟨sequence, hseq⟩ := Option.isSome_iff_exists.mp hg
  have hpair : b.claimStrategy.tryNext l.size n = ((b.claimStrategy.tryNext l.size n).1, some sequence) :=
    Prod.ext rfl hseq
  have hevent : reserveEvent l ⟨b, { Writer.new with offset := b.claimStrategy.publishCursor }, [], readers⟩ n =
      [.reserve n] := by
    simp only [reserveEvent, Writer.new, Nat.lt_irrefl, Nat.ne_of_gt hn, or_self, if_false, hseq]
  rw [hevent] at hacc
  obtain ⟨_, hstep, rfl⟩ := hacc
  cases hstep
  simp only [State.tryReserve, Writer.tryReserve, Writer.new, Nat.lt_irrefl, if_false, Nat.ne_of_gt hn] at hrep
  rw [hpair] at hrep
  simp only [List.nil_append] at hrep
  simp only [prime, Writer.tryReserve, Writer.new, Nat.lt_irrefl, if_false, Nat.ne_of_gt hn] at hp
  rw [hpair] at hp
  simp only [Nat.lt_irrefl, if_false] at hp
  have hfill := fill_represents hrep n (Nat.le_of_eq List.length_replicate.symm)
  simp only [WriterSpan.publish, WriterSpan.release, WriterSpan.requested, Bool.false_eq_true, if_false,
    if_true, Option.isSome_some, Option.getD_none, Nat.sub_zero, Nat.min_self, Nat.zero_add,
    Option.map_some] at hp
  cases hp
  rw [List.drop_of_length_le (Nat.le_of_eq List.length_replicate), List.append_nil] at hfill
  obtain ⟨-, hcommit⟩ := hfill.commit (k := 0)
    (w := ⟨some n, calculateIndex l.size (sequence + l.size - n), sequence - n,
      ⟨calculateIndex l.size (sequence + l.size - n), n⟩, 0⟩) rfl (Nat.le_refl n) rfl
  simp only [Option.getD_some, List.take_of_length_le (Nat.le_of_eq List.length_replicate)] at hcommit
  exact ⟨_, hcommit⟩

omit [DecidableEq ρ] in
/-- A refused reservation of `primePort`'s writer, which counts from zero, sets both cursors to zero. -/
theorem prime_refused (hsnap : b.claimStrategy.Snapshot) (hn : 0 < n)
    (hg : ¬ (b.claimStrategy.tryNext l.size n).2.isSome = true) (hp : prime l b n = some b') :
    b' = { b with claimStrategy := b.claimStrategy.refreshed.publish 0 0 } := by
  have hnone := tryNext_none hsnap (Option.not_isSome_iff_eq_none.mp hg)
  simp only [prime, Writer.tryReserve, Writer.new, Nat.lt_irrefl, if_false, Nat.ne_of_gt hn, hnone, hn, if_true] at hp
  obtain ⟨o, ho, rfl⟩ := Option.map_eq_some_iff.mp hp
  exact (release_empty rfl rfl rfl rfl ho).1

omit [DecidableEq ρ] [Inhabited α] in
/-- There is nothing to do where no samples are requested, and only there. -/
theorem check_eq_ok {c : PortCache ρ} {nWriters portIdx : Nat} {o : Option (InputPort ρ)}
    (h : c.check nWriters portIdx n = .ok o) : o = none ↔ n = 0 := by
  rw [PortCache.check] at h
  split at h
  · cases h
  split at h
  case isTrue hn =>
    cases h
    exact ⟨fun _ => hn, fun _ => rfl⟩
  case isFalse hn =>
    split at h
    · cases h
    split at h
    · cases h
    · split at h
      · cases h
      · cases h
        exact ⟨fun e => (by cases e), fun e => absurd e hn⟩

/-- What `primePort` does to what the readers see. -/
def Primed (l : Layout) (s t : State α ω ρ) (n : Nat) (result : Except PrimePortError Nat) : Prop :=
  t.readers = s.readers ∧ ∀ r a, s.readers r = some a →
    match result with
    | .ok k => k = n ∧ samples l t.buffer a.reader = samples l s.buffer a.reader ++ List.replicate n default
    | .error _ => samples l t.buffer a.reader = samples l s.buffer a.reader

theorem Sees.primePort {writer : Writer} (h : Sees l s f writer spans) {c : PortCache ρ} {portIdx : Nat}
    (hone : OneClaim l s (.primePort c portIdx n)) (hat : AtCursors l s (.primePort c portIdx n))
    {result : Except PrimePortError Nat} (hp : primePort l s c portIdx n = some (t, result)) :
    (∃ g w' spans', Sees l t g w' spans') ∧ s.publishCursor ≤ t.publishCursor ∧ Primed l s t n result := by
  rw [Writers.primePort] at hp
  split at hp
  case h_1 e he =>
    cases hp
    exact ⟨⟨f, _, _, h⟩, Nat.le_refl _, rfl, fun r a hr => rfl⟩
  case h_2 hnone =>
    cases hp
    obtain rfl := (check_eq_ok hnone).mp rfl
    exact ⟨⟨f, _, _, h⟩, Nat.le_refl _, rfl, fun r a hr => ⟨rfl, (List.append_nil _).symm⟩⟩
  case h_3 port hport =>
    obtain ⟨acq, hacq, hp⟩ := Option.bind_eq_some_iff.mp hp
    obtain ⟨b', hb', hp⟩ := Option.map_eq_some_iff.mp hp
    simp only [OneClaim, AtCursors, hport] at hone hat
    have hn : 0 < n := Nat.pos_of_ne_zero fun hz => (by cases (check_eq_ok hport).mpr hz)
    by_cases hg : (s.buffer.claimStrategy.tryNext l.size n).2.isSome = true
    · have hc := h.claim_nil fun v x hv => hone ⟨hn, hg⟩ v x hv
      obtain ⟨w', hrep⟩ := prime_granted (b := s.buffer) h.represents hc hn hg hb'
      obtain ⟨stream, hstream⟩ := h.written
      have hwritten : f.published ++ List.replicate n (some default) =
          (stream ++ List.replicate n default).map some := by
        rw [List.map_append, List.map_replicate, hstream]
      have hcursor : b'.claimStrategy.publishCursor = s.publishCursor + n := by
        have hold : s.publishCursor = f.published.length := h.represents.published
        have hnew : b'.claimStrategy.publishCursor = _ := hrep.published
        rw [hnew, hold, List.length_append, List.length_replicate]
      have hresult : result = .ok n ∧ t = { s with buffer := b' } := by
        have : s.buffer.claimStrategy.publishCursor = s.publishCursor := rfl
        simp only [hcursor, this] at hp
        rw [if_neg (by omega)] at hp
        cases hp
        exact ⟨rfl, rfl⟩
      obtain ⟨rfl, rfl⟩ := hresult
      refine ⟨⟨_, w', [], hrep, ⟨_, hwritten⟩, .inl ⟨rfl, fun v x hv => h.idle hc hv⟩⟩, ?_, rfl, fun r a hr => ⟨rfl, ?_⟩⟩
      · exact Nat.le_trans (Nat.le_add_right ..) (Nat.le_of_eq hcursor.symm)
      · have hq : a.reader.readIndexCached ≤ stream.length := by
          have := (h.represents.bounded r _ (h.represents.position_of hr)).1
          rwa [hstream, List.length_map] at this
        rw [samples_eq (b := b') hrep rfl hr hwritten, samples_eq (b := s.buffer) h.represents rfl hr hstream, List.drop_append_of_le_length hq]
    · have hrefused := prime_refused h.represents.snapshot hn hg hb'
      obtain ⟨hpub, hres⟩ := hat fun hgr => hg hgr.2
      have hsame : b' = refreshed s.buffer := by
        have hcursors := publish_of_eq (c := s.buffer.claimStrategy.refreshed) hpub hres
        simp only [hrefused, State.view, hcursors]
        rfl
      have hresult : (∃ e, result = .error e) ∧ t = { s with buffer := b' } := by
        have : b'.claimStrategy.publishCursor = s.buffer.claimStrategy.publishCursor := by rw [hsame]; rfl
        simp only [this] at hp
        rw [if_pos (by omega)] at hp
        cases hp
        exact ⟨⟨_, rfl⟩, rfl⟩
      obtain ⟨⟨e, rfl⟩, rfl⟩ := hresult
      subst hsame
      exact ⟨⟨f, _, _, h.keep (.inr rfl) rfl (fun v x hv => .inr hv) fun v x hv _ => hv⟩, Nat.le_refl _, rfl,
        fun r a hr => rfl⟩

/-! ### Steps and runs -/

variable [DecidableEq ω] {writer : Writer} {x : Handle} {v : ω}

omit [DecidableEq ρ] [Inhabited α] in
theorem setWriter_of_some {y : Option Handle} {z : Handle} {q : ω} (h : (s.setWriter v y).writers q = some z) :
    (q = v ∧ y = some z) ∨ (q ≠ v ∧ s.writers q = some z) := by
  rcases eq_or_ne q v with rfl | hq
  · simp only [State.setWriter, update_self] at h
    exact .inl ⟨rfl, h⟩
  · simp only [State.setWriter, update_of_ne hq] at h
    exact .inr ⟨hq, h⟩

omit [DecidableEq ρ] [Inhabited α] in
theorem setWriter_of_ne {y : Option Handle} {q : ω} (hq : q ≠ v) : (s.setWriter v y).writers q = s.writers q :=
  update_of_ne hq ..

/-- The state after a call through writer `v`. -/
def after (s : State α ω ρ) (v : ω) (u : CircularBuffer.State α ρ) : State α ω ρ :=
  { s with buffer := u.buffer, readers := u.readers }.setWriter v (some ⟨u.writer, true, u.writerSpans⟩)

omit [DecidableEq ρ] [Inhabited α] in
/-- The writers after a call through an idle writer that stays idle. -/
theorem after_idle (hu : Idle u.writer u.writerSpans) (hv : s.writers v = some x) (hx : Idle x.writer x.spans) :
    (∀ q z, (after s v u).writers q = some z → Idle z.writer z.spans ∨ s.writers q = some z) ∧
      ∀ q z, s.writers q = some z → ¬ Idle z.writer z.spans → (after s v u).writers q = some z := by
  constructor
  · intro q z hz
    rcases setWriter_of_some hz with ⟨-, hz⟩ | ⟨-, hz⟩
    · cases hz
      exact .inl hu
    · exact .inr hz
  · intro q z hz hno
    rcases eq_or_ne q v with rfl | hq
    · rw [hv] at hz
      cases hz
      exact absurd hx hno
    · rw [after, setWriter_of_ne hq]
      exact hz

omit [Inhabited α] in
/-- The buffer as it is seen after a call, through the writer of the call. -/
theorem sees_after {g : Fifo.State α ρ} (hrep : Represents l u g) (hw : Written g)
    (hothers : ∀ q z, q ≠ v → s.writers q = some z → Idle z.writer z.spans) :
    Sees l (after s v u) g u.writer u.writerSpans where
  represents := hrep
  written := hw
  held := .inr ⟨v, update_self .., fun q z hq hz => hothers q z hq ((setWriter_of_ne hq).symm.trans hz)⟩

omit [DecidableEq ρ] [Inhabited α] in
/-- A reservation that is granted does not depend on the writer's offset. -/
theorem tryReserve_granted {p : SpanReleasePolicy} (hc : w.instanceCount = 0) (hn : 0 < n)
    (hg : (b.claimStrategy.tryNext l.size n).2.isSome = true) (offset : Nat) :
    State.tryReserve l ⟨b, { w with offset := offset }, spans, readers⟩ n p =
      State.tryReserve l ⟨b, w, spans, readers⟩ n p := by
  obtain ⟨sequence, hseq⟩ := Option.isSome_iff_exists.mp hg
  have hpair : b.claimStrategy.tryNext l.size n = ((b.claimStrategy.tryNext l.size n).1, some sequence) :=
    Prod.ext rfl hseq
  have hcount : ¬ 0 < w.instanceCount := by omega
  simp only [State.tryReserve, Writer.tryReserve, if_neg hcount, if_neg (Nat.ne_of_gt hn)]
  rw [hpair]

/-- A call through a writer without a claim, or through the one that the buffer is seen through. -/
theorem Sees.useWriter (h : Sees l s f writer spans) (hv : s.writers v = some x) (hb : x.hasBuffer = true) (ha : ofWriter a = true) (hk : Kept l s (.useWriter v a))
    (hs : CircularBuffer.step l (s.view x.writer x.spans) a = some u) :
    (∃ g w' spans', Sees l (after s v u) g w' spans') ∧ s.publishCursor ≤ u.publishCursor := by
  have hrel := hk.releasedByHolder x hv
  by_cases hi : Idle x.writer x.spans
  · by_cases hgranted : ∃ n p, (a = .tryReserve n p ∨ a = .reserve n p) ∧ x.writer.instanceCount = 0 ∧ Granted l s n
    · obtain ⟨n, p, hreserve, hcount, hg⟩ := hgranted
      have hothers : ∀ q, q ≠ v → ∀ z ∈ s.writers q, z.writer.internalSpan.size = 0 := by
        have hone := hk.oneClaim
        rcases hreserve with rfl | rfl
        · exact hone x hv hcount hg
        · exact hone x hv hcount hg
      have hc : f.claim = [] := h.claim_nil fun q z hz => by
        rcases eq_or_ne q v with rfl | hq
        · rw [hv] at hz
          cases hz
          exact hi.span
        · exact hothers q hq z hz
      have hu : u = State.tryReserve l ⟨s.buffer, x.writer, x.spans, s.readers⟩ n p := by
        rcases hreserve with rfl | rfl
        · exact (Option.some.inj hs).symm
        · simp only [CircularBuffer.step] at hs
          split at hs
          · cases hs
          · exact (Option.some.inj hs).symm
      rw [← tryReserve_granted hcount hg.1 hg.2 s.publishCursor] at hu
      have hi' : Idle { x.writer with offset := s.publishCursor } x.spans := ⟨hi.span, hi.requested, hi.count⟩
      have hrep := represents_idle h.represents hc hi' rfl
      obtain ⟨g, hg', hwritten, hprefix⟩ :=
        step_written hrep h.written (a := .tryReserve n p) trivial (congrArg some hu.symm)
      refine ⟨⟨g, _, _, sees_after hg' hwritten fun q z _ hz => h.idle hc hz⟩, ?_⟩
      have hold : s.publishCursor = f.published.length := h.represents.published
      rw [hold, hg'.published]
      exact hprefix.length_le
    · obtain ⟨hu, hr, hbuf⟩ := idle_step hi h.represents.snapshot ha
        (fun n p hreserve hcount hn => by
          by_contra hne
          exact hgranted ⟨n, p, hreserve, hcount, hn, Option.isSome_iff_ne_none.mpr hne⟩)
        (fun k hrelease span hspan hno hone => by
          subst hrelease
          exact hk.atCursors x hv span hspan hno hone hi.span) hs
      obtain ⟨hback, hkeep⟩ := after_idle hu hv hi
      refine ⟨⟨f, writer, spans, h.keep hbuf hr hback hkeep⟩, ?_⟩
      rcases hbuf with hbuf | hbuf
      · rw [CircularBuffer.State.publishCursor, hbuf]
        exact Nat.le_refl _
      · rw [CircularBuffer.State.publishCursor, hbuf]
        exact Nat.le_refl _
  · rcases h.held with ⟨-, hidle⟩ | ⟨q, hq, hidle⟩
    · exact absurd (hidle v x hv) hi
    · obtain rfl : v = q := by
        by_contra hne
        exact hi (hidle v x hne hv)
      rw [hv] at hq
      cases hq
      obtain ⟨g, hg, hwritten, hle⟩ := h.call hrel hs
      exact ⟨⟨g, _, _, sees_after hg hwritten hidle⟩, hle⟩

omit [Inhabited α] in
/-- Making, moving and destroying writers without a claim. -/
theorem Sees.setWriter (h : Sees l s f writer spans) {y : Option Handle}
    (hold : ∀ z, s.writers v = some z → Idle z.writer z.spans) (hnew : ∀ z, y = some z → Idle z.writer z.spans) :
    Sees l (s.setWriter v y) f writer spans := by
  refine h.keep (.inl rfl) rfl (fun q z hz => ?_) fun q z hz hno => ?_
  · rcases setWriter_of_some hz with ⟨-, hz⟩ | ⟨-, hz⟩
    · exact .inl (hnew z hz)
    · exact .inr hz
  · rcases eq_or_ne q v with rfl | hq
    · exact absurd (hold z hz) hno
    · rw [setWriter_of_ne hq]
      exact hz

omit [DecidableEq ω] in
/-- A reader's call, seen through the same writer. -/
theorem Sees.useReader (h : Sees l s f writer spans) (ha : ofWriter a = false)
    (hs : CircularBuffer.step l (s.view .new []) a = some u) :
    (∃ g, Sees l { s with buffer := u.buffer, readers := u.readers } g writer spans) ∧
      s.publishCursor ≤ u.publishCursor := by
  have hview : CircularBuffer.step l (s.view writer spans) a = some ⟨u.buffer, writer, spans, u.readers⟩ := by
    rw [State.view, step_reader ha .new _ []]
    exact Option.map_eq_some_iff.mpr ⟨u, hs, rfl⟩
  have hok : CircularBuffer.ReleasedByHolder (s.view writer spans) a := by
    cases a with
    | releaseWriterSpan => cases ha
    | _ => trivial
  obtain ⟨g, hrep, hwritten, hle⟩ := h.call hok hview
  refine ⟨⟨g, hrep, hwritten, ?_⟩, hle⟩
  rcases h.held with ⟨hc, hidle⟩ | ⟨q, hq, hidle⟩
  · have hi : Idle writer spans := idle_of_claim h.represents hc
    exact .inl ⟨claim_of_idle hrep hi, hidle⟩
  · exact .inr ⟨q, hq, hidle⟩

/-- A step that meets the conditions keeps the buffer's contents, and the publish cursor does not go back. -/
theorem Sees.step_kept (h : Sees l s f writer spans) {a : Act α ω ρ} (hk : Kept l s a) (hs : Writers.step l s a = some t) :
    (∃ g w' spans', Sees l t g w' spans') ∧ s.publishCursor ≤ t.publishCursor := by
  cases a with
  | newWriter v =>
    simp only [Writers.step] at hs
    split at hs
    case isFalse => cases hs
    case isTrue hv =>
      cases hs
      refine ⟨⟨f, writer, spans, ?_⟩, Nat.le_refl _⟩
      have hset := h.setWriter (v := v) (y := some .new) (fun z hz => by rw [hv] at hz; cases hz) fun z hz => by
        cases hz
        exact ⟨rfl, rfl, rfl⟩
      exact ⟨hset.represents, hset.written, hset.held⟩
  | moveConstruct v other =>
    obtain ⟨x, hx, hs⟩ := Option.bind_eq_some_iff.mp hs
    split at hs
    case isFalse => cases hs
    case isTrue hv =>
      cases hs
      have hi := h.idle_of_nil hx hv.2
      have hzero : x.writer.instanceCount = 0 := hi.count.trans (congrArg List.length hv.2)
      have hold := h.setWriter (v := other) (y := some x.moveConstruct.2)
        (fun z hz => by rw [hx] at hz; cases hz; exact hi) fun z hz => by
          cases hz
          exact ⟨rfl, rfl, hi.count⟩
      refine ⟨⟨f, writer, spans, hold.setWriter (fun z hz => ?_) fun z hz => ?_⟩, Nat.le_refl _⟩
      · rcases setWriter_of_some hz with ⟨-, hz⟩ | ⟨-, hz⟩
        · cases hz
          exact ⟨rfl, rfl, hi.count⟩
        · rw [hv.1] at hz
          cases hz
      · cases hz
        exact ⟨hi.span, hi.requested, rfl⟩
  | moveAssign v tmp =>
    obtain ⟨x, hx, hs⟩ := Option.bind_eq_some_iff.mp hs
    obtain ⟨y, hy, hs⟩ := Option.bind_eq_some_iff.mp hs
    split at hs
    case isFalse => cases hs
    case isTrue hnil =>
      cases hs
      have hxi := h.idle_of_nil hx hnil.1
      have hyi := h.idle_of_nil hy hnil.2
      have hnew : Idle (x.moveAssign y).2.writer (x.moveAssign y).2.spans := ⟨hxi.span, hxi.requested, hyi.count⟩
      have hold := h.setWriter (v := tmp) (y := some (x.moveAssign y).2)
        (fun z hz => by rw [hy] at hz; cases hz; exact hyi) fun z hz => by
          cases hz
          exact hnew
      refine ⟨⟨f, writer, spans, hold.setWriter (fun z hz => ?_) fun z hz => ?_⟩, Nat.le_refl _⟩
      · rcases setWriter_of_some hz with ⟨-, hz⟩ | ⟨-, hz⟩
        · cases hz
          exact hnew
        · rw [hx] at hz
          cases hz
          exact hxi
      · cases hz
        exact ⟨hyi.span, hyi.requested, hxi.count⟩
  | destroy v =>
    obtain ⟨x, hx, hs⟩ := Option.bind_eq_some_iff.mp hs
    split at hs
    case isFalse => cases hs
    case isTrue hnil =>
      cases hs
      refine ⟨⟨f, writer, spans, ?_⟩, Nat.le_refl _⟩
      have hset := h.setWriter (v := v) (y := none)
        (fun z hz => by rw [hx] at hz; cases hz; exact h.idle_of_nil hx hnil) fun z hz => by cases hz
      exact ⟨hset.represents, hset.written, hset.held⟩
  | useWriter v call =>
    obtain ⟨x, hx, hs⟩ := Option.bind_eq_some_iff.mp hs
    split at hs
    case isFalse => cases hs
    case isTrue ha =>
      obtain ⟨u, hu, rfl⟩ := Option.map_eq_some_iff.mp hs
      exact h.useWriter hx ha.1 ha.2 hk hu
  | useReader call =>
    simp only [Writers.step] at hs
    split at hs
    case isTrue => cases hs
    case isFalse ha =>
      obtain ⟨u, hu, rfl⟩ := Option.map_eq_some_iff.mp hs
      obtain ⟨⟨g, hg⟩, hle⟩ := h.useReader (Bool.not_eq_true _ ▸ ha) hu
      exact ⟨⟨g, _, _, hg⟩, hle⟩
  | primePort c portIdx n =>
    obtain ⟨⟨t, result⟩, hp, rfl⟩ := Option.map_eq_some_iff.mp hs
    obtain ⟨hsees, hle, -⟩ := h.primePort hk.oneClaim hk.atCursors hp
    exact ⟨hsees, hle⟩

/-- The buffer in every state of a run whose steps meet the conditions. -/
theorem sees_reach (h : (system l).Reach (Kept l) s) : ∃ f writer spans, Sees l s f writer spans :=
  h.invariant (I := fun s => ∃ f writer spans, Sees l s f writer spans)
    (fun _ e => e ▸ ⟨Fifo.init, .new, [], Represents.of_initial, ⟨[], rfl⟩, .inl ⟨rfl, fun v x hv => (by cases hv)⟩⟩)
    fun _ _ _ ⟨_, _, _, hsees⟩ hk hs => (hsees.step_kept hk hs).1

/-! ### Reservations without slots -/

omit [Inhabited α] [DecidableEq ω] in
/-- A writer whose span is empty holds no claim. -/
theorem Sees.idle_of_span (h : Sees l s f writer spans) (hv : s.writers v = some x)
    (hx : x.writer.internalSpan.size = 0) : Idle x.writer x.spans := by
  rcases h.held with ⟨-, hidle⟩ | ⟨q, hq, hidle⟩
  · exact hidle v x hv
  · rcases eq_or_ne v q with rfl | hne
    · rw [hv] at hq
      cases hq
      exact idle_of_claim h.represents (List.length_eq_zero_iff.mp (h.represents.span.symm.trans hx))
    · exact hidle v x hne hv

/-- A reservation that obtains no slots, or its release; for `primePort` both. -/
def EmptyReservation (l : Layout) (s t : State α ω ρ) : Act α ω ρ → Prop
  | .useWriter w (.tryReserve ..) | .useWriter w (.reserve ..) => ∀ h ∈ t.writers w, h.writer.internalSpan.size = 0
  | .useWriter w (.releaseWriterSpan _) => ∀ h ∈ s.writers w, h.writer.internalSpan.size = 0
  | .primePort c portIdx n =>
    match c.check s.writerCount portIdx n with
    | .ok (some _) => ¬ Granted l s n
    | _ => False
  | _ => False

/-- Both cursors are where they were. -/
def SameCursors (s t : State α ω ρ) : Prop :=
  t.publishCursor = s.publishCursor ∧ t.reserveCursor = s.reserveCursor

omit [DecidableEq ω] [DecidableEq ρ] [Inhabited α] in
theorem sameCursors_of_buffer (h : t.buffer = s.buffer ∨ t.buffer = refreshed s.buffer) : SameCursors s t := by
  rcases h with h | h
  · simp only [SameCursors, State.publishCursor, State.reserveCursor, h, and_self]
  · simp only [SameCursors, State.publishCursor, State.reserveCursor, h]
    exact ⟨rfl, rfl⟩

omit [Inhabited α] in
/-- A reservation that obtains no slots leaves the cursors where they are. -/
theorem Sees.tryReserve_empty (h : Sees l s f writer spans) (hv : s.writers v = some x) {p : SpanReleasePolicy}
    (hu : u = State.tryReserve l ⟨s.buffer, x.writer, x.spans, s.readers⟩ n p)
    (hsize : u.writer.internalSpan.size = 0) : SameCursors s (after s v u) := by
  by_cases hg : x.writer.instanceCount = 0 ∧ Granted l s n
  · obtain ⟨hc, hn, hg⟩ := hg
    obtain ⟨sequence, hseq⟩ := Option.isSome_iff_exists.mp hg
    have hpair : s.buffer.claimStrategy.tryNext l.size n =
        ((s.buffer.claimStrategy.tryNext l.size n).1, some sequence) := Prod.ext rfl hseq
    simp only [State.tryReserve, Writer.tryReserve, hc, Nat.lt_irrefl, if_false, Nat.ne_of_gt hn] at hu
    rw [hpair] at hu
    subst hu
    exact absurd hsize (Nat.ne_of_gt hn)
  · have hx : x.writer.internalSpan.size = 0 := by
      subst hu
      simp only [State.tryReserve, Writer.tryReserve] at hsize
      split at hsize
      · exact hsize
      · rename_i hc
        split at hsize
        · exact hsize
        · rename_i hn
          split at hsize
          · rename_i strategy sequence heq
            exact absurd ⟨Nat.eq_zero_of_not_pos hc, Nat.pos_of_ne_zero hn, by rw [heq]; rfl⟩ hg
          · exact hsize
    obtain ⟨-, -, hbuf⟩ := idle_step (a := .tryReserve n p) (h.idle_of_span hv hx) h.represents.snapshot rfl
      (fun m q hm hc hn => by
        rcases hm with hm | hm
        · cases hm
          by_contra hne
          exact hg ⟨hc, hn, Option.isSome_iff_ne_none.mpr hne⟩
        · cases hm)
      (fun k hk => by cases hk) (congrArg some hu.symm)
    exact sameCursors_of_buffer hbuf

omit [Inhabited α] in
/-- The release of an empty reservation leaves the cursors alone exactly when they are at the writer's offset. -/
theorem Sees.release_iff (h : Sees l s f writer spans) (hv : s.writers v = some x)
    (hx : x.writer.internalSpan.size = 0) {k : Nat}
    (hs : CircularBuffer.step l (s.view x.writer x.spans) (.releaseWriterSpan k) = some u) :
    SameCursors s (after s v u) ↔ AtCursors l s (.useWriter v (.releaseWriterSpan k)) := by
  have hi := h.idle_of_span hv hx
  constructor
  · intro hsame y hy span hspan hno hone _
    rw [hv] at hy
    cases hy
    obtain ⟨span', hk, hs⟩ := Option.bind_eq_some_iff.mp hs
    obtain rfl : span' = span := Option.some.inj (hk.symm.trans hspan)
    obtain ⟨⟨buffer, w'⟩, hrelease, rfl⟩ := Option.map_eq_some_iff.mp hs
    have hb := (release_empty hno hone hx hi.requested hrelease).1
    dsimp only at hb
    subst hb
    exact ⟨hsame.1, hsame.2⟩
  · intro hat
    obtain ⟨-, -, hbuf⟩ := idle_step hi h.represents.snapshot rfl (fun m q hm => by rcases hm with hm | hm <;> cases hm)
      (fun k' hk' span hspan hno hone => by
        cases hk'
        exact hat x hv span hspan hno hone hx) hs
    exact sameCursors_of_buffer hbuf

omit [DecidableEq ω] in
/-- The refused reservation of `primePort` leaves the cursors alone exactly when they are at zero. -/
theorem Sees.primePort_iff (h : Sees l s f writer spans) {c : PortCache ρ} {portIdx : Nat}
    {result : Except PrimePortError Nat} (hp : Writers.primePort l s c portIdx n = some (t, result))
    (he : EmptyReservation l s t (.primePort c portIdx n)) :
    SameCursors s t ↔ AtCursors l s (.primePort c portIdx n) := by
  simp only [EmptyReservation] at he
  split at he
  case h_2 => exact absurd he not_false
  case h_1 port hport =>
    have hn : 0 < n := Nat.pos_of_ne_zero fun hz => (by cases (check_eq_ok hport).mpr hz)
    simp only [Writers.primePort, hport] at hp
    obtain ⟨acq, hacq, hp⟩ := Option.bind_eq_some_iff.mp hp
    obtain ⟨b', hb', hp⟩ := Option.map_eq_some_iff.mp hp
    have hrefused := prime_refused h.represents.snapshot hn (fun hg => he ⟨hn, hg⟩) hb'
    have ht : t = { s with buffer := b' } := (congrArg Prod.fst hp).symm
    subst hrefused
    subst ht
    simp only [AtCursors, hport]
    exact ⟨fun hsame _ => hsame, fun hat => hat he⟩

end

/-- In a run in which writers take turns, a reservation without slots leaves both cursors where they are exactly when
    its writer's offset is there, too. While that is so the publish cursor never goes back, and `primePort` appends what
    it was asked for, or fails and changes nothing that a reader sees. -/
theorem empty_reservation [DecidableEq ω] [DecidableEq ρ] [Inhabited α] {a : Act α ω ρ}
    (h : (system l).Reach (Kept l) s) (hone : OneClaim l s a) (hrel : ReleasedByHolder s a)
    (hs : step l s a = some t) :
    (EmptyReservation l s t a → (SameCursors s t ↔ AtCursors l s a)) ∧
      (AtCursors l s a → s.publishCursor ≤ t.publishCursor ∧
        ∀ c portIdx n result, a = .primePort c portIdx n → primePort l s c portIdx n = some (t, result) →
          Primed l s t n result) := by
  obtain ⟨f, writer, spans, hsees⟩ := sees_reach h
  refine ⟨fun he => ?_, fun hat => ⟨(hsees.step_kept ⟨hone, hrel, hat⟩ hs).2, ?_⟩⟩
  · cases a with
    | newWriter | moveConstruct | moveAssign | destroy | useReader => exact absurd he not_false
    | primePort c portIdx n =>
      obtain ⟨⟨t, result⟩, hp, rfl⟩ := Option.map_eq_some_iff.mp hs
      exact hsees.primePort_iff hp he
    | useWriter w call =>
      obtain ⟨x, hx, hs⟩ := Option.bind_eq_some_iff.mp hs
      split at hs
      case isFalse => cases hs
      case isTrue =>
        obtain ⟨u, hu, rfl⟩ := Option.map_eq_some_iff.mp hs
        cases call with
        | tryReserve n p =>
          have hsize := he _ (update_self ..)
          exact iff_of_true (hsees.tryReserve_empty hx (Option.some.inj hu).symm hsize) trivial
        | reserve n p =>
          have hsize := he _ (update_self ..)
          simp only [CircularBuffer.step] at hu
          split at hu
          · cases hu
          · exact iff_of_true (hsees.tryReserve_empty hx (Option.some.inj hu).symm hsize) trivial
        | releaseWriterSpan k => exact hsees.release_iff hx (he x hx) hu
        | _ => exact absurd he not_false
  · rintro c portIdx n result rfl hp
    exact (hsees.primePort hone hat hp).2.2

section

variable [DecidableEq ω] [Fintype ω] (s : State α ω ρ) (a : Act α ω ρ)

instance (n : Nat) : Decidable (Granted l s n) := by
  unfold Granted
  infer_instance

instance : Decidable (OneClaim l s a) := by
  unfold OneClaim
  split
  · infer_instance
  · infer_instance
  · split <;> infer_instance
  · infer_instance

instance [DecidableEq ρ] : Decidable (ReleasedByHolder s a) := by
  unfold ReleasedByHolder
  split <;> infer_instance

instance : Decidable (AtCursors l s a) := by
  unfold AtCursors
  split
  · infer_instance
  · split <;> infer_instance
  · infer_instance

instance [DecidableEq ρ] : Decidable (Kept l s a) :=
  decidable_of_iff (OneClaim l s a ∧ ReleasedByHolder s a ∧ AtCursors l s a)
    ⟨fun h => ⟨h.1, h.2.1, h.2.2⟩, fun h => ⟨h.1, h.2, h.3⟩⟩

end

/-- An input with its writer, which publishes one slot. -/
def publishOne : List (Act Nat Bool Unit) :=
  [.useReader (.attach ()), .newWriter true, .useWriter true (.tryReserve 1 .processAll),
    .useWriter true (.write 0 0 7), .useWriter true (.releaseWriterSpan 0)]

def input : PortCache Unit := ⟨none, [⟨"in", ()⟩]⟩

def portableRing (size : Nat) (h : 0 < size) : Layout := ⟨size, false, h⟩

theorem empty_reservation_primed : ∃ s t,
    (system (portableRing 2 (by decide))).run initial publishOne = some s ∧
      step (portableRing 2 (by decide)) s (.primePort input 0 1) = some t ∧ s.publishCursor ≤ t.publishCursor :=
  ⟨_, _, (Option.some_get (by decide)).symm, (Option.some_get (by decide)).symm,
    ((empty_reservation ((system (portableRing 2 (by decide))).reach_get publishOne rfl (by decide) (by decide))
      (by decide) (by decide) (Option.some_get (by decide)).symm).2 (by decide)).1⟩

/-- On a full ring `primePort`'s own writer is refused, and its release takes the publish cursor from one to zero. -/
theorem refused_prime_goes_back : ¬ ∀ (l : Layout) (s t : State Nat Bool Unit) (a : Act Nat Bool Unit),
    (system l).Reach (OneClaim l) s → OneClaim l s a → step l s a = some t →
      (EmptyReservation l s t a → SameCursors s t) ∧ s.publishCursor ≤ t.publishCursor ∧
        ∀ c portIdx n result, a = .primePort c portIdx n → primePort l s c portIdx n = some (t, result) →
          Primed l s t n result := fun h =>
  absurd (h (portableRing 1 (by decide)) _ _ (.primePort input 0 1)
    ((system (portableRing 1 (by decide))).reach_get publishOne rfl (by decide) (by decide)) (by decide)
    (Option.some_get (by decide)).symm).2.1 (by decide)

end GnuRadio.Writers
