import GnuRadio.Theorems.SegmentedBuffer.Memory

/-! The readers' steps keep the invariant: a reader only moves forward, from a start that is the publish position, and
    none of its steps touches the storage. -/

namespace GnuRadio.SegmentedBuffer

open ReadSequences Function
open CircularBuffer (Reader SpanReleasePolicy)

variable {α ρ : Type} {shift : Nat} {s t : State α ρ} {r : ρ} {chain : List Nat}

/-- What a step of reader `r` leaves as it is, and what it does to its own sequence and spans. -/
structure ReaderStep (shift : Nat) (chain : List Nat) (s : State α ρ) (r : ρ) (t : State α ρ) : Prop where
  fault : t.fault = s.fault
  destroyed : t.destroyed = s.destroyed
  writer : t.writer = s.writer
  memory : t.impl.memory = s.impl.memory
  cursor : t.publishCursor = s.publishCursor
  reserve : t.impl.claimStrategy.reserveCursor = s.impl.claimStrategy.reserveCursor
  snapshotGeneration : t.impl.claimStrategy.snapshotGeneration = s.impl.claimStrategy.snapshotGeneration
  snapshot : t.impl.claimStrategy.snapshotReadSequences = s.impl.claimStrategy.snapshotReadSequences
  generation : s.impl.claimStrategy.readerGeneration ≤ t.impl.claimStrategy.readerGeneration
  readers : ∀ q, q ≠ r → t.readers q = s.readers q
  kept : ∀ q, q ≠ r → Kept q s.impl.claimStrategy.readSequences t.impl.claimStrategy.readSequences
  value : s.value r ≤ t.value r ∧ t.value r ≤ s.publishCursor
  position : ∀ x, t.position r = some x →
    (∃ y, s.position r = some y ∧ y ≤ x ∧ ((s.readers r).Announced → (t.readers r).Announced)) ∨ s.publishCursor ≤ x
  listed : (t.readers r).Listed → r ∈ t.impl.claimStrategy.readSequences.list.sequences
  announced : (t.readers r).Announced → (s.readers r).Announced ∨
    s.impl.claimStrategy.readerGeneration < t.impl.claimStrategy.readerGeneration
  attaching : Counted ReaderThread.Marked t.readers t.impl.nAttachingReaders
  holds : Counted ReaderThread.Holds s.readers s.useCount → Counted ReaderThread.Holds t.readers t.useCount
  sound : (t.readers r).Sound t r
  spans : ∀ h, t.readers r = .attached h → ∀ span ∈ h.spans, SpanHeld shift s.impl.memory chain (t.value r) span

/-! ### Other threads -/

theorem ReaderThread.Sound.kept {thread : ReaderThread ρ} (h : thread.Sound s r)
    (k : Kept r s.impl.claimStrategy.readSequences t.impl.claimStrategy.readSequences)
    (hc : s.publishCursor ≤ t.publishCursor) : thread.Sound t r := by
  have hv : t.value r = s.value r := k.value
  cases thread with
  | adding stage => exact AddSequences.Sound.kept h k hc
  | removing stage => exact RemoveSequence.Sound.kept h k
  | attached handle =>
    obtain ⟨h1, h2, h3, h4, h5, h6⟩ := h
    refine ⟨hv ▸ h1, h2, fun n hn => ?_, fun n hn => ?_, fun n policy hn => ?_, fun span hspan => ?_⟩
    · exact hv ▸ Nat.le_trans (h3 n hn) hc
    · exact hv ▸ Nat.le_trans (h4 n hn) hc
    · exact hv ▸ Nat.le_trans (h5 n policy hn) hc
    · exact hv ▸ ⟨(h6 span hspan).1, Nat.le_trans (h6 span hspan).2 hc⟩
  | absent | notifyAdded | unmark | cacheIndex | notifyRemoved | destroyed => trivial

/-- A reader with a position is at or above the value of its sequence. -/
theorem Cursors.value_le (h : Cursors s) {x : Nat} (hx : s.position r = some x) : s.value r ≤ x := by
  have hr := h.readers r
  rw [State.position] at hx
  cases hp : s.readers r with
  | adding stage =>
    rw [hp] at hx hr
    cases stage with
    | resetValue c =>
      cases hx
      exact hr.2.1
    | _ => cases hx
  | notifyAdded | unmark | cacheIndex | attached handle =>
    rw [hp] at hx
    exact Nat.le_of_eq (Option.some.inj hx)
  | absent | removing stage | notifyRemoved | destroyed =>
    rw [hp] at hx
    cases hx

namespace ReaderStep

variable (h : ReaderStep shift chain s r t)
include h

theorem position_other {q : ρ} (hq : q ≠ r) : t.position q = s.position q := by
  rw [State.position, State.position, h.readers q hq, State.value, State.value, (h.kept q hq).value]

/-- Each position is one from before or above, or at least the publish position. -/
theorem advances (q : ρ) (x : Nat) (hx : t.position q = some x) :
    (∃ y, s.position q = some y ∧ y ≤ x ∧ ((s.readers q).Announced → (t.readers q).Announced)) ∨
      s.publishCursor ≤ x := by
  rcases eq_or_ne q r with rfl | hq
  · exact h.position x hx
  · rw [h.position_other hq] at hx
    exact .inl ⟨x, hx, Nat.le_refl _, fun ha => (h.readers q hq).symm ▸ ha⟩

theorem bounded {readers : ρ → Prop} {bound : Nat → Prop} (hb : Bounded s readers bound)
    (hup : ∀ x y, x ≤ y → bound x → bound y) : Bounded t readers bound := by
  intro q x hx
  rw [h.cursor]
  rcases h.advances q x hx with ⟨y, hy, hyx, -⟩ | hx
  · rcases hb q y hy with hb | hb | hb
    · exact .inl (Nat.le_trans hb hyx)
    · exact .inr (.inl hb)
    · exact .inr (.inr (hup y x hyx hb))
  · exact .inl hx

theorem bounded_announced (hb : Bounded s (fun r => (s.readers r).Announced) fun _ => False) :
    Bounded t (fun r => (t.readers r).Announced) fun _ => False := by
  intro q x hx
  rw [h.cursor]
  rcases h.advances q x hx with ⟨y, hy, hyx, ha⟩ | hx
  · rcases hb q y hy with hb | hb | hb
    · exact .inl (Nat.le_trans hb hyx)
    · exact .inr (.inl (ha hb))
    · exact hb.elim
  · exact .inl hx

theorem loaded (stage : MinReader ρ) (hs : stage.Loaded s) : stage.Loaded t := by
  cases stage with
  | loadSequences generation => exact Nat.le_trans hs h.generation
  | loadGeneration | readSequence minimum q rest | found minReader => trivial

theorem pc {pc : Pc α ρ} (hp : pc.Sound s chain) : pc.Sound t chain := by
  cases pc with
  | idle | allocate use => trivial
  | claim n w policy stage => exact h.loaded stage hp
  | grow use | append use | release after | checkAttaching after | freeIndexes after replaced =>
    simp only [Pc.Sound] at hp ⊢
    rwa [h.memory]
  | getRemainingCapacity after stage =>
    obtain ⟨h1, h2, h3, h4⟩ := hp
    refine ⟨h.memory ▸ h1, h.bounded_announced h2, h.loaded stage h3, ?_⟩
    cases stage with
    | loadGeneration | loadSequences generation => trivial
    | readSequence minimum q rest => exact h.bounded h4 fun x y hxy ⟨m, hm, hmx⟩ => ⟨m, hm, Nat.le_trans hmx hxy⟩
    | found minReader => exact h.bounded h4 fun x y hxy hmx => Nat.le_trans hmx hxy
  | loadReaders after => exact ⟨h.memory ▸ hp.1, h.bounded_announced hp.2⟩
  | readReaders after slowest rest => exact ⟨h.memory ▸ hp.1, h.bounded hp.2 fun x y hxy hsx => Nat.le_trans hsx hxy⟩
  | freeSegments after slowestReader =>
    obtain ⟨h1, h2, h3⟩ := hp
    refine ⟨h.memory ▸ h1, h.cursor ▸ h2, fun q x hx => ?_⟩
    rcases h.advances q x hx with ⟨y, hy, hyx, -⟩ | hx
    · exact Nat.le_trans (h3 q y hy) hyx
    · exact Nat.le_trans h2 hx

theorem cursors (hi : Cursors s) : Cursors t where
  offset := by
    rw [h.cursor, h.writer]
    exact hi.offset
  reserve := by
    rw [h.cursor, h.reserve]
    exact hi.reserve
  value q := by
    rw [h.cursor]
    rcases eq_or_ne q r with rfl | hq
    · exact h.value.2
    · have hv : t.value q = s.value q := (h.kept q hq).value
      rw [hv]
      exact hi.value q
  generation g hg := Nat.le_trans (hi.generation g (h.snapshotGeneration ▸ hg)) h.generation
  listed q hq := by
    rcases eq_or_ne q r with rfl | hqr
    · exact h.listed hq
    · exact (h.kept q hqr).mem (hi.listed q (h.readers q hqr ▸ hq))
  announced hg q hq := by
    rw [h.snapshotGeneration] at hg
    rw [h.snapshot]
    -- A generation that a step has raised is above the one of the snapshot.
    have hle := hi.generation _ hg
    have heq := Nat.le_antisymm h.generation hle
    rcases eq_or_ne q r with rfl | hqr
    · rcases h.announced hq with ha | hlt
      · exact hi.announced (heq ▸ hg) q ha
      · exact absurd hlt (Nat.not_lt.mpr hle)
    · exact hi.announced (heq ▸ hg) q (h.readers q hqr ▸ hq)
  attaching := h.attaching
  readers q := by
    rcases eq_or_ne q r with rfl | hq
    · exact h.sound
    · rw [h.readers q hq]
      exact (hi.readers q).kept (h.kept q hq) (Nat.le_of_eq h.cursor.symm)

theorem storage (hi : Storage shift s chain) : Storage shift t chain where
  sound := h.memory ▸ hi.sound
  passed := by
    rw [h.memory, h.cursor]
    exact hi.passed
  position q x hx := by
    rw [h.memory]
    rcases h.advances q x hx with ⟨y, hy, hyx, -⟩ | hx
    · exact Nat.le_trans (hi.position q y hy) hyx
    · exact Nat.le_trans hi.passed hx
  allocated := by
    rw [h.memory, h.cursor]
    exact hi.allocated
  spans q handle hq span hspan := by
    rw [h.memory]
    rcases eq_or_ne q r with rfl | hqr
    · exact h.spans handle hq span hspan
    · rw [h.readers q hqr] at hq
      have hv : t.value q = s.value q := (h.kept q hqr).value
      rw [hv]
      exact hi.spans q handle hq span hspan

/-- A reader's step keeps the invariant. -/
theorem inv (hi : Inv shift s chain) : Inv shift t chain where
  cursors := h.cursors hi.cursors
  storage := h.storage hi.storage
  pc := h.writer.symm ▸ h.pc hi.pc

end ReaderStep

/-! ### The steps -/

variable [DecidableEq ρ]

namespace ReaderStep

/-- A step that only changes where the reader stands, and the counters with it. -/
theorem setCounted (hi : Inv shift s chain) (thread : ReaderThread ρ) {nAttaching useCount : Nat}
    (hp : ∀ x, thread.position (s.value r) = some x →
      s.position r = some x ∧ ((s.readers r).Announced → thread.Announced))
    (hl : thread.Listed → (s.readers r).Listed) (ha : thread.Announced → (s.readers r).Announced)
    (hm : Counted ReaderThread.Marked (update s.readers r thread) nAttaching)
    (hh : Counted ReaderThread.Holds s.readers s.useCount →
      Counted ReaderThread.Holds (update s.readers r thread) useCount)
    (hs : thread.Sound s r)
    (hspans : ∀ h, thread = .attached h → ∀ span ∈ h.spans, SpanHeld shift s.impl.memory chain (s.value r) span) :
    ReaderStep shift chain s r
      (State.setReader { s with impl := { s.impl with nAttachingReaders := nAttaching }, useCount := useCount } r thread) := by
  generalize ht : State.setReader { s with
    impl := { s.impl with nAttachingReaders := nAttaching }, useCount := useCount } r thread = t
  have hself : t.readers r = thread := by
    rw [← ht]
    exact update_self ..
  have hvalue : t.value r = s.value r := by rw [← ht]; rfl
  have hsound : thread.Sound t r := hs.kept (by rw [← ht]; exact .refl r _) (by rw [← ht]; exact Nat.le_refl _)
  subst ht
  refine ⟨rfl, rfl, rfl, rfl, rfl, rfl, rfl, rfl, Nat.le_refl _, fun q hq => update_of_ne hq .., fun q _ => .refl q _,
    ⟨Nat.le_refl _, hi.cursors.value r⟩, fun x hx => ?_, fun hl' => ?_, fun ha' => ?_, hm, hh, hself.symm ▸ hsound,
    fun h hr => hspans h (hself.symm.trans hr)⟩
  · rw [State.position, hself] at hx
    obtain ⟨h1, h2⟩ := hp x hx
    exact .inl ⟨x, h1, Nat.le_refl _, fun h => hself.symm ▸ h2 h⟩
  · rw [hself] at hl'
    exact hi.cursors.listed r (hl hl')
  · rw [hself] at ha'
    exact .inl (ha ha')

/-- A step of a constructed reader that leaves it constructed, and its sequence. -/
theorem setHandle (hi : Inv shift s chain) {h h' : Handle} (hr : s.readers r = .attached h)
    (hs : h'.Sound s.publishCursor (s.value r))
    (hspans : ∀ span ∈ h'.spans, SpanHeld shift s.impl.memory chain (s.value r) span) :
    ReaderStep shift chain s r (s.setReader r (.attached h')) := by
  refine setCounted hi (.attached h') (fun x hx => ⟨?_, fun _ => trivial⟩) (fun _ => ?_) (fun _ => ?_)
    (hi.cursors.attaching.keep ?_) (fun hu => hu.keep ?_) hs ?_
  · rw [State.position, hr]
    exact hx
  · rw [hr]
    trivial
  · rw [hr]
    trivial
  · rw [hr]
    exact Iff.rfl
  · rw [hr]
    exact Iff.rfl
  · rintro h'' he span hspan
    cases he
    exact hspans span hspan

theorem attach (hi : Inv shift s chain) (hr : s.readers r = .absent) :
    ReaderStep shift chain s r (State.setReader { s with
      impl := { s.impl with nAttachingReaders := s.impl.nAttachingReaders + 1 }
      useCount := s.useCount + 1 } r (.adding .load)) := by
  refine setCounted hi (.adding .load) (fun x hx => (by cases hx)) (fun hl => hl.elim) (fun ha => ha.elim)
    (hi.cursors.attaching.enter ?_ trivial) (fun hu => hu.enter ?_ trivial) trivial (fun h he => by cases he)
  · rw [hr]
    exact id
  · rw [hr]
    exact id

/-- A step of the reader's constructor or destructor in the list of the sequences. -/
theorem construct (hi : Inv shift s chain) {spurious : Bool} (hs : s.construct r spurious = some t) :
    ReaderStep shift chain s r t := by
  have hsound := hi.cursors.readers r
  have hv := hi.cursors.value r
  unfold State.construct at hs
  dsimp only at hs
  generalize hp : s.readers r = thread at hs hsound
  have hpos : s.position r = thread.position (s.value r) := by rw [← hp, State.position]
  have hne : ∀ {u : State α ρ} {thread : ReaderThread ρ} q, q ≠ r → (u.setReader r thread).readers q = u.readers q :=
    fun q hq => update_of_ne hq ..
  have hself : ∀ {u : State α ρ} {thread : ReaderThread ρ}, (u.setReader r thread).readers r = thread :=
    update_self ..
  cases thread with
  | absent | attached handle | destroyed => cases hs
  | adding stage =>
    simp only [Option.some.injEq] at hs
    subst hs
    refine ⟨rfl, rfl, rfl, rfl, rfl, rfl, rfl, rfl, Nat.le_refl _, hne, fun q hq => AddSequences.step_kept hsound hq,
      AddSequences.step_value hsound hv, fun x hx => ?_, fun hl => ?_, fun ha => ?_, hi.cursors.attaching.keep ?_,
      fun hu => hu.keep ?_, ?_, fun h hr => ?_⟩
    · rw [State.position, hself] at hx
      cases ho : (stage.step s.publishCursor r spurious s.impl.claimStrategy.readSequences).2 with
      | none =>
        simp only [State.publishCursor] at ho
        simp only [ho, ReaderThread.position] at hx
        refine .inl ⟨x, ?_, Nat.le_refl _, fun ha => (hp ▸ ha : ReaderThread.Announced (.adding stage)).elim⟩
        rw [hpos, ReaderThread.position, (AddSequences.step_done hsound ho).1]
        exact hx
      | some stage' =>
        simp only [State.publishCursor] at ho
        simp only [ho, ReaderThread.position] at hx
        rcases (AddSequences.step_sound hsound hv ho).2 with hn | hc
        · rw [hn] at hx
          cases hx
        · rw [hc] at hx
          exact .inr (Nat.le_of_eq (Option.some.inj hx))
    · rw [hself] at hl
      cases ho : (stage.step s.publishCursor r spurious s.impl.claimStrategy.readSequences).2 with
      | none => exact (AddSequences.step_done hsound ho).2
      | some stage' =>
        simp only [State.publishCursor] at ho
        simp only [ho] at hl
        exact hl.elim
    · rw [hself] at ha
      split at ha <;> exact ha.elim
    · rw [hp]
      split <;> exact Iff.rfl
    · rw [hp]
      split <;> exact Iff.rfl
    · rw [hself]
      cases ho : (stage.step s.publishCursor r spurious s.impl.claimStrategy.readSequences).2 with
      | none =>
        simp only [State.publishCursor] at ho
        simp only [ho]
        trivial
      | some stage' =>
        have hstage := (AddSequences.step_sound hsound hv ho).1
        simp only [State.publishCursor] at ho
        simp only [ho]
        exact hstage
    · rw [hself] at hr
      split at hr <;> cases hr
  | notifyAdded =>
    cases hs
    refine ⟨rfl, rfl, rfl, rfl, rfl, rfl, rfl, rfl, Nat.le_succ _, hne, fun q _ => .refl q _,
      ⟨Nat.le_refl _, hv⟩, fun x hx => ?_, fun _ => hi.cursors.listed r (hp ▸ trivial), fun _ => .inr (Nat.lt_succ_self _),
      hi.cursors.attaching.keep ?_, fun hu => hu.keep ?_, ?_, fun h hr => ?_⟩
    · rw [State.position, hself] at hx
      exact .inl ⟨x, hpos.trans hx, Nat.le_refl _, fun _ => hself.symm ▸ trivial⟩
    · rw [hp]
      exact Iff.rfl
    · rw [hp]
      exact Iff.rfl
    · rw [hself]
      trivial
    · rw [hself] at hr
      cases hr
  | unmark =>
    cases hs
    refine setCounted hi (.cacheIndex) (fun x hx => ⟨hpos.trans hx, fun _ => trivial⟩) (fun _ => hp ▸ trivial)
      (fun _ => hp ▸ trivial) (hi.cursors.attaching.leave ?_ id) (fun hu => hu.keep ?_) trivial (fun h he => by cases he)
    · rw [hp]
      trivial
    · rw [hp]
      exact Iff.rfl
  | cacheIndex =>
    cases hs
    refine setCounted hi (.attached _) (fun x hx => ⟨hpos.trans hx, fun _ => trivial⟩) (fun _ => hp ▸ trivial)
      (fun _ => hp ▸ trivial) (hi.cursors.attaching.keep ?_) (fun hu => hu.keep ?_) ?_ ?_
    · rw [hp]
      exact Iff.rfl
    · rw [hp]
      exact Iff.rfl
    · exact ⟨rfl, rfl, fun n hn => (by cases hn), fun n hn => (by cases hn), fun n policy hn => (by cases hn),
        fun span hspan => (by cases hspan)⟩
    · rintro h he span hspan
      cases he
      cases hspan
  | removing stage =>
    simp only [Option.some.injEq] at hs
    subst hs
    have hvalue : (stage.step r spurious s.impl.claimStrategy.readSequences).1.value =
        s.impl.claimStrategy.readSequences.value := RemoveSequence.step_value
    refine ⟨rfl, rfl, rfl, rfl, rfl, rfl, rfl, rfl, Nat.le_refl _, hne, fun q hq => RemoveSequence.step_kept hsound hq,
      ⟨?_, ?_⟩, fun x hx => ?_, fun hl => ?_, fun ha => ?_, hi.cursors.attaching.keep ?_, fun hu => hu.keep ?_, ?_,
      fun h hr => ?_⟩
    · exact Nat.le_of_eq (congrFun hvalue r).symm
    · exact Nat.le_trans (Nat.le_of_eq (congrFun hvalue r)) hv
    · rw [State.position, hself] at hx
      split at hx <;> cases hx
    · rw [hself] at hl
      split at hl <;> exact hl.elim
    · rw [hself] at ha
      split at ha <;> exact ha.elim
    · rw [hp]
      split <;> exact Iff.rfl
    · rw [hp]
      split <;> exact Iff.rfl
    · rw [hself]
      cases ho : (stage.step r spurious s.impl.claimStrategy.readSequences).2 with
      | none => trivial
      | some stage' =>
        obtain ⟨h1, h2⟩ := RemoveSequence.step_sound ho
        change stage'.Sound (stage.step r spurious s.impl.claimStrategy.readSequences).1
        rw [h2]
        exact h1
    · rw [hself] at hr
      split at hr <;> cases hr
  | notifyRemoved =>
    cases hs
    refine ⟨rfl, rfl, rfl, rfl, rfl, rfl, rfl, rfl, Nat.le_succ _, hne, fun q _ => .refl q _,
      ⟨Nat.le_refl _, hv⟩, fun x hx => ?_, fun hl => ?_, fun _ => .inr (Nat.lt_succ_self _),
      hi.cursors.attaching.keep ?_, fun hu => hu.leave ?_ id, ?_, fun h hr => ?_⟩
    · rw [State.position, hself] at hx
      cases hx
    · rw [hself] at hl
      exact hl.elim
    · rw [hp]
      exact Iff.rfl
    · rw [hp]
      trivial
    · rw [hself]
      trivial
    · rw [hself] at hr
      cases hr

/-! ### The calls of a constructed reader -/

section Calls

variable {h : Handle}

omit [DecidableEq ρ] in
theorem handle_sound (hi : Inv shift s chain) (hr : s.readers r = .attached h) :
    h.Sound s.publishCursor (s.value r) := by
  have hs := hi.cursors.readers r
  rwa [hr] at hs

omit [DecidableEq ρ] in
/-- The size that `get` gives a span is within what is published. -/
theorem get_sound (hs : h.Sound s.publishCursor (s.value r)) {nRequested : Option Nat}
    (hn : nRequested.getD 0 ≤ h.reader.available s.publishCursor) (hv : s.value r ≤ s.publishCursor) :
    let got := SegmentedBuffer.get s.publishCursor h.reader nRequested
    s.value r + got.2 ≤ s.publishCursor ∧ got.1.readIndexCached = h.reader.readIndexCached ∧
      got.1.instanceCount = h.reader.instanceCount ∧
      got.1.nRequestedSamplesToConsume = h.reader.nRequestedSamplesToConsume ∧
      ∀ n, got.1.nSamplesFirstGet = some n → s.value r + n ≤ s.publishCursor := by
  have hslots : s.value r + nRequested.getD (h.reader.available s.publishCursor) ≤ s.publishCursor := by
    have havail : h.reader.available s.publishCursor = s.publishCursor - s.value r := by
      rw [Reader.available, hs.cached]
    rw [havail] at hn ⊢
    cases nRequested with
    | none =>
      rw [Option.getD_none]
      omega
    | some n =>
      rw [Option.getD_some] at hn ⊢
      omega
  unfold SegmentedBuffer.get
  dsimp only
  cases hf : h.reader.nSamplesFirstGet with
  | none =>
    refine ⟨hslots, rfl, rfl, rfl, fun n hn' => ?_⟩
    cases hn'
    exact hslots
  | some first =>
    refine ⟨?_, rfl, rfl, rfl, hs.firstGet⟩
    have := hs.firstGet first hf
    dsimp only
    omega

omit [DecidableEq ρ] in
theorem nConsumed_le (hs : h.Sound s.publishCursor (s.value r)) {span : ReaderSpan} {n : Nat} {reader : Reader}
    (hf : reader.nSamplesFirstGet = h.reader.nSamplesFirstGet)
    (hq : reader.nRequestedSamplesToConsume = h.reader.nRequestedSamplesToConsume)
    (hn : span.nConsumed s.publishCursor reader = some n) (hv : s.value r ≤ s.publishCursor) :
    s.value r + n ≤ s.publishCursor := by
  unfold ReaderSpan.nConsumed at hn
  split at hn
  case h_1 n' hq' =>
    cases hn
    exact hs.requested _ (hq ▸ hq')
  case h_2 =>
    split at hn
    · cases hn
    · split at hn
      case h_1 n' hf' =>
        have := hs.firstGet n' (hf ▸ hf')
        cases hn
        split <;> omega
      case h_2 =>
        cases hn
        exact hv
    · cases hn
      exact hv

/-- The last span of a reader is released: the reader advances, and holds no span. -/
theorem advance (hi : Inv shift s chain) (hr : s.readers r = .attached h) {n : Nat} (reader : Reader)
    (hn : s.value r + n ≤ s.publishCursor) (hc : reader.readIndexCached = s.value r) (h0 : reader.instanceCount = 0)
    (ht : h.taking = none) :
    let sequences := s.impl.claimStrategy.readSequences
    ReaderStep shift chain s r
      ((s.setReadSequences (if n = 0 then sequences else sequences.setValue r (reader.readIndexCached + n))).setReader r
        (.attached ⟨reader.performConsume n, [], h.taking⟩)) := by
  intro sequences
  have hsound : ∀ v, v = s.value r + n → Handle.Sound s.publishCursor v ⟨reader.performConsume n, [], h.taking⟩ :=
    fun v hv => ⟨by rw [Reader.performConsume, hv, hc], h0, fun k hk => (by cases hk), fun k hk => (by cases hk),
      fun k policy hk => (by rw [ht] at hk; cases hk), fun span hspan => (by cases hspan)⟩
  by_cases h0 : n = 0
  · rw [if_pos h0]
    exact setHandle hi hr (hsound _ (by omega)) fun span hspan => by cases hspan
  · rw [if_neg h0]
    generalize ht : (s.setReadSequences (sequences.setValue r (reader.readIndexCached + n))).setReader r
      (.attached ⟨reader.performConsume n, [], h.taking⟩) = t
    have hself : t.readers r = .attached ⟨reader.performConsume n, [], h.taking⟩ := by
      rw [← ht]
      exact update_self ..
    have hvalue : t.value r = s.value r + n := by
      rw [← ht, ← hc]
      exact setValue_self
    have hother : ∀ q, q ≠ r → t.readers q = s.readers q := fun q hq => by
      rw [← ht]
      exact update_of_ne hq ..
    have hcursor : t.publishCursor = s.publishCursor := by rw [← ht]; rfl
    have hthread : (t.readers r).Sound t r := by
      rw [hself]
      change Handle.Sound t.publishCursor (t.value r) _
      rw [hcursor]
      exact hsound _ hvalue
    have hpos : s.position r = some (s.value r) := by rw [State.position, hr, ReaderThread.position]
    subst ht
    refine ⟨rfl, rfl, rfl, rfl, rfl, rfl, rfl, rfl, Nat.le_refl _, hother, fun q hq => kept_setValue hq, ?_, fun x hx => ?_,
      fun _ => hi.cursors.listed r (hr ▸ trivial), fun _ => .inl (hr ▸ trivial), hi.cursors.attaching.keep ?_,
      fun hu => hu.keep ?_, hthread, fun h' hr' span hspan => ?_⟩
    · rw [hvalue]
      exact ⟨Nat.le_add_right .., hn⟩
    · rw [State.position, hself, hvalue] at hx
      refine .inl ⟨_, hpos, ?_, fun _ => hself.symm ▸ trivial⟩
      rw [← Option.some.inj hx]
      exact Nat.le_add_right ..
    · rw [hr]
      exact Iff.rfl
    · rw [hr]
      exact Iff.rfl
    · rw [hself] at hr'
      cases hr'
      cases hspan

/-- A call or access of a constructed reader. -/
theorem call [Inhabited α] (hi : Inv shift s chain) (hr : s.readers r = .attached h) {a : Act α ρ}
    (hs : s.readerCall r h a = some t) : ReaderStep shift chain s r t := by
  have hsound := handle_sound hi hr
  have hspans := hi.storage.spans r h hr
  have hv := hi.cursors.value r
  cases a <;> simp only [State.readerCall] at hs
  case get q nRequested policy =>
    split at hs
    case isFalse => cases hs
    case isTrue hn =>
      cases hs
      obtain ⟨g1, g2, g3, g4, g5⟩ := get_sound hsound hn.2 hv
      refine setHandle hi hr ⟨g2.trans hsound.cached, g3.trans hsound.count, g5, fun n hq => ?_, fun n policy' hq => ?_,
        hsound.spans⟩ hspans
      · exact hsound.requested n (g4 ▸ hq)
      · cases hq
        exact g1
  case loadIndex q =>
    obtain ⟨⟨nSlots, policy⟩, htaking, rfl⟩ := Option.map_eq_some_iff.mp hs
    have hn := hsound.taking nSlots policy htaking
    refine setHandle hi hr ⟨hsound.cached, ?_, hsound.firstGet, hsound.requested, fun n policy' hq => (by cases hq),
      fun span hspan => ?_⟩ fun span hspan => ?_
    · simp only [List.length_append, List.length_singleton, hsound.count]
    · rcases List.mem_append.mp hspan with hspan | hspan
      · exact hsound.spans span hspan
      · obtain rfl := List.mem_singleton.mp hspan
        exact ⟨hsound.cached, hn⟩
    · rcases List.mem_append.mp hspan with hspan | hspan
      · exact hspans span hspan
      · obtain rfl := List.mem_singleton.mp hspan
        unfold SpanHeld
        dsimp only
        cases hp : s.impl.memory.index with
        | none =>
          -- Without an index nothing has been published.
          have h0 := hi.storage.sound.null hp
          have hle := hi.storage.allocated
          rw [h0, Nat.zero_shiftLeft] at hle
          dsimp only
          omega
        | some p =>
          obtain ⟨rest, index, hchain, -⟩ := hi.storage.sound.head hp
          refine ⟨⟨hchain ▸ (.head _), .inl hp⟩, fun x _ _ => ?_⟩
          rw [Memory.inUse, hp]
          rfl
  case copyReaderSpan q k =>
    split at hs
    case isFalse => cases hs
    case isTrue htaking =>
      obtain ⟨span, hk, rfl⟩ := Option.map_eq_some_iff.mp hs
      have hmem := List.mem_of_getElem? hk
      refine setHandle hi hr ⟨hsound.cached, ?_, hsound.firstGet, hsound.requested, hsound.taking,
        fun span' hspan => ?_⟩ fun span' hspan => ?_
      · simp only [List.length_append, List.length_singleton, hsound.count]
      · rcases List.mem_append.mp hspan with hspan | hspan
        · exact hsound.spans span' hspan
        · obtain rfl := List.mem_singleton.mp hspan
          exact hsound.spans span' hmem
      · rcases List.mem_append.mp hspan with hspan | hspan
        · exact hspans span' hspan
        · obtain rfl := List.mem_singleton.mp hspan
          exact hspans span' hmem
  case tryConsume q n =>
    split at hs
    case isFalse => cases hs
    case isTrue hn =>
      cases hs
      have htry : ∀ k, (h.reader.tryConsume n).1.nRequestedSamplesToConsume = some k →
          s.value r + k ≤ s.publishCursor := by
        intro k hk
        unfold Reader.tryConsume at hk
        split at hk
        case isTrue => exact hsound.requested k hk
        case isFalse =>
          split at hk
          case isTrue => exact hsound.requested k hk
          case isFalse hle =>
            cases hk
            cases hf : h.reader.nSamplesFirstGet with
            | none =>
              rw [hf, Option.getD_none] at hle
              omega
            | some first =>
              rw [hf, Option.getD_some] at hle
              have := hsound.firstGet first hf
              omega
      have hsame : (h.reader.tryConsume n).1.readIndexCached = h.reader.readIndexCached ∧
          (h.reader.tryConsume n).1.instanceCount = h.reader.instanceCount ∧
          (h.reader.tryConsume n).1.nSamplesFirstGet = h.reader.nSamplesFirstGet := by
        unfold Reader.tryConsume
        split
        · exact ⟨rfl, rfl, rfl⟩
        · split <;> exact ⟨rfl, rfl, rfl⟩
      obtain ⟨h1, h2, h3⟩ := hsame
      exact setHandle hi hr ⟨h1.trans hsound.cached, h2.trans hsound.count, fun k hk => hsound.firstGet k (h3 ▸ hk), htry,
        hsound.taking, hsound.spans⟩ hspans
  case releaseReaderSpan q k =>
    split at hs
    case isFalse => cases hs
    case isTrue htaking =>
      obtain ⟨span, hk, hs⟩ := Option.bind_eq_some_iff.mp hs
      have hlt := (List.getElem?_eq_some_iff.mp hk).1
      have hlen : (h.spans.eraseIdx k).length = h.reader.instanceCount - 1 := by
        rw [List.length_eraseIdx_of_lt hlt, hsound.count]
      unfold State.releaseReaderSpan at hs
      dsimp only at hs
      split at hs
      case isTrue h0 =>
        obtain ⟨n, hn, rfl⟩ := Option.map_eq_some_iff.mp hs
        have hnil : h.spans.eraseIdx k = [] := List.length_eq_zero_iff.mp (hlen.trans h0)
        have hle := nConsumed_le hsound rfl rfl hn hv
        have := advance hi hr { h.reader with instanceCount := h.reader.instanceCount - 1 } hle
          hsound.cached h0 htaking
        rw [hnil]
        exact this
      case isFalse =>
        cases hs
        have hsub : ∀ span' ∈ h.spans.eraseIdx k, span' ∈ h.spans := fun span' => List.mem_of_mem_eraseIdx
        exact setHandle hi hr ⟨hsound.cached, hlen.symm, hsound.firstGet, hsound.requested, hsound.taking,
          fun span' hspan => hsound.spans span' (hsub span' hspan)⟩ fun span' hspan => hspans span' (hsub span' hspan)
  case detach q =>
    split at hs
    case isFalse => cases hs
    case isTrue hn =>
      cases hs
      refine setCounted hi (.removing .load) (fun x hx => (by cases hx)) (fun hl => hl.elim)
        (fun ha => ha.elim) (hi.cursors.attaching.keep ?_) (fun hu => hu.keep ?_) trivial (fun h he => by cases he)
      · rw [hr]
        exact Iff.rfl
      · rw [hr]
        exact Iff.rfl
  case reserve | copyWriterSpan | write | publish | releaseWriterSpan | writer | attach | construct | destroy => cases hs

end Calls

end ReaderStep

end GnuRadio.SegmentedBuffer
