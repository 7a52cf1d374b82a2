import GnuRadio.Theorems.SegmentedBuffer.Readers

/-! The writer's steps keep the invariant and do not fault: what it frees lies below every reader, and no live span holds
    an index that it frees. -/

namespace GnuRadio.SegmentedBuffer

open CircularBuffer (WriterSpan)

variable {α ρ : Type} {size shift : Nat} {s t : State α ρ} {r : ρ} {chain : List Nat}

/-! ### What the writer changes -/

theorem Storage.congr (h : Storage shift s chain) (hm : t.impl.memory = s.impl.memory)
    (hc : t.publishCursor = s.publishCursor) (hr : t.readers = s.readers)
    (hv : t.impl.claimStrategy.readSequences = s.impl.claimStrategy.readSequences) : Storage shift t chain where
  sound := hm ▸ h.sound
  passed := by
    rw [hm, hc]
    exact h.passed
  position r x hx := by
    rw [State.position, hr, State.value, hv] at hx
    rw [hm]
    exact h.position r x hx
  allocated := by
    rw [hm, hc]
    exact h.allocated
  spans r handle hrd span hspan := by
    rw [hm, State.value, hv]
    exact h.spans r handle (hr ▸ hrd) span hspan

namespace Inv

/-- A step in what belongs to the writer alone. -/
theorem setWriter (hi : Inv shift s chain) {w : WriterThread α ρ} (ho : s.publishCursor ≤ w.writer.claimOffset)
    (hp : w.pc.Sound s chain) : Inv shift { s with writer := w } chain where
  cursors :=
    { offset := ho
      reserve := hi.cursors.reserve
      value := hi.cursors.value
      generation := hi.cursors.generation
      listed := hi.cursors.listed
      announced := hi.cursors.announced
      attaching := hi.cursors.attaching
      readers := fun r => (hi.cursors.readers r).kept (.refl r _) (Nat.le_refl _) }
  storage := hi.storage.congr rfl rfl rfl rfl
  pc := by
    cases hpc : w.pc with
    | getRemainingCapacity after stage =>
      rw [hpc] at hp
      obtain ⟨h1, h2, h3, h4⟩ := hp
      refine ⟨h1, h2, ?_, ?_⟩
      · cases stage <;> exact h3
      · cases stage <;> exact h4
    | claim n w policy stage =>
      rw [hpc] at hp
      cases stage <;> exact hp
    | _ =>
      rw [hpc] at hp
      exact hpc ▸ hp

theorem setPc (hi : Inv shift s chain) {pc : Pc α ρ} (hp : pc.Sound s chain) : Inv shift (s.setPc pc) chain :=
  hi.setWriter (w := { s.writer with pc := pc }) hi.cursors.offset hp

theorem pushSpan (hi : Inv shift s chain) (span : WriterSpan) : Inv shift (s.pushSpan span) chain :=
  hi.setWriter hi.cursors.offset trivial

theorem resume (hi : Inv shift s chain) {after : After α} (ha : after.Sound s.impl.memory) :
    Inv shift (s.resume after) chain := by
  cases after with
  | claim n w policy =>
    rw [State.resume]
    split
    · exact hi.pushSpan _
    · exact hi.setPc trivial
  | grow use => exact hi.setPc ha

/-- A step in the storage: what the readers may still read is kept, and so is every index that one may hold. -/
theorem setMemory (hi : Inv shift s chain) {m : Memory α} {chain' : List Nat} {w : WriterThread α ρ} (hsound : m.Sound chain')
    (k : Memory.KeepsEntries m.oldestSegment chain s.impl.memory m) (ho : s.publishCursor ≤ w.writer.claimOffset)
    (hpassed : m.oldestSegment <<< shift ≤ s.publishCursor)
    (hpos : ∀ r x, s.position r = some x → m.oldestSegment <<< shift ≤ x)
    (hheld : ∀ r p, s.position r = some (s.value r) → Held s.impl.memory chain (s.value r) p → Held m chain' (s.value r) p)
    (hp : w.pc.Sound { s.setMemory m with writer := w } chain') : Inv shift { s.setMemory m with writer := w } chain' where
  cursors :=
    { offset := ho
      reserve := hi.cursors.reserve
      value := hi.cursors.value
      generation := hi.cursors.generation
      listed := hi.cursors.listed
      announced := hi.cursors.announced
      attaching := hi.cursors.attaching
      readers := fun r => (hi.cursors.readers r).kept (.refl r _) (Nat.le_refl _) }
  storage :=
    { sound := hsound
      passed := hpassed
      position := hpos
      allocated := Nat.le_trans hi.storage.allocated (shiftLeft_mono k.next)
      spans := fun r h hr span hspan => by
        have hr : s.readers r = .attached h := hr
        have hread : s.position r = some (s.value r) := by rw [State.position, hr, ReaderThread.position]
        have hs := hi.storage.spans r h hr span hspan
        obtain ⟨h1, h2⟩ := (ReaderStep.handle_sound hi hr).spans span hspan
        change SpanHeld shift m chain' (s.value r) span
        unfold SpanHeld at hs ⊢
        split at hs
        case h_1 => exact hs
        case h_2 p hp' =>
          refine ⟨hheld r p hread hs.1, fun x hx hlt => ?_⟩
          have hlo : m.oldestSegment ≤ segmentNumber shift x :=
            le_segmentNumber.mpr (Nat.le_trans (hpos r _ hread) (h1 ▸ hx))
          have hhi : segmentNumber shift x < s.impl.memory.nextSegment :=
            segmentNumber_lt.mpr (Nat.lt_of_lt_of_le (by omega) hi.storage.allocated)
          have hentry := k.entry p hs.1.mem _ hlo hhi
          rw [k.inUse _ hlo hhi, ← hs.2 x hx hlt]
          exact hentry }
  pc := hp

/-! ### `getMinReaderCursor` -/

section MinReader

variable {stage : MinReader ρ}

theorem ofSnapshot_loaded {strategy : SingleProducerStrategy.Strategy ρ} : (MinReader.ofSnapshot strategy).Loaded s := by
  unfold MinReader.ofSnapshot
  split <;> trivial

theorem ofSnapshot_sound {strategy : SingleProducerStrategy.Strategy ρ}
    (hb : Bounded s (· ∈ strategy.snapshotReadSequences) fun _ => False) : (MinReader.ofSnapshot strategy).Sound s := by
  unfold MinReader.ofSnapshot
  split
  case h_1 hnil =>
    intro r x hx
    rcases hb r x hx with h | h | h
    · exact .inl h
    · rw [hnil] at h
      cases h
    · exact h.elim
  case h_2 q rest hcons =>
    intro r x hx
    rcases hb r x hx with h | h | h
    · exact .inl h
    · exact .inr (.inl (hcons ▸ h))
    · exact h.elim

/-- An access of `getMinReaderCursor` changes the snapshot at most, to the list. -/
theorem minReader (hi : Inv shift s chain) (hl : stage.Loaded s) (pc : Pc α ρ)
    (hp : pc.Sound (s.setStrategy (stage.step s.impl.claimStrategy).1) chain) :
    Inv shift ((s.setStrategy (stage.step s.impl.claimStrategy).1).setPc pc) chain ∧
      (stage.step s.impl.claimStrategy).2.Loaded (s.setStrategy (stage.step s.impl.claimStrategy).1) := by
  suffices h : Inv shift ((s.setStrategy (stage.step s.impl.claimStrategy).1).setPc .idle) chain ∧
      (stage.step s.impl.claimStrategy).2.Loaded (s.setStrategy (stage.step s.impl.claimStrategy).1) from
    ⟨h.1.setPc hp, h.2⟩
  cases stage with
  | loadGeneration =>
    rw [MinReader.step]
    split
    · exact ⟨hi.setPc trivial, ofSnapshot_loaded⟩
    · exact ⟨hi.setPc trivial, Nat.le_refl _⟩
  | loadSequences generation =>
    refine ⟨⟨⟨hi.cursors.offset, hi.cursors.reserve, hi.cursors.value, fun g hg => ?_, hi.cursors.listed,
      fun _ r ha => hi.cursors.listed r ?_, hi.cursors.attaching,
      fun r => (hi.cursors.readers r).kept (.refl r _) (Nat.le_refl _)⟩, hi.storage.congr rfl rfl rfl rfl, trivial⟩,
      ofSnapshot_loaded⟩
    · cases hg
      exact hl
    · change (s.readers r).Announced at ha
      cases hr : s.readers r with
      | unmark | cacheIndex | attached handle => trivial
      | _ =>
        rw [hr] at ha
        exact ha.elim
  | readSequence minimum r rest =>
    cases rest with
    | nil | cons r' rest => exact ⟨hi.setPc trivial, trivial⟩
  | found minReader => exact ⟨hi.setPc trivial, trivial⟩

theorem minReader_step (stage : MinReader ρ) (strategy : SingleProducerStrategy.Strategy ρ) :
    (stage.step strategy).1.readSequences = strategy.readSequences ∧
      (stage.step strategy).1.publishCursor = strategy.publishCursor ∧
      (stage.step strategy).1.reserveCursor = strategy.reserveCursor := by
  unfold MinReader.step
  split
  · split <;> exact ⟨rfl, rfl, rfl⟩
  · exact ⟨rfl, rfl, rfl⟩
  · dsimp only
    split <;> exact ⟨rfl, rfl, rfl⟩
  · exact ⟨rfl, rfl, rfl⟩

/-- What it finds bounds the readers, once each reader below the publish position is announced. -/
theorem minReader_sound (hi : Inv shift s chain) (hb : Bounded s (fun r => (s.readers r).Announced) fun _ => False)
    (hs : stage.Sound s) :
    (stage.step s.impl.claimStrategy).2.Sound (s.setStrategy (stage.step s.impl.claimStrategy).1) := by
  cases stage with
  | loadGeneration =>
    rw [MinReader.step]
    split
    case isTrue hg =>
      refine ofSnapshot_sound fun r x hx => ?_
      rcases hb r x hx with h | h | h
      · exact .inl h
      · exact .inr (.inl (hi.cursors.announced hg r h))
      · exact h.elim
    case isFalse => trivial
  | loadSequences generation =>
    refine ofSnapshot_sound fun r x hx => ?_
    rcases hb r x hx with h | h | h
    · exact .inl h
    · refine .inr (.inl (hi.cursors.listed r ?_))
      cases hr : s.readers r with
      | unmark | cacheIndex | attached handle => trivial
      | _ =>
        rw [hr] at h
        exact h.elim
    · exact h.elim
  | readSequence minimum r rest =>
    obtain ⟨hv, hm⟩ := lower_le minimum (s.value r)
    -- The minimum now covers `r` as well.
    have hnext : ∀ q x, s.position q = some x → s.publishCursor ≤ x ∨ q ∈ rest ∨ lower minimum (s.value r) ≤ x := by
      intro q x hx
      rcases hs q x hx with h | h | ⟨m, hmin, hle⟩
      · exact .inl h
      · rcases List.mem_cons.mp h with rfl | h
        · exact .inr (.inr (Nat.le_trans hv (hi.cursors.value_le hx)))
        · exact .inr (.inl h)
      · exact .inr (.inr (Nat.le_trans (hm m hmin) hle))
    cases rest with
    | nil =>
      intro q x hx
      rcases hnext q x hx with h | h | h
      · exact .inl h
      · cases h
      · exact .inr (.inr h)
    | cons r' rest =>
      intro q x hx
      rcases hnext q x hx with h | h | h
      · exact .inl h
      · exact .inr (.inl h)
      · exact .inr (.inr ⟨_, rfl, h⟩)
  | found minReader => exact hs

end MinReader

/-! ### Writing and publishing -/

/-- What no step of the writer changes. -/
structure Frame (s t : State α ρ) : Prop where
  fault : t.fault = s.fault
  destroyed : t.destroyed = s.destroyed
  readers : t.readers = s.readers
  useCount : t.useCount = s.useCount

theorem Frame.rfl : Frame s s := ⟨.refl _, .refl _, .refl _, .refl _⟩

theorem resume_frame (after : After α) : Frame s (s.resume after) := by
  cases after with
  | claim n w policy =>
    rw [State.resume]
    split <;> exact ⟨.refl _, .refl _, .refl _, .refl _⟩
  | grow use => exact ⟨.refl _, .refl _, .refl _, .refl _⟩

/-- The claim starts at the publish position or above, where no segment has been freed. -/
theorem oldest_le (hi : Inv shift s chain) (i : Nat) :
    s.impl.memory.oldestSegment ≤ segmentNumber shift (s.writer.writer.claimOffset + i) := by
  refine le_segmentNumber.mpr (Nat.le_trans hi.storage.passed ?_)
  exact Nat.le_trans hi.cursors.offset (Nat.le_add_right ..)

theorem held_of_eq {m m' : Memory α} {v p : Nat} (h : Held m chain v p) (hi : m'.index = m.index)
    (hc : ∀ index', m'.current = some index' → ∃ index, m.current = some index ∧ index.replacedAt = index'.replacedAt) :
    Held m' chain v p := by
  refine ⟨h.mem, h.replacedAt.imp (hi ▸ ·) fun hv index' hi' => ?_⟩
  obtain ⟨index, hindex, he⟩ := hc index' hi'
  exact he ▸ hv index hindex

theorem allocated (hi : Inv shift s chain) (use : Use α)
    (ha : s.impl.memory.AllocatedThrough shift (s.endPosition use)) :
    ∃ t, s.allocated shift use = some t ∧ Inv shift t chain ∧ Frame s t := by
  have hend := allocatedThrough_iff.mp ha
  cases use with
  | write i value =>
    have hlt : segmentNumber shift (s.writer.writer.claimOffset + i) < s.impl.memory.nextSegment :=
      segmentNumber_lt.mpr hend
    obtain ⟨q, slots, hq, hslots⟩ := hi.storage.sound.live _ (hi.oldest_le i) hlt
    obtain ⟨m, hm, hsound, k, hindexes, hindex, hnext, holdest, -⟩ := hi.storage.sound.writeSlot hq hslots
    refine ⟨(s.setMemory m).setPc .idle, by rw [State.allocated, hm, Option.map_some], ?_, ⟨.refl _, .refl _, .refl _, .refl _⟩⟩
    refine hi.setMemory (w := { s.writer with pc := .idle }) hsound (holdest.symm ▸ k) hi.cursors.offset
      (holdest.symm ▸ hi.storage.passed) (holdest.symm ▸ hi.storage.position) (fun r p _ h => ?_) trivial
    refine held_of_eq h hindex fun index hc => ⟨index, ?_, rfl⟩
    rw [← hc, Memory.current, Memory.current, hindexes, hindex]
  | publish =>
    refine ⟨_, rfl, ⟨?_, ?_, trivial⟩, ⟨.refl _, .refl _, .refl _, .refl _⟩⟩
    · have hle : s.publishCursor ≤ s.writer.writer.claimOffset + s.writer.writer.nRequestedSamplesToPublish.getD 0 :=
        Nat.le_trans hi.cursors.offset (Nat.le_add_right ..)
      exact
        { offset := Nat.le_refl _
          reserve := Nat.le_refl _
          value := fun r => Nat.le_trans (hi.cursors.value r) hle
          generation := hi.cursors.generation
          listed := hi.cursors.listed
          announced := hi.cursors.announced
          attaching := hi.cursors.attaching
          readers := fun r => (hi.cursors.readers r).kept (.refl r _) hle }
    · exact
        { sound := hi.storage.sound
          passed := Nat.le_trans hi.storage.passed (Nat.le_trans hi.cursors.offset (Nat.le_add_right ..))
          position := hi.storage.position
          allocated := hend
          spans := hi.storage.spans }

/-! ### Allocating -/

/-- A larger index is installed, and a segment follows. -/
theorem replaceIndex [Inhabited α] (hi : Inv shift s chain) (use : Use α) {length : Nat} (hl : ∃ j, length = 2 ^ j)
    (hfits : s.impl.memory.nextSegment - s.impl.memory.oldestSegment < length) :
    ∃ t chain', ((s.impl.memory.replaceIndex length s.publishCursor).map fun m => (s.setMemory m).setPc (.append use)) =
      some t ∧ Inv shift t chain' ∧ Frame s t := by
  obtain ⟨m, q, index, hm, hsound, k, hindex, hcur, hlen, hrep, hat, hnext, holdest, hsegments⟩ :=
    hi.storage.sound.replaceIndex s.publishCursor hl (Nat.le_of_lt hfits)
  refine ⟨(s.setMemory m).setPc (.append use), q :: chain, by rw [hm, Option.map_some], ?_, ⟨.refl _, .refl _, .refl _, .refl _⟩⟩
  refine hi.setMemory (w := { s.writer with pc := .append use }) hsound (holdest.symm ▸ k.toKeepsEntries)
    hi.cursors.offset (holdest.symm ▸ hi.storage.passed) (holdest.symm ▸ hi.storage.position) (fun r p _ h => ?_)
    ⟨index, hcur, ?_⟩
  · -- Every position is at most the one at which the index is replaced.
    refine ⟨.tail _ h.mem, .inr fun index' hi' => ?_⟩
    cases hcur.symm.trans hi'
    rw [hat]
    exact hi.cursors.value r
  · change m.nextSegment - m.oldestSegment < index.length
    rwa [hnext, holdest, hlen]

theorem append [Inhabited α] (hi : Inv shift s chain) (use : Use α) {index : SegmentIndex}
    (hc : s.impl.memory.current = some index)
    (hfree : s.impl.memory.nextSegment - s.impl.memory.oldestSegment < index.length) :
    ∃ t, (s.impl.memory.allocateSegment.map fun m => (s.setMemory m).setPc (.allocate use)) = some t ∧
      Inv shift t chain ∧ Frame s t := by
  obtain ⟨m, q, index', hm, hsound, k, hindex, hcur, -, -, hat, -, holdest, -⟩ :=
    hi.storage.sound.allocateSegment hc hfree
  refine ⟨(s.setMemory m).setPc (.allocate use), by rw [hm, Option.map_some], ?_, ⟨.refl _, .refl _, .refl _, .refl _⟩⟩
  refine hi.setMemory (w := { s.writer with pc := .allocate use }) hsound (holdest.symm ▸ k.toKeepsEntries)
    hi.cursors.offset (holdest.symm ▸ hi.storage.passed) (holdest.symm ▸ hi.storage.position) (fun r p _ h => ?_) trivial
  refine held_of_eq h hindex fun i' hi' => ⟨index, hc, ?_⟩
  cases hcur.symm.trans hi'
  exact hat.symm

/-! ### Freeing -/

/-- The oldest segment lies below every reader. -/
theorem freeSegment (hi : Inv shift s chain) {after : After α} {slowestReader : Nat}
    (hpc : s.writer.pc = .freeSegments after slowestReader)
    (hpassed : s.impl.memory.SegmentPassed shift slowestReader) :
    ∃ t, s.impl.memory.freeSegment.map s.setMemory = some t ∧ Inv shift t chain ∧ Frame s t := by
  obtain ⟨hnull, hle, hslow⟩ : (Pc.freeSegments after slowestReader).Sound s chain := hpc ▸ hi.pc
  obtain ⟨p, hp⟩ := Option.ne_none_iff_exists'.mp hnull
  obtain ⟨rest, index, -, -, hc, -⟩ := hi.storage.sound.head hp
  obtain ⟨m, index', hm, hsound, k, hindex, hcur, -, -, hat, -, holdest⟩ :=
    hi.storage.sound.freeSegment hpassed.1 hc
  refine ⟨s.setMemory m, by rw [hm, Option.map_some], ?_, ⟨.refl _, .refl _, .refl _, .refl _⟩⟩
  refine hi.setMemory (w := s.writer) hsound (holdest.symm ▸ k.toKeepsEntries) hi.cursors.offset ?_ (fun r x hx => ?_)
    (fun r p _ h => ?_) ?_
  · rw [holdest]
    exact Nat.le_trans hpassed.2 hle
  · rw [holdest]
    exact Nat.le_trans hpassed.2 (hslow r x hx)
  · refine held_of_eq h hindex fun i' hi' => ⟨index, hc, ?_⟩
    cases hcur.symm.trans hi'
    exact hat.symm
  · rw [hpc]
    refine ⟨?_, hle, hslow⟩
    change m.index ≠ none
    rw [hindex]
    exact hnull

/-- Every reader is past the position of the replacement, so none holds a replaced index. -/
theorem takeReplaced (hi : Inv shift s chain) {after : After α} {slowestReader : Nat} {index : SegmentIndex}
    (hslow : ∀ r x, s.position r = some x → slowestReader ≤ x) (hc : s.impl.memory.current = some index)
    (hpassed : Memory.ReplacedPassed index slowestReader) :
    ∃ t chain', (s.impl.memory.takeReplaced.map fun (m, replaced) =>
      (s.setMemory m).setPc (.freeIndexes after replaced)) = some t ∧ Inv shift t chain' ∧ Frame s t := by
  obtain ⟨p, hp, -⟩ := Option.bind_eq_some_iff.mp hc
  obtain ⟨rest, index₀, rfl, -⟩ := hi.storage.sound.head hp
  obtain ⟨m, index', hm, hsound, k, hindex, hcur, -, -, -, -, holdest, hpending⟩ := hi.storage.sound.takeReplaced hc
  refine ⟨(s.setMemory m).setPc (.freeIndexes after index.replaced), [p], by rw [hm, Option.map_some], ?_, ⟨.refl _, .refl _, .refl _, .refl _⟩⟩
  refine hi.setMemory (w := { s.writer with pc := .freeIndexes after index.replaced }) hsound
    (holdest.symm ▸ k.toKeepsEntries) hi.cursors.offset (holdest.symm ▸ hi.storage.passed)
    (holdest.symm ▸ hi.storage.position) (fun r q hr h => ?_) ⟨?_, rest, hpending, hi.storage.sound.nodup⟩
  · rcases h.replacedAt with hq | hv
    · cases hp.symm.trans hq
      exact ⟨List.mem_singleton_self p, .inl (hindex.trans hp)⟩
    · have := hv index hc
      have := hslow r _ hr
      have := hpassed.2
      omega
  · change m.index ≠ none
    rw [hindex, hp]
    exact Option.some_ne_none p

theorem freeIndex (hi : Inv shift s chain) {after : After α} {p : Nat}
    (hpc : s.writer.pc = .freeIndexes after (some p)) :
    ∃ t, ((s.impl.memory.freeIndex p).map fun (m, replaced) =>
      (s.setMemory m).setPc (.freeIndexes after replaced)) = some t ∧ Inv shift t chain ∧ Frame s t := by
  obtain ⟨hnull, pending, hpending, hnodup⟩ : (Pc.freeIndexes after (some p)).Sound s chain := hpc ▸ hi.pc
  cases pending with
  | nil => cases hpending
  | cons q rest =>
    obtain rfl := Option.some.inj hpending.1
    obtain ⟨m, start, hm, hsound, k, hindex, hcur, -, holdest, hrest⟩ := hi.storage.sound.freeIndex hpending hnodup
    refine ⟨(s.setMemory m).setPc (.freeIndexes after start), by rw [hm, Option.map_some], ?_, ⟨.refl _, .refl _, .refl _, .refl _⟩⟩
    refine hi.setMemory (w := { s.writer with pc := .freeIndexes after start }) hsound
      (holdest.symm ▸ k.toKeepsEntries) hi.cursors.offset (holdest.symm ▸ hi.storage.passed)
      (holdest.symm ▸ hi.storage.position) (fun r q hr h => ?_) ⟨?_, rest, hrest, ?_⟩
    · exact held_of_eq h hindex fun index hi' => ⟨index, hcur.symm.trans hi', rfl⟩
    · change m.index ≠ none
      rw [hindex]
      exact hnull
    · exact hnodup.sublist (List.Sublist.append_left (List.sublist_cons_self p rest) chain)

/-! ### The next access -/

/-- The slowest reader, where the claim leaves the writer capacity. -/
theorem slowest_of_remaining {reserveCursor minReader : Nat}
    (h : 0 < remainingCapacity size reserveCursor minReader) :
    reserveCursor - (size - remainingCapacity size reserveCursor minReader) = minReader := by
  unfold remainingCapacity at h ⊢
  split at h
  case isTrue => exact absurd h (Nat.lt_irrefl 0)
  case isFalse hfree =>
    rw [if_neg hfree]
    omega

/-- The writer's next access does not fault, and keeps the invariant. -/
theorem writerStep [Inhabited α] (size : Nat) (hi : Inv shift s chain) :
    ∃ t chain', s.writerStep shift size = some t ∧ Inv shift t chain' ∧ Frame s t := by
  have hsound := hi.pc
  unfold State.writerStep
  dsimp only
  split <;> rename_i hpc <;> rw [hpc] at hsound
  case h_1 => exact ⟨s, chain, rfl, hi, .rfl⟩
  case h_2 n w policy minReader =>
    -- `tryNext` and `next` find their minimum.
    split
    · split
      · exact ⟨_, chain, rfl, hi.setPc trivial, .refl _, .refl _, .refl _, .refl _⟩
      · exact ⟨_, chain, rfl, hi.pushSpan _, .refl _, .refl _, .refl _, .refl _⟩
    · have hreserve := hi.cursors.reserve
      refine ⟨_, chain, rfl, ⟨?_, hi.storage.congr rfl rfl rfl rfl, trivial⟩, .refl _, .refl _, .refl _, .refl _⟩
      exact
        { offset := Nat.le_trans hreserve (Nat.le_of_eq (Nat.add_sub_cancel ..).symm)
          reserve := Nat.le_trans hreserve (Nat.le_add_right ..)
          value := hi.cursors.value
          generation := hi.cursors.generation
          listed := hi.cursors.listed
          announced := hi.cursors.announced
          attaching := hi.cursors.attaching
          readers := fun r => (hi.cursors.readers r).kept (.refl r _) (Nat.le_refl _) }
  case h_3 n w policy stage hfound =>
    have hloaded := (hi.minReader hsound .idle trivial).2
    exact ⟨_, chain, rfl, (hi.minReader hsound (.claim n w policy _) hloaded).1, .refl _, .refl _, .refl _, .refl _⟩
  case h_4 use =>
    split
    case isTrue ha =>
      obtain ⟨t, ht, hinv, hframe⟩ := hi.allocated use ha
      exact ⟨t, chain, ht, hinv, hframe⟩
    case isFalse =>
      split
      case h_1 hp =>
        have h0 := hi.storage.sound.null hp
        exact hi.replaceIndex use ⟨2, rfl⟩ (by rw [h0, Nat.zero_sub]; decide)
      case h_2 p hp =>
        obtain ⟨rest, index, -, hget, hc, -⟩ := hi.storage.sound.head hp
        rw [hget, Option.map_some]
        refine ⟨_, chain, rfl, hi.setPc ?_, .refl _, .refl _, .refl _, .refl _⟩
        split
        case isTrue =>
          change s.impl.memory.index ≠ none
          rw [hp]
          exact Option.some_ne_none p
        case isFalse hfull => exact ⟨index, hc, Nat.not_le.mp hfull⟩
  case h_5 use =>
    obtain ⟨p, hp⟩ := Option.ne_none_iff_exists'.mp hsound
    obtain ⟨rest, index, -, -, hc, -⟩ := hi.storage.sound.head hp
    rw [hc, Option.bind_some]
    split
    case isTrue =>
      obtain ⟨j, hj⟩ := hi.storage.sound.length index hc
      have hfits := hi.storage.sound.fits index hc
      refine hi.replaceIndex use ⟨j + 1, by rw [hj, Nat.pow_succ, Nat.mul_comm]⟩ ?_
      have := Nat.two_pow_pos j
      omega
    case isFalse hfull =>
      exact ⟨_, chain, rfl, hi.setPc ⟨index, hc, Nat.not_le.mp hfull⟩, .refl _, .refl _, .refl _, .refl _⟩
  case h_6 use =>
    obtain ⟨index, hc, hfree⟩ := hsound
    obtain ⟨t, ht, hinv, hframe⟩ := hi.append use hc hfree
    exact ⟨t, chain, ht, hinv, hframe⟩
  case h_7 after =>
    split
    case h_1 hp => exact ⟨_, chain, rfl, hi.resume hsound, resume_frame after⟩
    case h_2 p hp =>
      obtain ⟨rest, index, -, hget, -⟩ := hi.storage.sound.head hp
      rw [hget, Option.map_some]
      split
      · have hnull : s.impl.memory.index ≠ none := hp ▸ Option.some_ne_none p
        exact ⟨_, chain, rfl, hi.setPc hnull, .refl _, .refl _, .refl _, .refl _⟩
      · exact ⟨_, chain, rfl, hi.resume hsound, resume_frame after⟩
  case h_8 after =>
    have hafter : after.Sound s.impl.memory := by
      cases after with
      | claim n w policy => trivial
      | grow use => exact hsound
    split
    case isTrue h0 =>
      -- No reader is marked: those with a position are announced.
      refine ⟨_, chain, rfl, hi.setPc ⟨hsound, fun r x hx => .inr (.inl ?_), trivial, trivial⟩,
        .refl _, .refl _, .refl _, .refl _⟩
      have hmark : ¬ (s.readers r).Marked := fun hm => absurd (hi.cursors.attaching.pos hm) (by omega)
      rw [State.position] at hx
      dsimp only
      cases hr : s.readers r with
      | unmark | cacheIndex | attached handle => trivial
      | adding stage | notifyAdded =>
        rw [hr] at hmark
        exact absurd trivial hmark
      | absent | removing stage | notifyRemoved | destroyed =>
        rw [hr] at hx
        cases hx
    case isFalse => exact ⟨_, chain, rfl, hi.resume hafter, resume_frame after⟩
  case h_9 after minReader =>
    obtain ⟨hnull, hann, -, hfound⟩ := hsound
    refine ⟨_, chain, rfl, hi.setPc ?_, .refl _, .refl _, .refl _, .refl _⟩
    split
    case isTrue hrem =>
      refine ⟨hnull, Nat.min_le_right .., fun r x hx => ?_⟩
      rw [slowest_of_remaining hrem]
      rcases hfound r x hx with h | h | h
      · exact Nat.le_trans (Nat.min_le_right ..) h
      · exact h.elim
      · exact Nat.le_trans (Nat.min_le_left ..) h
    case isFalse => exact ⟨hnull, hann⟩
  case h_10 after stage hfound =>
    obtain ⟨hnull, hann, hloaded, hstage⟩ := hsound
    have hloaded' := (hi.minReader hloaded .idle trivial).2
    have hstage' := hi.minReader_sound hann hstage
    refine ⟨_, chain, rfl, (hi.minReader hloaded (.getRemainingCapacity after _) ⟨?_, ?_, hloaded', hstage'⟩).1,
      .refl _, .refl _, .refl _, .refl _⟩
    · exact hnull
    · obtain ⟨hsequences, hcursor, -⟩ := minReader_step stage s.impl.claimStrategy
      intro r x hx
      rw [State.position, State.value] at hx
      simp only [State.setStrategy, hsequences] at hx
      rw [State.publishCursor]
      simp only [State.setStrategy, hcursor]
      exact hann r x hx
  case h_11 after =>
    obtain ⟨hnull, hann⟩ := hsound
    refine ⟨_, chain, rfl, hi.setPc ⟨hnull, fun r x hx => ?_⟩, .refl _, .refl _, .refl _, .refl _⟩
    rcases hann r x hx with h | h | h
    · exact .inl h
    · refine .inr (.inl (hi.cursors.listed r ?_))
      cases hr : s.readers r with
      | unmark | cacheIndex | attached handle => trivial
      | absent | adding stage | notifyAdded | removing stage | notifyRemoved | destroyed =>
        rw [hr] at h
        exact h.elim
    · exact h.elim
  case h_12 after slowest =>
    obtain ⟨hnull, hread⟩ := hsound
    refine ⟨_, chain, rfl, hi.setPc ⟨hnull, Nat.min_le_right .., fun r x hx => ?_⟩, .refl _, .refl _, .refl _, .refl _⟩
    rcases hread r x hx with h | h | h
    · exact Nat.le_trans (Nat.min_le_right ..) h
    · cases h
    · exact Nat.le_trans (Nat.min_le_left ..) h
  case h_13 after slowest q rest =>
    obtain ⟨hnull, hread⟩ := hsound
    refine ⟨_, chain, rfl, hi.setPc ⟨hnull, fun r x hx => ?_⟩, .refl _, .refl _, .refl _, .refl _⟩
    rcases hread r x hx with h | h | h
    · exact .inl h
    · rcases List.mem_cons.mp h with rfl | h
      · exact .inr (.inr (Nat.le_trans (Nat.min_le_right ..) (hi.cursors.value_le hx)))
      · exact .inr (.inl h)
    · exact .inr (.inr (Nat.le_trans (Nat.min_le_left ..) h))
  case h_14 after slowestReader =>
    split
    case isTrue hpassed =>
      obtain ⟨t, ht, hinv, hframe⟩ := hi.freeSegment hpc hpassed
      exact ⟨t, chain, ht, hinv, hframe⟩
    case isFalse =>
      obtain ⟨hnull, hle, hslow⟩ := hsound
      obtain ⟨p, hp⟩ := Option.ne_none_iff_exists'.mp hnull
      obtain ⟨rest, index, -, -, hc, -⟩ := hi.storage.sound.head hp
      rw [hc, Option.bind_some]
      split
      case isTrue hpassed => exact hi.takeReplaced hslow hc hpassed
      case isFalse =>
        refine ⟨_, chain, rfl, hi.resume ?_, resume_frame after⟩
        cases after with
        | claim n w policy => trivial
        | grow use => exact hnull
  case h_15 after =>
    refine ⟨_, chain, rfl, hi.resume ?_, resume_frame after⟩
    cases after with
    | claim n w policy => trivial
    | grow use => exact hsound.1
  case h_16 after p =>
    obtain ⟨t, ht, hinv, hframe⟩ := hi.freeIndex hpc
    exact ⟨t, chain, ht, hinv, hframe⟩

/-! ### The calls -/

/-- A call of the writer. -/
theorem writerCall [Inhabited α] [DecidableEq ρ] (hi : Inv shift s chain) {a : Act α ρ} (hs : s.writerCall a = some t) :
    Inv shift t chain ∧ Frame s t := by
  cases a with
  | reserve n w policy =>
    simp only [State.writerCall] at hs
    split at hs <;> cases hs
    · exact ⟨hi.pushSpan _, .refl _, .refl _, .refl _, .refl _⟩
    · exact ⟨hi.setWriter hi.cursors.offset trivial, .refl _, .refl _, .refl _, .refl _⟩
  | copyWriterSpan k =>
    obtain ⟨span, -, rfl⟩ := Option.map_eq_some_iff.mp hs
    exact ⟨hi.pushSpan span, .refl _, .refl _, .refl _, .refl _⟩
  | write k i value =>
    obtain ⟨span, -, hs⟩ := Option.bind_eq_some_iff.mp hs
    split at hs <;> cases hs
    exact ⟨hi.setPc trivial, .refl _, .refl _, .refl _, .refl _⟩
  | publish k n =>
    obtain ⟨span, -, rfl⟩ := Option.map_eq_some_iff.mp hs
    refine ⟨hi.setWriter ?_ hi.pc, .refl _, .refl _, .refl _, .refl _⟩
    unfold SegmentedBuffer.publish
    split <;> exact hi.cursors.offset
  | releaseWriterSpan k =>
    obtain ⟨span, -, hs⟩ := Option.bind_eq_some_iff.mp hs
    dsimp only at hs
    split at hs
    case isTrue =>
      cases hs
      exact ⟨hi.setWriter hi.cursors.offset trivial, .refl _, .refl _, .refl _, .refl _⟩
    case isFalse =>
      obtain ⟨writer, hw, rfl⟩ := Option.map_eq_some_iff.mp hs
      refine ⟨hi.setWriter (w := ⟨writer, _, .allocate .publish⟩) ?_ trivial, .refl _, .refl _, .refl _, .refl _⟩
      have ho : writer.claimOffset = s.writer.writer.claimOffset := by
        unfold requested at hw
        split at hw
        · cases hw
          rfl
        · split at hw <;> cases hw <;> unfold SegmentedBuffer.publish <;> split <;> rfl
      rw [ho]
      exact hi.cursors.offset
  | writer | attach | construct | get | loadIndex | copyReaderSpan | tryConsume | releaseReaderSpan | detach | destroy =>
    cases hs

end Inv

end GnuRadio.SegmentedBuffer
