import GnuRadio.Theorems.SegmentedBuffer.Writer

/-! The memory of a `SegmentedBuffer` is safe next to readers that come and go: what an attached reader may still read is
    allocated, its live spans find it, and nothing is freed twice. -/

namespace GnuRadio.SegmentedBuffer

variable {α ρ : Type} {size shift : Nat} {s t : State α ρ} {chain : List Nat}

/-! ### The end of a buffer -/

theorem freeAllSegments {m : Memory α} (h : m.Sound chain) {k : Nat} (hk : m.oldestSegment + k = m.nextSegment) :
    ∃ t, State.freeAllSegments k m = some t ∧ t.Sound chain ∧ t.index = m.index := by
  induction k generalizing m with
  | zero => exact ⟨m, rfl, h, rfl⟩
  | succ k ih =>
    have hlt : m.oldestSegment < m.nextSegment := by omega
    obtain ⟨p, hp⟩ := h.index_of_lt hlt
    obtain ⟨rest, index, -, -, hc, -⟩ := h.head hp
    obtain ⟨u, index', hu, hsound, -, hindex, -, -, -, -, hnext, holdest⟩ := h.freeSegment hlt hc
    obtain ⟨t, ht, hts, hti⟩ := ih hsound (by omega)
    refine ⟨t, ?_, hts, hti.trans hindex⟩
    rw [State.freeAllSegments, hu, Option.bind_some, ht]

theorem freeAllIndexes {m : Memory α} {start : Option Nat} {k : Nat}
    (h : Heap.Chain SegmentIndex.replaced m.indexes start chain) (hn : chain.Nodup) (hk : chain.length ≤ k) :
    ∃ t, State.freeAllIndexes k m start = some t ∧ t.index = m.index ∧
      ∀ q, start = some q ∨ m.indexes.get q = none → t.indexes.get q = none := by
  induction chain generalizing m start k with
  | nil =>
    obtain rfl : start = none := h
    have hnone : ∀ q, none = some q ∨ m.indexes.get q = none → m.indexes.get q = none := fun q hq =>
      hq.resolve_left (Option.some_ne_none q).symm
    cases k <;> exact ⟨m, rfl, rfl, hnone⟩
  | cons p rest ih =>
    obtain ⟨rfl, index, hi, hrest⟩ := h
    obtain ⟨hp, hn⟩ := List.nodup_cons.mp hn
    obtain ⟨k, rfl⟩ : ∃ j, k = j + 1 := ⟨k - 1, by rw [List.length_cons] at hk; omega⟩
    rw [State.freeAllIndexes, Memory.freeIndex, hi, Option.bind_some, Heap.free_eq hi, Option.map_some, Option.bind_some]
    have hchain : Heap.Chain SegmentIndex.replaced ⟨m.indexes.cells.set p none⟩ index.replaced rest :=
      hrest.congr_get fun q hq => Heap.get_set_of_ne fun he => hp (he ▸ hq)
    obtain ⟨t, ht, hindex, hfreed⟩ := @ih { m with indexes := ⟨m.indexes.cells.set p none⟩ } index.replaced k hchain hn
      (Nat.le_of_succ_le_succ hk)
    refine ⟨t, ht, hindex, fun q hq => hfreed q (.inr ?_)⟩
    rcases eq_or_ne q p with rfl | hqp
    · exact Heap.get_set_self hi
    · exact (Heap.get_set_of_ne hqp).trans (hq.resolve_left fun he => hqp (Option.some.inj he).symm)

/-- `~BufferImpl` frees each segment and each index once. -/
theorem destroy_sound {m : Memory α} (h : m.Sound chain) : ∃ t, State.destroy m = some t ∧ t.current = none := by
  unfold State.destroy
  split
  case h_1 hp =>
    refine ⟨m, rfl, ?_⟩
    rw [Memory.current, hp, Option.bind_none]
  case h_2 p hp =>
    obtain ⟨u, hu, hsound, hindex⟩ := freeAllSegments h (Nat.add_sub_cancel' h.window)
    rw [hu, Option.bind_some]
    have hchain : Heap.Chain SegmentIndex.replaced u.indexes (some p) chain := (hindex.trans hp) ▸ hsound.indexes
    obtain ⟨t, ht, hindex', hfreed⟩ := freeAllIndexes hchain hsound.nodup (hchain.length_le hsound.nodup)
    refine ⟨t, ht, ?_⟩
    rw [Memory.current, hindex', hindex, hp, Option.bind_some]
    exact hfreed p (.inl rfl)

/-! ### Every state -/

/-- The invariant of a run: no fault, and a buffer that is in use or that nobody holds. -/
structure Run (shift : Nat) (s : State α ρ) : Prop where
  fault : s.fault = false
  holds : Counted ReaderThread.Holds s.readers s.useCount
  inv : if s.destroyed then s.useCount = 0 else ∃ chain, Inv shift s chain

variable [DecidableEq ρ]

omit [DecidableEq ρ] in
theorem Run.of_inv (hf : s.fault = false) (hd : s.destroyed = false)
    (hh : Counted ReaderThread.Holds s.readers s.useCount) (hi : Inv shift s chain) : Run shift s :=
  ⟨hf, hh, by rw [hd]; exact ⟨chain, hi⟩⟩

/-- What a step is: of the writer, a call or an access in one, or of a reader, or the end of the buffer. -/
theorem step_cases [Inhabited α] {a : Act α ρ} (hs : SegmentedBuffer.step size shift s a = some t) :
    s.destroyed = false ∧
      ((s.writer.pc = .idle ∧ s.writerCall a = some t) ∨
        (a = .writer ∧ t = s.orFault (s.writerStep shift size)) ∨
        (∃ r, s.readers r = .absent ∧ t = State.setReader { s with
          impl := { s.impl with nAttachingReaders := s.impl.nAttachingReaders + 1 }
          useCount := s.useCount + 1 } r (.adding .load)) ∨
        (∃ r spurious, s.construct r spurious = some t) ∨
        (∃ r handle, s.readers r = .attached handle ∧ s.readerCall r handle a = some t) ∨
        (s.useCount = 0 ∧
          t = s.orFault ((State.destroy s.impl.memory).map fun m => { s.setMemory m with destroyed := true }))) := by
  unfold SegmentedBuffer.step at hs
  split at hs
  case isTrue => cases hs
  case isFalse hlive =>
    refine ⟨Bool.eq_false_iff.mpr fun hd => hlive (.inr hd), ?_⟩
    cases a with
    | reserve | copyWriterSpan | write | publish | releaseWriterSpan =>
      dsimp only at hs
      split at hs
      case h_1 hpc => exact .inl ⟨hpc, hs⟩
      case h_2 => cases hs
    | writer =>
      dsimp only at hs
      split at hs
      case h_1 => cases hs
      case h_2 => exact .inr (.inl ⟨rfl, (Option.some.inj hs).symm⟩)
    | attach r =>
      dsimp only at hs
      split at hs
      case h_1 hr => exact .inr (.inr (.inl ⟨r, hr, (Option.some.inj hs).symm⟩))
      case h_2 => cases hs
    | construct r spurious => exact .inr (.inr (.inr (.inl ⟨r, spurious, hs⟩)))
    | get r | loadIndex r | copyReaderSpan r | tryConsume r | releaseReaderSpan r | detach r =>
      dsimp only at hs
      split at hs
      case h_1 handle hr => exact .inr (.inr (.inr (.inr (.inl ⟨r, handle, hr, hs⟩))))
      case h_2 => cases hs
    | destroy =>
      dsimp only at hs
      split at hs
      case h_2 => cases hs
      case h_1 =>
        split at hs
        case isFalse => cases hs
        case isTrue hfree => exact .inr (.inr (.inr (.inr (.inr ⟨hfree.1, (Option.some.inj hs).symm⟩))))

omit [DecidableEq ρ] in
theorem Run.exists_inv (h : Run shift s) (hd : s.destroyed = false) : ∃ chain, Inv shift s chain := by
  have hinv := h.inv
  rwa [hd] at hinv

theorem Run.step [Inhabited α] (h : Run shift s) {a : Act α ρ} (hs : SegmentedBuffer.step size shift s a = some t) :
    Run shift t := by
  obtain ⟨hd, hs⟩ := step_cases hs
  obtain ⟨chain, hi⟩ := h.exists_inv hd
  -- A step of the writer, and one of a reader.
  have hwriter {u : State α ρ} {chain' : List Nat} (hu : Inv shift u chain') (hf : Inv.Frame s u) : Run shift u := by
    refine .of_inv (hf.fault.trans h.fault) (hf.destroyed.trans hd) ?_ hu
    rw [hf.readers, hf.useCount]
    exact h.holds
  have hreader {r : ρ} {u : State α ρ} (hu : ReaderStep shift chain s r u) : Run shift u :=
    .of_inv (hu.fault.trans h.fault) (hu.destroyed.trans hd) (hu.holds h.holds) (hu.inv hi)
  rcases hs with ⟨-, hs⟩ | ⟨-, rfl⟩ | ⟨r, hr, rfl⟩ | ⟨r, spurious, hs⟩ | ⟨r, handle, hr, hs⟩ | ⟨hfree, rfl⟩
  · obtain ⟨hu, hf⟩ := hi.writerCall hs
    exact hwriter hu hf
  · obtain ⟨u, chain', hu, hinv, hf⟩ := hi.writerStep size
    rw [hu]
    exact hwriter hinv hf
  · exact hreader (.attach hi hr)
  · exact hreader (.construct hi hs)
  · exact hreader (.call hi hr hs)
  · obtain ⟨m, hm, -⟩ := destroy_sound hi.storage.sound
    rw [hm]
    exact ⟨h.fault, h.holds, hfree⟩

theorem reachable_run [Inhabited α] (h : (system size shift).Reachable s) : Run shift s := by
  refine h.invariant (fun _ e => ?_) fun _ _ _ hr _ hs => hr.step hs
  subst e
  exact .of_inv rfl rfl (.none fun _ => id) .of_initial

/-- What an attached reader may read is allocated and found in the current index, each of its spans finds what it
    covers, and each segment in use has an entry of its own. -/
structure Readable (shift : Nat) (s : State α ρ) : Prop where
  fault : s.fault = false
  allocated : ∀ r h, s.readers r = .attached h → ∀ x, h.reader.readIndexCached ≤ x → x < s.publishCursor →
    ∃ q slots, s.impl.memory.inUse (segmentNumber shift x) = some q ∧ s.impl.memory.segments.get q = some slots
  spans : ∀ r h, s.readers r = .attached h → ∀ span ∈ h.spans,
    span.first = h.reader.readIndexCached ∧ span.first + span.size ≤ s.publishCursor ∧
      ∀ x, span.first ≤ x → x < span.first + span.size → ∃ p, span.index = some p ∧
        s.impl.memory.segmentAt shift p x = s.impl.memory.inUse (segmentNumber shift x)
  entries : s.destroyed = false → ∀ index, s.impl.memory.current = some index → ∀ n n', n ≠ n' →
    s.impl.memory.oldestSegment ≤ n → n < s.impl.memory.nextSegment →
    s.impl.memory.oldestSegment ≤ n' → n' < s.impl.memory.nextSegment →
      index.entry n ≠ index.entry n' ∧ index.segment n ≠ index.segment n'

/-- In every run the buffer faults nowhere, and its readers may read. -/
theorem reachable_readable [Inhabited α] (h : (system size shift).Reachable s) : Readable shift s := by
  have hr := reachable_run h
  have hattached : ∀ r handle, s.readers r = .attached handle → ∃ chain, Inv shift s chain := fun r handle hrd => by
    have hinv := hr.inv
    have hpos : 0 < s.useCount := hr.holds.pos (i := r) (hrd ▸ trivial)
    split at hinv
    · omega
    · exact hinv
  refine ⟨hr.fault, fun r handle hrd x hx hlt => ?_, fun r handle hrd span hspan => ?_,
    fun hd index hc n n' hne h1 h2 h3 h4 => ?_⟩
  · obtain ⟨chain, hi⟩ := hattached r handle hrd
    rw [(ReaderStep.handle_sound hi hrd).cached] at hx
    have hpos : s.position r = some (s.value r) := by rw [State.position, hrd, ReaderThread.position]
    refine hi.storage.sound.live _ (le_segmentNumber.mpr ?_) (segmentNumber_lt.mpr ?_)
    · exact Nat.le_trans (hi.storage.position r _ hpos) hx
    · exact Nat.lt_of_lt_of_le hlt hi.storage.allocated
  · obtain ⟨chain, hi⟩ := hattached r handle hrd
    have hsound := ReaderStep.handle_sound hi hrd
    obtain ⟨hfirst, hsize⟩ := hsound.spans span hspan
    refine ⟨hfirst.trans hsound.cached.symm, hfirst.symm ▸ hsize, fun x hx hlt => ?_⟩
    have hheld := hi.storage.spans r handle hrd span hspan
    unfold SpanHeld at hheld
    split at hheld
    case h_1 => omega
    case h_2 p hp => exact ⟨p, hp, hheld.2 x hx hlt⟩
  · obtain ⟨chain, hi⟩ := hr.exists_inv hd
    refine ⟨SegmentIndex.entry_ne_of_window (hi.storage.sound.length index hc) (hi.storage.sound.fits index hc)
      ⟨h1, h2⟩ ⟨h3, h4⟩ hne, fun he => hne ?_⟩
    refine hi.storage.sound.inj n n' h1 h2 h3 h4 ?_
    rwa [Memory.inUse_eq hc, Memory.inUse_eq hc]

/-- A reader attaches and takes what there is, nothing; then a slot is published. -/
def takeEmpty : List (Act Nat Unit) :=
  .attach () :: List.replicate 9 (.construct () false) ++ [.get () none .processNone, .loadIndex ()]

def publishOne : List (Act Nat Unit) :=
  .reserve 1 false .processAll :: List.replicate 5 .writer ++
    [.write 0 0 7, .writer, .writer, .writer, .releaseWriterSpan 0, .writer]

theorem readable_publishOne : ∃ s, (system 1 0).run initial (takeEmpty ++ publishOne) = some s ∧ Readable 0 s :=
  ⟨_, (Option.some_get (by decide)).symm, reachable_readable ((system 1 0).reachable_get _ rfl (by decide))⟩

/-- The span keeps the null index it was created with, and does not find the slot. -/
theorem takeEmpty_unmapped : ¬ ∀ (size shift : Nat) (s : State Nat Unit), (system size shift).Reachable s →
    ∀ r h, s.readers r = .attached h → ∀ span ∈ h.spans, ∀ x, h.reader.readIndexCached ≤ x → x < s.publishCursor →
      ∃ p, span.index = some p ∧ s.impl.memory.segmentAt shift p x = s.impl.memory.inUse (segmentNumber shift x) := by
  intro h
  have hr := (system 1 0).reachable_get (takeEmpty ++ publishOne) (s := initial) rfl (by decide)
  obtain ⟨p, hp, -⟩ := h 1 0 _ hr () _ rfl ⟨none, 0, 0, .processNone⟩ (by decide) 0 (by decide) (by decide)
  cases hp

end GnuRadio.SegmentedBuffer

/-! The reader set of a `SegmentedBuffer`: whom the list and the writer's snapshot of it name, and the runs in which
    readers come and go only while nothing is claimed or unread. -/

namespace GnuRadio.SegmentedBuffer

open SingleProducerStrategy (Strategy)

variable {α ρ : Type} {shift : Nat} {s t : State α ρ} {r : ρ} {chain : List Nat}

namespace ReaderThread

/-- The reader is being attached, up to the end of its mark, or detached. -/
def Changing : ReaderThread ρ → Prop
  | .adding _ | .notifyAdded | .unmark | .removing _ | .notifyRemoved => True
  | .absent | .cacheIndex | .attached _ | .destroyed => False

/-- The list may name the reader. -/
def MayBeListed : ReaderThread ρ → Prop
  | .adding _ | .notifyAdded | .unmark | .cacheIndex | .attached _ | .removing _ => True
  | .absent | .notifyRemoved | .destroyed => False

theorem changing_of_marked {thread : ReaderThread ρ} (h : thread.Marked) : thread.Changing := by
  cases thread with
  | adding stage | notifyAdded | unmark => trivial
  | absent | cacheIndex | attached handle | removing stage | notifyRemoved | destroyed => exact h.elim

theorem announced_or_changing {thread : ReaderThread ρ} (h : thread.MayBeListed) : thread.Announced ∨ thread.Changing := by
  cases thread with
  | absent | notifyRemoved | destroyed => exact h.elim
  | cacheIndex | attached handle => exact .inl trivial
  | adding stage | notifyAdded | unmark | removing stage => exact .inr trivial

end ReaderThread

namespace State

def reserveCursor (s : State α ρ) : Nat := s.impl.claimStrategy.reserveCursor

/-- The readers in the set. -/
def readerSet (s : State α ρ) : List ρ := s.impl.claimStrategy.readSequences.list.sequences

/-- Nothing is claimed, and each reader in the set has read what is published. -/
def Quiet (s : State α ρ) : Prop := s.reserveCursor = s.publishCursor ∧ ∀ r ∈ s.readerSet, s.value r = s.publishCursor

/-- Readers come and go only while nothing is claimed or unread. -/
def Steady (s : State α ρ) : Prop := ∀ r, (s.readers r).Changing → s.Quiet

end State

/-- The list names constructed readers, and the snapshot of the current generation those of the list. -/
structure Listed (s : State α ρ) : Prop where
  member : ∀ r ∈ s.readerSet, (s.readers r).MayBeListed
  snapshot : s.impl.claimStrategy.snapshotGeneration = some s.impl.claimStrategy.readerGeneration →
    ∀ r ∈ s.impl.claimStrategy.snapshotReadSequences, r ∈ s.readerSet ∨ s.readers r = .notifyRemoved

theorem Listed.of_initial : Listed (initial : State α ρ) where
  member _ hr := by cases hr
  snapshot hg := by cases hg

/-! ### The steps of the readers -/

/-- What a step of reader `r` does to the list. -/
structure ListStep (s : State α ρ) (r : ρ) (t : State α ρ) : Prop where
  mem : ∀ q, q ≠ r → q ∈ t.readerSet → q ∈ s.readerSet
  member : r ∈ t.readerSet → (t.readers r).MayBeListed
  left : r ∈ s.readerSet → r ∈ t.readerSet ∨ t.readers r = .notifyRemoved
  list : t.readerSet = s.readerSet ∨ (t.readers r).Changing
  notified : s.readers r = .notifyRemoved → t.readers r = .notifyRemoved ∨
    s.impl.claimStrategy.readerGeneration < t.impl.claimStrategy.readerGeneration

/-- A step that leaves the list. -/
theorem ListStep.of_list (h : Listed s) (hl : t.readerSet = s.readerSet)
    (hm : (s.readers r).MayBeListed → (t.readers r).MayBeListed)
    (hn : s.readers r = .notifyRemoved →
      s.impl.claimStrategy.readerGeneration < t.impl.claimStrategy.readerGeneration) : ListStep s r t where
  mem _ _ hq := hl ▸ hq
  member hr := hm (h.member r (hl ▸ hr))
  left hr := .inl (hl.symm ▸ hr)
  list := .inl hl
  notified h := .inr (hn h)

theorem Listed.step (h : Listed s) (hc : Cursors s) (hr : ReaderStep shift chain s r t) (hl : ListStep s r t) :
    Listed t where
  member q hq := by
    rcases eq_or_ne q r with rfl | hqr
    · exact hl.member hq
    · rw [hr.readers q hqr]
      exact h.member q (hl.mem q hqr hq)
  snapshot hg q hq := by
    rw [hr.snapshotGeneration] at hg
    rw [hr.snapshot] at hq
    -- The generation is still the one of the snapshot.
    have hle := hc.generation _ hg
    have heq := Nat.le_antisymm hr.generation hle
    have hs := h.snapshot (heq ▸ hg) q hq
    rcases eq_or_ne q r with rfl | hqr
    · rcases hs with hs | hs
      · exact hl.left hs
      · rcases hl.notified hs with ht | hlt
        · exact .inr ht
        · exact absurd hlt (Nat.not_lt.mpr hle)
    · rw [hr.readers q hqr]
      exact hs.imp (hr.kept q hqr).mem id

variable [DecidableEq ρ]

theorem ListStep.attach (h : Listed s) (hr : s.readers r = .absent) {nAttaching useCount : Nat} :
    ListStep s r (State.setReader { s with
      impl := { s.impl with nAttachingReaders := nAttaching }
      useCount := useCount } r (.adding .load)) := by
  refine .of_list h rfl (fun hm => ?_) fun hn => ?_
  · rw [hr] at hm
    exact hm.elim
  · rw [hr] at hn
    cases hn

theorem ListStep.construct (h : Listed s) (hc : Cursors s) {spurious : Bool} (hs : s.construct r spurious = some t) :
    ListStep s r t := by
  have hsound := hc.readers r
  unfold State.construct at hs
  dsimp only at hs
  generalize hp : s.readers r = thread at hs hsound
  have hself {u : State α ρ} {thread : ReaderThread ρ} : (u.setReader r thread).readers r = thread :=
    Function.update_self ..
  cases thread with
  | absent | attached handle | destroyed => cases hs
  | adding stage =>
    simp only [Option.some.injEq] at hs
    subst hs
    have hmem {q : ρ} := AddSequences.step_mem (q := q) (b := spurious) hsound
    refine ⟨fun q hq ht => (hmem.2 ht).resolve_right hq, fun _ => ?_, fun hr => .inl (hmem.1 hr), .inr ?_, fun hn => ?_⟩
    · rw [hself]
      split <;> trivial
    · rw [hself]
      split <;> trivial
    · rw [hp] at hn
      cases hn
  | removing stage =>
    simp only [Option.some.injEq] at hs
    subst hs
    have hmem {q : ρ} := RemoveSequence.step_mem (q := q) (r := r) (b := spurious) hsound
    refine ⟨fun q _ => hmem.1, fun ht => ?_, fun hr => ?_, .inr ?_, fun hn => ?_⟩
    · rw [hself]
      split
      case h_1 => trivial
      case h_2 ho => exact absurd ht ((hmem (q := r)).2 ho)
    · rw [hself]
      split
      case h_1 stage' ho =>
        refine .inl ?_
        change r ∈ (stage.step r spurious s.impl.claimStrategy.readSequences).1.list.sequences
        rw [(RemoveSequence.step_sound ho).2]
        exact hr
      case h_2 => exact .inr rfl
    · rw [hself]
      split <;> trivial
    · rw [hp] at hn
      cases hn
  | notifyAdded | unmark | cacheIndex =>
    cases hs
    refine .of_list h rfl (fun _ => ?_) fun hn => ?_
    · rw [hself]
      trivial
    · rw [hp] at hn
      cases hn
  | notifyRemoved =>
    cases hs
    exact .of_list h rfl (fun hm => (hp ▸ hm : ReaderThread.MayBeListed .notifyRemoved).elim) fun _ => Nat.lt_succ_self _

theorem ListStep.call [Inhabited α] (h : Listed s) {handle : Handle} (hr : s.readers r = .attached handle) {a : Act α ρ}
    (hs : s.readerCall r handle a = some t) : ListStep s r t := by
  suffices hsuff : t.readerSet = s.readerSet ∧ (t.readers r).MayBeListed by
    refine .of_list h hsuff.1 (fun _ => hsuff.2) fun hn => ?_
    rw [hr] at hn
    cases hn
  have hself {u : State α ρ} {thread : ReaderThread ρ} : (u.setReader r thread).readers r = thread :=
    Function.update_self ..
  cases a <;> simp only [State.readerCall] at hs
  case get q nRequested policy | tryConsume q n | detach q =>
    split at hs <;> cases hs
    exact ⟨rfl, hself.symm ▸ trivial⟩
  case loadIndex q =>
    obtain ⟨⟨nSlots, policy⟩, -, rfl⟩ := Option.map_eq_some_iff.mp hs
    exact ⟨rfl, hself.symm ▸ trivial⟩
  case copyReaderSpan q k =>
    split at hs
    case isFalse => cases hs
    case isTrue =>
      obtain ⟨span, -, rfl⟩ := Option.map_eq_some_iff.mp hs
      exact ⟨rfl, hself.symm ▸ trivial⟩
  case releaseReaderSpan q k =>
    split at hs
    case isFalse => cases hs
    case isTrue =>
      obtain ⟨span, -, hs⟩ := Option.bind_eq_some_iff.mp hs
      unfold State.releaseReaderSpan at hs
      dsimp only at hs
      split at hs
      case isTrue =>
        obtain ⟨n, -, rfl⟩ := Option.map_eq_some_iff.mp hs
        refine ⟨?_, hself.symm ▸ trivial⟩
        by_cases hn : n = 0
        · rw [if_pos hn]
          rfl
        · rw [if_neg hn]
          rfl
      case isFalse =>
        cases hs
        exact ⟨rfl, hself.symm ▸ trivial⟩
  case reserve | copyWriterSpan | write | publish | releaseWriterSpan | writer | attach | construct | destroy => cases hs

end GnuRadio.SegmentedBuffer
