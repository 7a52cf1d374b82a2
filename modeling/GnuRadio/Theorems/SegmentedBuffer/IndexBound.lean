import GnuRadio.Buffer.HistoryBuffer
import GnuRadio.Theorems.SegmentedBuffer.Safety
import Mathlib.Order.Lattice.Nat

/-! The length of the segment index, in runs in which readers come and go only while nothing is claimed or unread: it
    doubles only where a window of `size` slots touches more segments than it has entries. -/

namespace GnuRadio.SegmentedBuffer

open SingleProducerStrategy (Strategy)
open CircularBuffer (WriterSpan)

variable {α ρ : Type} {size shift : Nat} {s t : State α ρ} {r : ρ} {chain : List Nat}

/-! ### Windows -/

/-- The segments that the `n` slots from `p` on touch. -/
def touched (shift p n : Nat) : Finset Nat := (Finset.Ico p (p + n)).image (segmentNumber shift)

/-- The number of segments that a window of `n` consecutive slots can touch, over its alignments. -/
def mostTouched (shift n : Nat) : Nat := (Finset.range (kSegmentSize shift)).sup fun p => (touched shift p n).card

/-- Windows of one alignment touch the same number of segments. -/
theorem card_touched_le (p n : Nat) : (touched shift p n).card ≤ mostTouched shift n := by
  have hpos : 0 < kSegmentSize shift := Nat.two_pow_pos shift
  have hp : p % kSegmentSize shift + kSegmentSize shift * (p / kSegmentSize shift) = p := Nat.mod_add_div ..
  have hsub : touched shift p n ⊆
      (touched shift (p % kSegmentSize shift) n).image (· + p / kSegmentSize shift) := by
    intro k hk
    obtain ⟨x, hx, rfl⟩ := Finset.mem_image.mp hk
    obtain ⟨hle, hlt⟩ := Finset.mem_Ico.mp hx
    refine Finset.mem_image.mpr ⟨segmentNumber shift (x - kSegmentSize shift * (p / kSegmentSize shift)),
      Finset.mem_image_of_mem _ (Finset.mem_Ico.mpr ⟨by omega, by omega⟩), ?_⟩
    have hx : x - kSegmentSize shift * (p / kSegmentSize shift) + kSegmentSize shift * (p / kSegmentSize shift) = x :=
      Nat.sub_add_cancel (by omega)
    calc segmentNumber shift (x - kSegmentSize shift * (p / kSegmentSize shift)) + p / kSegmentSize shift
        = (x - kSegmentSize shift * (p / kSegmentSize shift)) / kSegmentSize shift + p / kSegmentSize shift := by
          rw [segmentNumber, Nat.shiftRight_eq_div_pow, kSegmentSize]
      _ = (x - kSegmentSize shift * (p / kSegmentSize shift) + kSegmentSize shift * (p / kSegmentSize shift)) /
            kSegmentSize shift := (Nat.add_mul_div_left _ _ hpos).symm
      _ = segmentNumber shift x := by rw [hx, segmentNumber, Nat.shiftRight_eq_div_pow, kSegmentSize]
  calc (touched shift p n).card
      ≤ ((touched shift (p % kSegmentSize shift) n).image (· + p / kSegmentSize shift)).card := Finset.card_le_card hsub
    _ ≤ (touched shift (p % kSegmentSize shift) n).card := Finset.card_image_le
    _ ≤ mostTouched shift n :=
        Finset.le_sup (f := fun p => (touched shift p n).card) (Finset.mem_range.mpr (Nat.mod_lt _ hpos))

theorem shiftLeft_lt (k : Nat) : k <<< shift < (k + 1) <<< shift := by
  rw [Nat.shiftLeft_eq, Nat.shiftLeft_eq]
  exact Nat.mul_lt_mul_of_pos_right (Nat.lt_succ_self k) (Nat.two_pow_pos shift)

/-- A window from below the end of one segment to above the start of another touches all between them. -/
theorem le_card_touched {x n oldest next : Nat} (h : oldest < next) (hx : x < (oldest + 1) <<< shift)
    (hn : next <<< shift < x + n) :
    next + 1 - oldest ≤ (touched shift x n).card := by
  rw [← Nat.card_Icc]
  refine Finset.card_le_card fun k hk => ?_
  obtain ⟨hle, hlt⟩ := Finset.mem_Icc.mp hk
  have hstart : k <<< shift ≤ next <<< shift := shiftLeft_mono hlt
  have hend : (oldest + 1) <<< shift ≤ (k + 1) <<< shift := shiftLeft_mono (Nat.succ_le_succ hle)
  have hlen := @shiftLeft_lt shift k
  have hlast : (oldest + 1) <<< shift ≤ next <<< shift := shiftLeft_mono h
  refine Finset.mem_image.mpr ⟨max x (k <<< shift), Finset.mem_Ico.mpr ⟨Nat.le_max_left .., ?_⟩, ?_⟩
  · omega
  · have h1 : k ≤ segmentNumber shift (max x (k <<< shift)) := le_segmentNumber.mpr (Nat.le_max_right ..)
    have h2 : segmentNumber shift (max x (k <<< shift)) < k + 1 := segmentNumber_lt.mpr (by omega)
    omega

/-! ### What is claimed -/

/-- The claim of the writer ends at the reserve cursor, at most `size` slots above each reader, or above the publish
    position where there is none. -/
structure Claimed (size : Nat) (s : State α ρ) : Prop where
  claim : s.writer.writer.claimOffset + s.writer.writer.claimSize = s.reserveCursor
  requested : s.writer.writer.nRequestedSamplesToPublish.getD 0 ≤ s.writer.writer.claimSize
  gated : ∀ r ∈ s.readerSet, s.reserveCursor ≤ s.value r + size
  ungated : s.readerSet = [] → s.reserveCursor ≤ s.publishCursor + size

/-- A segment below the end of the writer's claim is yet to be allocated. -/
def Missing (shift : Nat) (s : State α ρ) (use : Use α) : Prop :=
  s.impl.memory.nextSegment <<< shift < s.endPosition use ∧ s.endPosition use ≤ s.reserveCursor

/-- The oldest segment holds a position that is less than `size` slots below the reserve cursor, or lies above one. -/
def Passed (size shift : Nat) (s : State α ρ) : Prop :=
  ∃ x, s.reserveCursor ≤ x + size ∧ x < (s.impl.memory.oldestSegment + 1) <<< shift

def After.Grows : After α → Prop
  | .claim .. => False
  | .grow _ => True

def After.Window (shift : Nat) (s : State α ρ) : After α → Prop
  | .claim .. => s.writer.writer.nRequestedSamplesToPublish = none
  | .grow use => Missing shift s use

/-- Where the writer claims: what `getMinReaderCursor` has found is a lower bound of the readers below the reserve
    cursor. -/
def MinReader.Gates (s : State α ρ) : MinReader ρ → Prop
  | .loadGeneration | .loadSequences _ => True
  | .readSequence minimum r rest => ∀ q ∈ s.readerSet,
      s.reserveCursor ≤ s.value q ∨ q ∈ r :: rest ∨ ∃ m, minimum = some m ∧ m ≤ s.value q
  | .found minReader => ∀ q ∈ s.readerSet, s.reserveCursor ≤ s.value q ∨ minReader ≤ s.value q

/-- Where the writer frees: what it has found is at most `size` slots below the reserve cursor. -/
def MinReader.Within (size : Nat) (s : State α ρ) : MinReader ρ → Prop
  | .loadGeneration | .loadSequences _ => True
  | .readSequence minimum r rest => (∀ m, minimum = some m → s.reserveCursor ≤ m + size) ∧
      ∀ q ∈ r :: rest, s.reserveCursor ≤ s.value q + size
  | .found minReader => s.reserveCursor ≤ minReader + size

def Pc.Window (size shift : Nat) (s : State α ρ) : Pc α ρ → Prop
  | .idle => True
  | .claim _ _ _ stage => s.writer.writer.nRequestedSamplesToPublish = none ∧ stage.Gates s
  | .allocate use => s.endPosition use ≤ s.reserveCursor
  | .grow use => Missing shift s use ∧ Passed size shift s
  | .append use => Missing shift s use
  | .release after | .checkAttaching after | .loadReaders after => after.Window shift s
  | .getRemainingCapacity after stage => after.Window shift s ∧ (after.Grows → stage.Within size s)
  | .readReaders after slowest rest => after.Window shift s ∧ (after.Grows →
      s.reserveCursor ≤ slowest + size ∧ ∀ q ∈ rest, s.reserveCursor ≤ s.value q + size)
  | .freeSegments after slowestReader => after.Window shift s ∧ (after.Grows → s.reserveCursor ≤ slowestReader + size)
  | .freeIndexes after _ => after.Window shift s ∧ (after.Grows → Passed size shift s)

structure Window (size shift : Nat) (s : State α ρ) : Prop extends Claimed size s where
  pc : s.writer.pc.Window size shift s

/-- The writer is about to claim slots that no reader gates, and that end more than `size` slots above the publish
    position. -/
def State.Overruns (size : Nat) (s : State α ρ) : Prop :=
  match s.writer.pc with
  | .claim n _ _ (.found minReader) => s.readerSet = [] ∧ n ≤ remainingCapacity size s.reserveCursor minReader ∧
      s.publishCursor + size < s.reserveCursor + n
  | _ => False

/-- The bound on the length of the index. -/
def maxIndexLength (size shift : Nat) : Nat := max kInitialIndexLength (bitCeil (mostTouched shift size))

def IndexWithin (size shift : Nat) (m : Memory α) : Prop :=
  ∀ index, m.current = some index → index.length ≤ maxIndexLength size shift

theorem IndexWithin.resume (h : IndexWithin size shift s.impl.memory) (after : After α) :
    IndexWithin size shift (s.resume after).impl.memory := by
  cases after with
  | claim n w policy =>
    rw [State.resume]
    split <;> exact h
  | grow use => exact h

theorem Window.of_initial : Window size shift (initial : State α ρ) where
  claim := rfl
  requested := Nat.le_refl _
  gated _ hr := by cases hr
  ungated _ := Nat.zero_le _
  pc := trivial

theorem Claimed.congr (h : Claimed size s) (hw : t.writer.writer = s.writer.writer)
    (hr : t.reserveCursor = s.reserveCursor) (hp : t.publishCursor = s.publishCursor)
    (hs : t.impl.claimStrategy.readSequences = s.impl.claimStrategy.readSequences) : Claimed size t where
  claim := by
    rw [hw, hr]
    exact h.claim
  requested := by
    rw [hw]
    exact h.requested
  gated q hq := by
    rw [hr, State.value, hs]
    exact h.gated q (by rwa [State.readerSet, hs] at hq)
  ungated hnil := by
    rw [hr, hp]
    exact h.ungated (by rwa [State.readerSet, hs] at hnil)

theorem Claimed.pushSpan (h : Claimed size s) (span : WriterSpan) : Claimed size (s.pushSpan span) :=
  ⟨h.claim, h.requested, h.gated, h.ungated⟩

/-- The claim is at most `size` slots above the publish position. -/
theorem Claimed.le_publish (h : Claimed size s) (hi : Inv shift s chain) : s.reserveCursor ≤ s.publishCursor + size := by
  cases hset : s.readerSet with
  | nil => exact h.ungated hset
  | cons r rest =>
    have hr := h.gated r (hset ▸ (.head _))
    have hv := hi.cursors.value r
    omega

/-- With a segment to allocate the writer has slots claimed, so no reader comes or goes. -/
theorem Missing.not_quiet {use : Use α} (h : Missing shift s use) (hi : Inv shift s chain) : ¬ s.Quiet := by
  intro hq
  have hle := hi.storage.allocated
  have heq := hq.1
  obtain ⟨h1, h2⟩ := h
  omega

theorem Missing.not_changing {use : Use α} (h : Missing shift s use) (hi : Inv shift s chain) (hs : s.Steady) (r : ρ) :
    ¬ (s.readers r).Changing := fun hr => h.not_quiet hi (hs r hr)

/-! ### The steps of the readers -/

namespace ReaderStep

variable (hr : ReaderStep shift chain s r t)
include hr

theorem value_le (q : ρ) : s.value q ≤ t.value q := by
  rcases eq_or_ne q r with rfl | hq
  · exact hr.value.1
  · exact Nat.le_of_eq (hr.kept q hq).value.symm

theorem endPosition_eq (use : Use α) : t.endPosition use = s.endPosition use := by
  cases use with
  | write i value | publish => rw [State.endPosition, State.endPosition, hr.writer]

theorem reserveCursor_eq : t.reserveCursor = s.reserveCursor := hr.reserve

theorem missing {use : Use α} (h : Missing shift s use) : Missing shift t use := by
  rw [Missing, hr.endPosition_eq, hr.reserveCursor_eq, hr.memory]
  exact h

theorem passed (h : Passed size shift s) : Passed size shift t := by
  rw [Passed, hr.reserveCursor_eq, hr.memory]
  exact h

theorem after {after : After α} (h : after.Window shift s) : after.Window shift t := by
  cases after with
  | claim n w policy =>
    rw [After.Window, hr.writer]
    exact h
  | grow use => exact hr.missing h

theorem gates {stage : MinReader ρ} (h : stage.Gates s) (hl : ListStep s r t) (hs : t.Steady) : stage.Gates t := by
  rcases hl.list with hset | hch
  · cases stage with
    | loadGeneration | loadSequences generation => trivial
    | readSequence minimum q rest =>
      intro x hx
      rw [hr.reserveCursor_eq]
      rcases h x (hset ▸ hx) with h | h | ⟨m, hm, hle⟩
      · exact .inl (Nat.le_trans h (hr.value_le x))
      · exact .inr (.inl h)
      · exact .inr (.inr ⟨m, hm, Nat.le_trans hle (hr.value_le x)⟩)
    | found minReader =>
      intro x hx
      rw [hr.reserveCursor_eq]
      exact (h x (hset ▸ hx)).imp (Nat.le_trans · (hr.value_le x)) (Nat.le_trans · (hr.value_le x))
  · -- Every reader in the set is at the reserve cursor.
    obtain ⟨heq, hvalue⟩ := hs r hch
    cases stage with
    | loadGeneration | loadSequences generation => trivial
    | readSequence minimum q rest | found minReader => exact fun x hx => .inl (Nat.le_of_eq (heq.trans (hvalue x hx).symm))

theorem le_value {q : ρ} (h : s.reserveCursor ≤ s.value q + size) : t.reserveCursor ≤ t.value q + size := by
  rw [hr.reserveCursor_eq]
  exact Nat.le_trans h (Nat.add_le_add_right (hr.value_le q) size)

theorem within {stage : MinReader ρ} (h : stage.Within size s) : stage.Within size t := by
  cases stage with
  | loadGeneration | loadSequences generation => trivial
  | readSequence minimum q rest =>
    refine ⟨fun m hm => ?_, fun x hx => hr.le_value (h.2 x hx)⟩
    rw [hr.reserveCursor_eq]
    exact h.1 m hm
  | found minReader =>
    rw [MinReader.Within, hr.reserveCursor_eq]
    exact h

theorem claimed (h : Claimed size s) (hl : ListStep s r t) (hs : t.Steady) : Claimed size t where
  claim := by
    rw [hr.writer, hr.reserveCursor_eq]
    exact h.claim
  requested := by
    rw [hr.writer]
    exact h.requested
  gated q hq := by
    rcases hl.list with hset | hch
    · exact hr.le_value (h.gated q (hset ▸ hq))
    · obtain ⟨heq, hvalue⟩ := hs r hch
      rw [heq, hvalue q hq]
      exact Nat.le_add_right ..
  ungated hnil := by
    rcases hl.list with hset | hch
    · rw [hr.reserveCursor_eq, hr.cursor]
      exact h.ungated (hset.symm.trans hnil)
    · rw [(hs r hch).1]
      exact Nat.le_add_right ..

/-- A reader only moves forward, and while it is attached or detached nothing is claimed. -/
theorem window (h : Window size shift s) (hl : ListStep s r t) (hs : t.Steady) : Window size shift t := by
  refine ⟨hr.claimed h.toClaimed hl hs, ?_⟩
  have hw := h.pc
  rw [hr.writer]
  cases hpc : s.writer.pc with
  | idle => trivial
  | claim n w policy stage =>
    rw [hpc] at hw
    refine ⟨?_, hr.gates hw.2 hl hs⟩
    rw [hr.writer]
    exact hw.1
  | allocate use =>
    rw [hpc] at hw
    rw [Pc.Window, hr.endPosition_eq, hr.reserveCursor_eq]
    exact hw
  | grow use =>
    rw [hpc] at hw
    exact ⟨hr.missing hw.1, hr.passed hw.2⟩
  | append use =>
    rw [hpc] at hw
    exact hr.missing hw
  | release after | checkAttaching after | loadReaders after =>
    rw [hpc] at hw
    exact hr.after hw
  | getRemainingCapacity after stage =>
    rw [hpc] at hw
    exact ⟨hr.after hw.1, fun hg => hr.within (hw.2 hg)⟩
  | readReaders after slowest rest =>
    rw [hpc] at hw
    refine ⟨hr.after hw.1, fun hg => ⟨?_, fun q hq => hr.le_value ((hw.2 hg).2 q hq)⟩⟩
    rw [hr.reserveCursor_eq]
    exact (hw.2 hg).1
  | freeSegments after slowestReader =>
    rw [hpc] at hw
    rw [Pc.Window, hr.reserveCursor_eq]
    exact ⟨hr.after hw.1, hw.2⟩
  | freeIndexes after replaced =>
    rw [hpc] at hw
    exact ⟨hr.after hw.1, fun hg => hr.passed (hw.2 hg)⟩

end ReaderStep

/-! ### The steps of the writer -/

theorem Listed.congr (h : Listed s) (hr : t.readers = s.readers) (hs : t.impl.claimStrategy = s.impl.claimStrategy) :
    Listed t where
  member q hq := by
    rw [State.readerSet, hs] at hq
    rw [hr]
    exact h.member q hq
  snapshot hg q hq := by
    rw [hs] at hg hq
    rw [State.readerSet, hr, hs]
    exact h.snapshot hg q hq

theorem Listed.resume (h : Listed s) (after : After α) : Listed (s.resume after) := by
  cases after with
  | claim n w policy =>
    rw [State.resume]
    split <;> exact h.congr rfl rfl
  | grow use => exact h.congr rfl rfl

/-- `getMinReaderCursor` changes the snapshot at most, to the list. -/
theorem Listed.minReader (h : Listed s) (stage : MinReader ρ) (pc : Pc α ρ) :
    Listed ((s.setStrategy (stage.step s.impl.claimStrategy).1).setPc pc) := by
  cases stage with
  | loadGeneration =>
    rw [MinReader.step]
    split <;> exact ⟨h.member, h.snapshot⟩
  | loadSequences generation => exact ⟨h.member, fun _ _ => .inl⟩
  | readSequence minimum q rest =>
    cases rest with
    | nil | cons q' rest => exact ⟨h.member, h.snapshot⟩
  | found minReader => exact ⟨h.member, h.snapshot⟩

theorem gates_ofSnapshot {strategy : Strategy ρ}
    (h : ∀ q ∈ s.readerSet, s.reserveCursor ≤ s.value q ∨ q ∈ strategy.snapshotReadSequences) :
    (MinReader.ofSnapshot strategy).Gates s := by
  unfold MinReader.ofSnapshot
  split
  case h_1 hnil =>
    intro q hq
    rcases h q hq with h | h
    · exact .inl h
    · rw [hnil] at h
      cases h
  case h_2 q' rest hcons =>
    intro q hq
    rcases h q hq with h | h
    · exact .inl h
    · exact .inr (.inl (hcons ▸ h))

theorem within_ofSnapshot {strategy : Strategy ρ} (hr : strategy.reserveCursor = s.reserveCursor)
    (h : ∀ q ∈ strategy.snapshotReadSequences, s.reserveCursor ≤ s.value q + size) :
    (MinReader.ofSnapshot strategy).Within size s := by
  unfold MinReader.ofSnapshot
  split
  case h_1 =>
    rw [MinReader.Within, hr]
    exact Nat.le_add_right ..
  case h_2 q rest hcons => exact ⟨nofun, hcons ▸ h⟩

namespace Window

theorem gates (h : Listed s) (hi : Inv shift s chain) (hs : s.Steady) {stage : MinReader ρ} (hg : stage.Gates s)
    (pc : Pc α ρ) :
    (stage.step s.impl.claimStrategy).2.Gates ((s.setStrategy (stage.step s.impl.claimStrategy).1).setPc pc) := by
  cases stage with
  | loadGeneration =>
    rw [MinReader.step]
    split
    case isTrue hgen =>
      refine gates_ofSnapshot fun q hq => ?_
      rcases ReaderThread.announced_or_changing (h.member q hq) with ha | hch
      · exact .inr (hi.cursors.announced hgen q ha)
      · obtain ⟨heq, hvalue⟩ := hs q hch
        exact .inl (Nat.le_of_eq (heq.trans (hvalue q hq).symm))
    case isFalse => trivial
  | loadSequences generation => exact gates_ofSnapshot fun q hq => .inr hq
  | readSequence minimum r rest =>
    obtain ⟨hv, hm⟩ := lower_le minimum (s.value r)
    -- The minimum now covers `r` as well.
    have hnext : ∀ q ∈ s.readerSet,
        s.reserveCursor ≤ s.value q ∨ q ∈ rest ∨ lower minimum (s.value r) ≤ s.value q := by
      intro q hq
      rcases hg q hq with h | h | ⟨m, hmin, hle⟩
      · exact .inl h
      · rcases List.mem_cons.mp h with rfl | h
        · exact .inr (.inr hv)
        · exact .inr (.inl h)
      · exact .inr (.inr (Nat.le_trans (hm m hmin) hle))
    cases rest with
    | nil => exact fun q hq => (hnext q hq).imp id fun h => h.resolve_left List.not_mem_nil
    | cons r' rest => exact fun q hq => (hnext q hq).imp id (Or.imp id fun h => ⟨_, rfl, h⟩)
  | found minReader => exact hg

theorem within (h : Listed s) (hw : Claimed size s) (hch : ∀ r, ¬ (s.readers r).Changing) {stage : MinReader ρ}
    (hg : stage.Within size s) (pc : Pc α ρ) :
    (stage.step s.impl.claimStrategy).2.Within size ((s.setStrategy (stage.step s.impl.claimStrategy).1).setPc pc) := by
  cases stage with
  | loadGeneration =>
    rw [MinReader.step]
    split
    case isTrue hgen =>
      refine within_ofSnapshot rfl fun q hq => hw.gated q ((h.snapshot hgen q hq).resolve_right fun hn => hch q ?_)
      rw [hn]
      trivial
    case isFalse => trivial
  | loadSequences generation => exact within_ofSnapshot rfl hw.gated
  | readSequence minimum r rest =>
    have hv := hg.2 r (.head _)
    have hlower : s.reserveCursor ≤ lower minimum (s.value r) + size := by
      unfold lower
      split
      case h_1 => exact hv
      case h_2 m =>
        split
        · exact hv
        · exact hg.1 m rfl
    cases rest with
    | nil => exact hlower
    | cons r' rest =>
      refine ⟨fun m hm => ?_, fun q hq => hg.2 q (.tail _ hq)⟩
      cases hm
      exact hlower
  | found minReader => exact hg

/-- Where the oldest segment is not passed by a position that is `size` slots below the reserve cursor at most. -/
theorem passed (hi : Inv shift s chain) {x : Nat} (hx : x ≤ s.publishCursor) (hr : s.reserveCursor ≤ x + size)
    (h : ¬ s.impl.memory.SegmentPassed shift x) : Passed size shift s := by
  refine ⟨x, hr, ?_⟩
  by_cases hlt : s.impl.memory.oldestSegment < s.impl.memory.nextSegment
  · exact Nat.lt_of_not_le fun hle => h ⟨hlt, hle⟩
  · have hle := hi.storage.allocated
    have hmono : s.impl.memory.nextSegment <<< shift ≤ s.impl.memory.oldestSegment <<< shift :=
      shiftLeft_mono (Nat.le_of_not_lt hlt)
    have hlast := @shiftLeft_lt shift s.impl.memory.oldestSegment
    omega

theorem resume {after : After α} (h : Claimed size s) (ha : after.Window shift s)
    (hp : after.Grows → Passed size shift s) : Window size shift (s.resume after) := by
  cases after with
  | claim n w policy =>
    rw [State.resume]
    split
    · exact ⟨h.pushSpan _, trivial⟩
    · exact ⟨h.congr rfl rfl rfl rfl, ha, trivial⟩
  | grow use => exact ⟨h.congr rfl rfl rfl rfl, ha, hp trivial⟩

/-- The index that is installed in the place of another, or as the first. -/
theorem replaceIndex (hi : Inv shift s chain) (h : Claimed size s) {use : Use α} (hm : Missing shift s use) {length : Nat}
    (hl : ∃ j, length = 2 ^ j) (hfits : s.impl.memory.nextSegment - s.impl.memory.oldestSegment < length)
    (hlen : length ≤ maxIndexLength size shift)
    (hs : ((s.impl.memory.replaceIndex length s.publishCursor).map fun m => (s.setMemory m).setPc (.append use)) = some t) :
    Window size shift t ∧ IndexWithin size shift t.impl.memory := by
  obtain ⟨m, q, index, ht, -, -, -, hcur, hlength, -, -, hnext, -⟩ :=
    hi.storage.sound.replaceIndex s.publishCursor hl (Nat.le_of_lt hfits)
  rw [ht] at hs
  cases hs
  refine ⟨⟨h.congr rfl rfl rfl rfl, ?_⟩, fun index' hi' => ?_⟩
  · exact ⟨hnext.symm ▸ hm.1, hm.2⟩
  · cases hcur.symm.trans hi'
    exact hlength ▸ hlen

/-- The index doubles where a window of `size` slots touches more segments than it has entries. -/
theorem double_le (hi : Inv shift s chain) {use : Use α} {index : SegmentIndex} (hc : s.impl.memory.current = some index)
    (hm : Missing shift s use) (hp : Passed size shift s) (hfull : s.impl.memory.IndexFull index) :
    2 * index.length ≤ maxIndexLength size shift := by
  obtain ⟨j, hj⟩ := hi.storage.sound.length index hc
  obtain ⟨x, hx, hlt⟩ := hp
  have hpos := Nat.two_pow_pos j
  have hfull : index.length ≤ s.impl.memory.nextSegment - s.impl.memory.oldestSegment := hfull
  have hcard : s.impl.memory.nextSegment + 1 - s.impl.memory.oldestSegment ≤ (touched shift x size).card :=
    le_card_touched (by omega) hlt (Nat.lt_of_lt_of_le hm.1 (Nat.le_trans hm.2 hx))
  have hmost := @card_touched_le shift x size
  have hclog : j < Nat.clog 2 (mostTouched shift size) := (Nat.lt_clog_iff_pow_lt Nat.one_lt_two).mpr (by omega)
  calc 2 * index.length = 2 ^ (j + 1) := by rw [hj, Nat.pow_succ, Nat.mul_comm]
    _ ≤ bitCeil (mostTouched shift size) := Nat.pow_le_pow_right Nat.two_pos hclog
    _ ≤ maxIndexLength size shift := Nat.le_max_right ..

theorem remainingCapacity_le_size (size reserveCursor minReader : Nat) :
    remainingCapacity size reserveCursor minReader ≤ size := by
  unfold remainingCapacity
  split
  · exact Nat.zero_le _
  · exact Nat.sub_le ..

/-- The slots that the writer claims end at most `size` slots above each reader. -/
theorem gated_claim (h : Claimed size s) {n minReader : Nat} (hg : (MinReader.found minReader).Gates s)
    (hn : n ≤ remainingCapacity size s.reserveCursor minReader) {q : ρ} (hq : q ∈ s.readerSet) :
    s.reserveCursor + n ≤ s.value q + size := by
  rcases Nat.eq_zero_or_pos n with rfl | hpos
  · exact h.gated q hq
  · have hsize := remainingCapacity_le_size size s.reserveCursor minReader
    have hle := remainingCapacity_le hpos hn
    rcases hg q hq with h | h <;> omega

/-- A request to publish stays within the claim. -/
theorem publish_claim (span : WriterSpan) (w : Writer) (n : Nat)
    (h : w.nRequestedSamplesToPublish.getD 0 ≤ w.claimSize) :
    (publish span w n).claimOffset = w.claimOffset ∧ (publish span w n).claimSize = w.claimSize ∧
      (publish span w n).nRequestedSamplesToPublish.getD 0 ≤ (publish span w n).claimSize := by
  unfold SegmentedBuffer.publish
  split
  · exact ⟨rfl, rfl, h⟩
  · refine ⟨rfl, rfl, ?_⟩
    dsimp only [Option.getD_some]
    omega

theorem after_setMemory {after : After α} {m : Memory α} (h : after.Window shift s)
    (hn : m.nextSegment = s.impl.memory.nextSegment) : after.Window shift (s.setMemory m) := by
  cases after with
  | claim n w policy => exact h
  | grow use => exact ⟨hn.symm ▸ h.1, h.2⟩

/-- The writer has its segments: it writes, or publishes. -/
theorem allocated (hl : Listed s) (h : Claimed size s) {use : Use α}
    (hb : IndexWithin size shift s.impl.memory) (hs : s.allocated shift use = some t) :
    Listed t ∧ Window size shift t ∧ IndexWithin size shift t.impl.memory := by
  cases use with
  | write i value =>
    obtain ⟨m, hm, rfl⟩ := Option.map_eq_some_iff.mp hs
    refine ⟨hl.congr rfl rfl, ⟨h.congr rfl rfl rfl rfl, trivial⟩, fun index hcur => hb index ?_⟩
    -- A write stores nothing in an index.
    obtain ⟨p, hp, hm⟩ := Option.bind_eq_some_iff.mp hm
    obtain ⟨segment, -, hm⟩ := Option.bind_eq_some_iff.mp hm
    obtain ⟨segments, -, rfl⟩ := Option.map_eq_some_iff.mp hm
    exact hcur
  | publish =>
    have hrequested := h.requested
    have hclaim := h.claim
    cases hs
    refine ⟨⟨hl.member, hl.snapshot⟩, ⟨⟨rfl, Nat.le_refl _, fun q hq => ?_, fun _ => Nat.le_add_right ..⟩, trivial⟩, hb⟩
    have hgated := h.gated q hq
    change s.writer.writer.claimOffset + s.writer.writer.nRequestedSamplesToPublish.getD 0 ≤ s.value q + size
    omega

theorem writerStep [Inhabited α] (hi : Inv shift s chain) (hl : Listed s) (hst : s.Steady) (h : Window size shift s)
    (hb : IndexWithin size shift s.impl.memory) (hover : ¬ s.Overruns size)
    (hs : s.writerStep shift size = some t) :
    Listed t ∧ Window size shift t ∧ IndexWithin size shift t.impl.memory := by
  have hsound := hi.pc
  have hw := h.pc
  have hc := h.toClaimed
  unfold State.writerStep at hs
  dsimp only at hs
  split at hs <;> rename_i hpc <;> rw [hpc] at hsound hw
  case h_1 =>
    cases hs
    exact ⟨hl, h, hb⟩
  case h_2 n w policy minReader =>
    -- `tryNext` and `next` find their minimum.
    split at hs
    case isTrue =>
      split at hs <;> cases hs
      · exact ⟨hl.congr rfl rfl, ⟨hc.congr rfl rfl rfl rfl, hw.1, trivial⟩, hb⟩
      · exact ⟨hl.congr rfl rfl, ⟨hc.pushSpan _, trivial⟩, hb⟩
    case isFalse hn =>
      have hn := Nat.le_of_not_lt hn
      cases hs
      refine ⟨⟨hl.member, hl.snapshot⟩, ⟨⟨?_, ?_, fun q hq => gated_claim hc hw.2 hn hq, fun hnil => ?_⟩, trivial⟩, hb⟩
      · exact Nat.sub_add_cancel (Nat.le_add_left ..)
      · change s.writer.writer.nRequestedSamplesToPublish.getD 0 ≤ n
        rw [hw.1]
        exact Nat.zero_le n
      · rw [State.Overruns, hpc] at hover
        exact Nat.le_of_not_lt fun hlt => hover ⟨hnil, hn, hlt⟩
  case h_3 n w policy stage hfound =>
    cases hs
    obtain ⟨hsequences, hcursor, hreserve⟩ := Inv.minReader_step stage s.impl.claimStrategy
    exact ⟨hl.minReader .., ⟨hc.congr rfl hreserve hcursor hsequences, hw.1, gates hl hi hst hw.2 _⟩, hb⟩
  case h_4 use =>
    split at hs
    case isTrue ha => exact allocated hl hc hb hs
    case isFalse ha =>
      have hmissing : Missing shift s use := ⟨Nat.lt_of_not_le (mt allocatedThrough_iff.mpr ha), hw⟩
      split at hs
      case h_1 hp =>
        have h0 := hi.storage.sound.null hp
        obtain ⟨hwin, hbound⟩ := replaceIndex hi hc hmissing ⟨2, rfl⟩ (by rw [h0, Nat.zero_sub]; decide)
          (Nat.le_max_left ..) hs
        obtain ⟨m, -, rfl⟩ := Option.map_eq_some_iff.mp hs
        exact ⟨hl.congr rfl rfl, hwin, hbound⟩
      case h_2 p hp =>
        obtain ⟨index, -, rfl⟩ := Option.map_eq_some_iff.mp hs
        refine ⟨hl.congr rfl rfl, ⟨hc.congr rfl rfl rfl rfl, ?_⟩, hb⟩
        change Pc.Window size shift s (if _ then _ else _)
        split <;> exact hmissing
  case h_5 use =>
    obtain ⟨index, hcur, hs⟩ := Option.bind_eq_some_iff.mp hs
    split at hs
    case isTrue hfull =>
      obtain ⟨j, hj⟩ := hi.storage.sound.length index hcur
      have hfits := hi.storage.sound.fits index hcur
      have hpos := Nat.two_pow_pos j
      obtain ⟨hwin, hbound⟩ := replaceIndex hi hc hw.1 ⟨j + 1, by rw [hj, Nat.pow_succ, Nat.mul_comm]⟩ (by omega)
        (double_le hi hcur hw.1 hw.2 hfull) hs
      obtain ⟨m, -, rfl⟩ := Option.map_eq_some_iff.mp hs
      exact ⟨hl.congr rfl rfl, hwin, hbound⟩
    case isFalse =>
      cases hs
      exact ⟨hl.congr rfl rfl, ⟨hc.congr rfl rfl rfl rfl, hw.1⟩, hb⟩
  case h_6 use =>
    obtain ⟨index, hcur, hfree⟩ := hsound
    obtain ⟨m, q, index', hm, -, -, -, hcur', hlen, -⟩ := hi.storage.sound.allocateSegment hcur hfree
    rw [hm] at hs
    cases hs
    refine ⟨hl.congr rfl rfl, ⟨hc.congr rfl rfl rfl rfl, hw.2⟩, fun i hi' => ?_⟩
    obtain rfl := Option.some.inj (hcur'.symm.trans hi')
    exact hlen ▸ hb index hcur
  case h_7 after =>
    split at hs
    case h_1 hp =>
      cases hs
      refine ⟨hl.resume after, resume hc hw fun hg => ?_, hb.resume after⟩
      cases after with
      | claim n w policy => exact hg.elim
      | grow use => exact absurd hp hsound
    case h_2 p hp =>
      obtain ⟨index, -, rfl⟩ := Option.map_eq_some_iff.mp hs
      split
      case isTrue => exact ⟨hl.congr rfl rfl, ⟨hc.congr rfl rfl rfl rfl, hw⟩, hb⟩
      case isFalse hp =>
        refine ⟨hl.resume after, resume hc hw fun _ => ?_, hb.resume after⟩
        exact passed hi (Nat.le_refl _) (hc.le_publish hi) fun hseg => hp (.inl hseg)
  case h_8 after =>
    cases hs
    split
    case isTrue => exact ⟨hl.congr rfl rfl, ⟨hc.congr rfl rfl rfl rfl, hw, fun _ => trivial⟩, hb⟩
    case isFalse hn =>
      refine ⟨hl.resume after, resume hc hw fun hg => ?_, hb.resume after⟩
      -- A reader that is marked is being attached.
      obtain ⟨r, hr⟩ := hi.cursors.attaching.exists_of_ne hn
      cases after with
      | claim n w policy => exact hg.elim
      | grow use => exact absurd (ReaderThread.changing_of_marked hr) (hw.not_changing hi hst r)
  case h_9 after minReader =>
    cases hs
    refine ⟨hl.congr rfl rfl, ⟨hc.congr rfl rfl rfl rfl, ?_⟩, hb⟩
    change Pc.Window size shift s (if _ then _ else _)
    split
    case isTrue hrem =>
      refine ⟨hw.1, fun hg => ?_⟩
      have hslowest := Inv.slowest_of_remaining hrem
      have hfound : s.reserveCursor ≤ minReader + size := hw.2 hg
      have hpublish := hc.le_publish hi
      rw [hslowest]
      omega
    case isFalse => exact hw.1
  case h_10 after stage hfound =>
    cases hs
    obtain ⟨hsequences, hcursor, hreserve⟩ := Inv.minReader_step stage s.impl.claimStrategy
    refine ⟨hl.minReader .., ⟨hc.congr rfl hreserve hcursor hsequences, ?_, fun hg => ?_⟩, hb⟩
    · cases after with
      | claim n w policy => exact hw.1
      | grow use => exact ⟨hw.1.1, Nat.le_trans hw.1.2 (Nat.le_of_eq hreserve.symm)⟩
    · refine within hl hc (fun r => ?_) (hw.2 hg) _
      cases after with
      | claim n w policy => exact hg.elim
      | grow use => exact hw.1.not_changing hi hst r
  case h_11 after =>
    cases hs
    exact ⟨hl.congr rfl rfl, ⟨hc.congr rfl rfl rfl rfl, hw, fun _ => ⟨Nat.le_add_right .., hc.gated⟩⟩, hb⟩
  case h_12 after slowest =>
    cases hs
    refine ⟨hl.congr rfl rfl, ⟨hc.congr rfl rfl rfl rfl, hw.1, fun hg => ?_⟩, hb⟩
    have hslowest := (hw.2 hg).1
    have hpublish := hc.le_publish hi
    change s.reserveCursor ≤ min slowest s.publishCursor + size
    omega
  case h_13 after slowest q rest =>
    cases hs
    refine ⟨hl.congr rfl rfl, ⟨hc.congr rfl rfl rfl rfl, hw.1, fun hg => ⟨?_, fun x hx => ?_⟩⟩, hb⟩
    · have hslowest := (hw.2 hg).1
      have hvalue := (hw.2 hg).2 q (.head _)
      change s.reserveCursor ≤ min slowest (s.value q) + size
      omega
    · exact (hw.2 hg).2 x (.tail _ hx)
  case h_14 after slowestReader =>
    split at hs
    case isTrue hseg =>
      obtain ⟨p, hp⟩ := Option.ne_none_iff_exists'.mp hsound.1
      obtain ⟨chain', index, -, -, hcur, -⟩ := hi.storage.sound.head hp
      obtain ⟨m, index', hm, -, -, -, hcur', hlen, -, -, hnext, -⟩ := hi.storage.sound.freeSegment hseg.1 hcur
      rw [hm] at hs
      cases hs
      refine ⟨hl.congr rfl rfl, ⟨hc.congr rfl rfl rfl rfl, ?_⟩, fun i hi' => ?_⟩
      · change Pc.Window size shift (s.setMemory m) s.writer.pc
        rw [hpc]
        exact ⟨after_setMemory hw.1 hnext, hw.2⟩
      · obtain rfl := Option.some.inj (hcur'.symm.trans hi')
        exact hlen ▸ hb index hcur
    case isFalse hseg =>
      obtain ⟨hnull, hle, -⟩ := hsound
      have hpassed (hg : after.Grows) : Passed size shift s := passed hi hle (hw.2 hg) hseg
      obtain ⟨index, hcur, hs⟩ := Option.bind_eq_some_iff.mp hs
      split at hs
      case isTrue =>
        obtain ⟨p, hp⟩ := Option.ne_none_iff_exists'.mp hnull
        obtain ⟨rest, -, rfl, -⟩ := hi.storage.sound.head hp
        obtain ⟨m, index', hm, -, -, -, hcur', hlen, -, -, hnext, holdest, -⟩ := hi.storage.sound.takeReplaced hcur
        rw [hm] at hs
        cases hs
        refine ⟨hl.congr rfl rfl, ⟨hc.congr rfl rfl rfl rfl, after_setMemory hw.1 hnext, fun hg => ?_⟩, fun i hi' => ?_⟩
        · obtain ⟨x, hx, hlt⟩ := hpassed hg
          exact ⟨x, hx, holdest.symm ▸ hlt⟩
        · obtain rfl := Option.some.inj (hcur'.symm.trans hi')
          exact hlen ▸ hb index hcur
      case isFalse =>
        cases hs
        exact ⟨hl.resume after, resume hc hw.1 hpassed, hb.resume after⟩
  case h_15 after =>
    cases hs
    exact ⟨hl.resume after, resume hc hw.1 hw.2, hb.resume after⟩
  case h_16 after p =>
    obtain ⟨hnull, pending, hpending, hnodup⟩ := hsound
    cases pending with
    | nil => cases hpending
    | cons q rest =>
      obtain rfl := Option.some.inj hpending.1
      obtain ⟨m, start, hm, -, -, -, hcur', hnext, holdest, -⟩ := hi.storage.sound.freeIndex hpending hnodup
      rw [hm] at hs
      cases hs
      refine ⟨hl.congr rfl rfl, ⟨hc.congr rfl rfl rfl rfl, after_setMemory hw.1 hnext, fun hg => ?_⟩, fun i hi' => ?_⟩
      · obtain ⟨x, hx, hlt⟩ := hw.2 hg
        exact ⟨x, hx, holdest.symm ▸ hlt⟩
      · exact hb i (hcur'.symm.trans hi')

/-- A call of the writer. -/
theorem writerCall [Inhabited α] [DecidableEq ρ] (hl : Listed s) (h : Window size shift s) (hpc : s.writer.pc = .idle)
    {a : Act α ρ} (hs : s.writerCall a = some t) :
    Listed t ∧ Window size shift t ∧ t.impl.memory = s.impl.memory := by
  have hclaim := h.claim
  have hrequested := h.requested
  cases a with
  | reserve n w policy =>
    simp only [State.writerCall] at hs
    split at hs <;> cases hs
    · exact ⟨hl.congr rfl rfl, ⟨h.pushSpan _, trivial⟩, rfl⟩
    · exact ⟨hl.congr rfl rfl, ⟨⟨h.claim, Nat.zero_le _, h.gated, h.ungated⟩, rfl⟩, rfl⟩
  | copyWriterSpan k =>
    obtain ⟨span, -, rfl⟩ := Option.map_eq_some_iff.mp hs
    exact ⟨hl.congr rfl rfl, ⟨h.pushSpan _, trivial⟩, rfl⟩
  | write k i value =>
    obtain ⟨span, -, hs⟩ := Option.bind_eq_some_iff.mp hs
    split at hs <;> cases hs
    case isFalse.refl hi =>
      refine ⟨hl.congr rfl rfl, ⟨h.congr rfl rfl rfl rfl, ?_⟩, rfl⟩
      change s.writer.writer.claimOffset + i + 1 ≤ s.reserveCursor
      omega
  | publish k n =>
    obtain ⟨span, -, rfl⟩ := Option.map_eq_some_iff.mp hs
    obtain ⟨h1, h2, h3⟩ := publish_claim span s.writer.writer n hrequested
    refine ⟨hl.congr rfl rfl, ⟨⟨?_, h3, h.gated, h.ungated⟩, ?_⟩, rfl⟩
    · exact (congrArg₂ (· + ·) h1 h2).trans hclaim
    · change s.writer.pc.Window size shift _
      rw [hpc]
      trivial
  | releaseWriterSpan k =>
    obtain ⟨span, -, hs⟩ := Option.bind_eq_some_iff.mp hs
    dsimp only at hs
    split at hs
    case isTrue =>
      cases hs
      exact ⟨hl.congr rfl rfl, ⟨⟨h.claim, h.requested, h.gated, h.ungated⟩, trivial⟩, rfl⟩
    case isFalse =>
      obtain ⟨writer, hw, rfl⟩ := Option.map_eq_some_iff.mp hs
      obtain ⟨h1, h2, h3⟩ : writer.claimOffset = s.writer.writer.claimOffset ∧
          writer.claimSize = s.writer.writer.claimSize ∧
          writer.nRequestedSamplesToPublish.getD 0 ≤ writer.claimSize := by
        unfold requested at hw
        split at hw
        · cases hw
          exact ⟨rfl, rfl, hrequested⟩
        · split at hw <;> cases hw <;> exact publish_claim span _ _ hrequested
      refine ⟨hl.congr rfl rfl, ⟨⟨(congrArg₂ (· + ·) h1 h2).trans hclaim, h3, h.gated, h.ungated⟩, ?_⟩, rfl⟩
      change writer.claimOffset + writer.nRequestedSamplesToPublish.getD 0 ≤ s.reserveCursor
      omega
  | writer | attach | construct | get | loadIndex | copyReaderSpan | tryConsume | releaseReaderSpan | detach | destroy =>
    cases hs

end Window

/-! ### Every state -/

/-- What holds in every state of a run. -/
structure IndexRun (size shift : Nat) (s : State α ρ) : Prop where
  run : Run shift s
  within : IndexWithin size shift s.impl.memory
  listed : s.destroyed = false → Listed s
  window : s.destroyed = false → s.Steady → Window size shift s

/-- Readers come and go only while nothing is claimed or unread, and the writer does not overrun. -/
def Regular (size : Nat) (s : State α ρ) (a : Act α ρ) : Prop := s.Steady ∧ (a = .writer → ¬ s.Overruns size)

theorem IndexRun.step [Inhabited α] [DecidableEq ρ] (h : IndexRun size shift s) {a : Act α ρ} (ha : Regular size s a)
    (hs : SegmentedBuffer.step size shift s a = some t) : IndexRun size shift t := by
  have hrun := h.run.step hs
  obtain ⟨hd, hs⟩ := step_cases hs
  obtain ⟨chain, hi⟩ := h.run.exists_inv hd
  have hl := h.listed hd
  have hw := h.window hd ha.1
  have hreader {r : ρ} (hr : ReaderStep shift chain s r t) (hlist : ListStep s r t) : IndexRun size shift t :=
    ⟨hrun, hr.memory ▸ h.within, fun _ => hl.step hi.cursors hr hlist, fun _ => hr.window hw hlist⟩
  rcases hs with ⟨hpc, hs⟩ | ⟨rfl, rfl⟩ | ⟨r, hr, rfl⟩ | ⟨r, spurious, hs⟩ | ⟨r, handle, hr, hs⟩ | ⟨-, rfl⟩
  · obtain ⟨hlt, hwt, hm⟩ := Window.writerCall hl hw hpc hs
    exact ⟨hrun, hm ▸ h.within, fun _ => hlt, fun _ _ => hwt⟩
  · obtain ⟨u, -, hu, -⟩ := hi.writerStep size
    obtain ⟨hlt, hwt, hb⟩ := Window.writerStep hi hl ha.1 hw h.within (ha.2 rfl) hu
    rw [hu] at hrun ⊢
    exact ⟨hrun, hb, fun _ => hlt, fun _ _ => hwt⟩
  · exact hreader (.attach hi hr) (.attach hl hr)
  · exact hreader (.construct hi hs) (.construct hl hi.cursors hs)
  · exact hreader (.call hi hr hs) (.call hl hr hs)
  · obtain ⟨m, hm, hnone⟩ := destroy_sound hi.storage.sound
    rw [hm] at hrun ⊢
    exact ⟨hrun, fun index hcur => (by cases hnone.symm.trans hcur), nofun, nofun⟩

theorem reachable_indexRun [Inhabited α] [DecidableEq ρ] (h : (system size shift).Reach (Regular size) s) :
    IndexRun size shift s := by
  refine h.invariant (fun _ e => ?_) fun _ _ _ hr ha hs => hr.step ha hs
  subst e
  exact ⟨.of_inv rfl rfl (.none fun _ => id) .of_initial, nofun, fun _ => .of_initial, fun _ _ => .of_initial⟩

/-- The index never has more entries than it starts with, or than the next power of two above the number of segments
    that a window of `size` slots can touch. -/
theorem index_bounded [Inhabited α] [DecidableEq ρ] (h : (system size shift).Reach (Regular size) s) {index : SegmentIndex}
    (hc : s.impl.memory.current = some index) :
    index.length ≤ max kInitialIndexLength (bitCeil (mostTouched shift size)) :=
  (reachable_indexRun h).within index hc

/-! ### Five segments of one slot -/

instance (thread : ReaderThread ρ) : Decidable thread.Changing := by
  cases thread <;> unfold ReaderThread.Changing <;> infer_instance

instance (s : State α ρ) : Decidable s.Quiet := inferInstanceAs (Decidable (_ ∧ ∀ r ∈ s.readerSet, _))

instance [Fintype ρ] (s : State α ρ) : Decidable s.Steady := inferInstanceAs (Decidable (∀ _, _ → _))

instance (s : State α ρ) : Decidable (s.Overruns size) := by
  unfold State.Overruns
  split <;> infer_instance

instance [DecidableEq α] [DecidableEq ρ] [Fintype ρ] (s : State α ρ) (a : Act α ρ) : Decidable (Regular size s a) :=
  inferInstanceAs (Decidable (_ ∧ _))

/-- The writer allocates up to slot `i` of its claim, and the index has doubled. -/
def growTo (i n : Nat) : List (Act Nat Unit) := .write 0 i 7 :: List.replicate n .writer

/-- Next to a reader, the writer fills a buffer of five slots. -/
def fillFive : List (Act Nat Unit) :=
  .attach () :: List.replicate 9 (.construct () false) ++
    .reserve 5 false .processAll :: List.replicate 5 .writer ++ growTo 4 11

theorem index_bounded_fillFive : ∃ s index, (system 5 0).run initial fillFive = some s ∧
    s.impl.memory.current = some index ∧ index.length = 8 ∧ 8 ≤ max kInitialIndexLength (bitCeil (mostTouched 0 5)) :=
  ⟨_, _, (Option.some_get (by decide)).symm, rfl, rfl,
    index_bounded ((system 5 0).reach_get fillFive rfl (by decide) (by decide)) rfl⟩

/-- Without a reader, the claim of four slots is dropped with a refused span, and the next one lies above it. -/
def dropAndGrow : List (Act Nat Unit) :=
  .reserve 4 false .processNone :: List.replicate 4 .writer ++
    [.reserve 1 false .processNone, .releaseWriterSpan 0, .releaseWriterSpan 0] ++
    .reserve 1 false .processNone :: List.replicate 3 .writer ++ growTo 0 11

theorem dropped_outgrows : ¬ ∀ (size shift : Nat) (s : State Nat Unit),
    (system size shift).Reach (fun s _ => s.Steady) s → ∀ index, s.impl.memory.current = some index →
      index.length ≤ max kInitialIndexLength (bitCeil (mostTouched shift size)) := by
  intro h
  have hr : (system 4 0).Reach (fun s _ => s.Steady) (((system 4 0).run initial dropAndGrow).get (by decide)) :=
    (system 4 0).reach_get dropAndGrow rfl (by decide) (by decide)
  have hle : 8 ≤ max kInitialIndexLength (bitCeil (mostTouched 0 4)) := h 4 0 _ hr _ rfl
  have hmost : mostTouched 0 4 = 4 := by decide
  have hceil : bitCeil 4 = 4 := congrArg (2 ^ ·) (Nat.clog_pow 2 2 (by decide))
  rw [hmost, hceil] at hle
  exact absurd hle (by decide)

end GnuRadio.SegmentedBuffer
