import Mathlib.Data.Fintype.Basic
import GnuRadio.Buffer.SingleProducerStrategy
import GnuRadio.Theorems.ReaderSet

/-! A single producer next to readers that attach: between the second read of the publish cursor in a reader's
    constructor and the producer's next look at the reader generation, the producer gates itself on a snapshot that
    need not hold the reader. While what it reserves there stays within the ring above the reader, the reader finds
    at most `size` slots when it is constructed, and none of them overwritten. -/

namespace GnuRadio.SingleProducerStrategy

open ReadSequences Function

variable {ρ : Type} {s t : State ρ} {size : Nat} {r : ρ}

/-! ### Positions -/

/-- The position a reader reads from, once its constructor has read it for the second time. -/
def Reader.position (value : Nat) : Reader ρ → Option Nat
  | .adding stage => stage.position
  | .notifyAdded | .cacheIndex | .attached | .removing _ => some value
  | .absent | .notifyRemoved | .destroyed => none

def State.position (s : State ρ) (r : ρ) : Option Nat :=
  (s.readers r).position (s.strategy.readSequences.value r)

/-- The slots that the producer holds. -/
def Producer.held : Producer ρ → Nat
  | .reserved n => n
  | _ => 0

/-- A reservation is granted only where it ends at most `size` slots above each reader whose start is fixed and that
    is not in the snapshot. -/
def SeesReaders (size : Nat) (s : State ρ) : Act ρ → Prop
  | .produce =>
    match s.producer with
    | .claim n _ minReader => n ≤ remainingCapacity size s.strategy.reserveCursor minReader →
      ∀ r, r ∈ s.strategy.snapshotReadSequences ∨ ∀ x ∈ s.position r, s.strategy.reserveCursor + n ≤ x + size
    | _ => True
  | _ => True

/-! ### The invariant -/

def Producer.Sound (size : Nat) (s : State ρ) : Producer ρ → Prop
  | .idle => True
  | .loadGeneration n _ | .loadSequences n _ _ => 0 < n ∧ n ≤ size
  | .readSequence n _ minimum r rest => (0 < n ∧ n ≤ size) ∧ ∀ q ∈ s.strategy.snapshotReadSequences,
      q ∈ r :: rest ∨ ∃ m, minimum = some m ∧ m ≤ s.strategy.readSequences.value q
  | .claim n _ minReader => (0 < n ∧ n ≤ size) ∧
      ∀ q ∈ s.strategy.snapshotReadSequences, minReader ≤ s.strategy.readSequences.value q
  | .reserved n => n ≤ size

def Reader.Sound (s : State ρ) (r : ρ) : Reader ρ → Prop
  | .adding stage => stage.Sound s.strategy.publishCursor s.strategy.readSequences r
  | .attached => s.readIndexCached r = s.strategy.readSequences.value r
  | .removing stage => stage.Sound s.strategy.readSequences
  | .absent | .notifyAdded | .cacheIndex | .notifyRemoved | .destroyed => True

/-- What holds in every state: the writer remembers where the stream ends, and the producer and the readers know what
    they have read. -/
structure Inv (size : Nat) (s : State ρ) : Prop where
  offset : s.strategy.publishCursor = s.offset
  reserve : s.strategy.reserveCursor = s.offset + s.producer.held
  value : ∀ r, s.strategy.readSequences.value r ≤ s.strategy.publishCursor
  producer : s.producer.Sound size s
  readers : ∀ r, (s.readers r).Sound s r

/-- No reader with a fixed start is more than `size` slots behind the reservations. -/
def Unread (size : Nat) (s : State ρ) : Prop :=
  ∀ r x, s.position r = some x → s.strategy.reserveCursor ≤ x + size

/-- How a step moves the cursor and the readers: forward, and a start that gets fixed is the publish cursor. -/
structure Advances (s t : State ρ) : Prop where
  value : ∀ r, s.strategy.readSequences.value r ≤ t.strategy.readSequences.value r
  position : ∀ r x, t.position r = some x →
    (∃ y, s.position r = some y ∧ y ≤ x) ∨ s.strategy.publishCursor ≤ x

theorem Advances.of_same (hr : t.readers = s.readers) (hv : t.strategy.readSequences = s.strategy.readSequences) :
    Advances s t where
  value r := by rw [hv]
  position r x hx := by
    refine .inl ⟨x, ?_, Nat.le_refl _⟩
    rw [← hx, State.position, State.position, hr, hv]

namespace Inv

theorem of_initial : Inv size (initial : State ρ) where
  offset := rfl
  reserve := rfl
  value _ := Nat.le_refl _
  producer := trivial
  readers _ := trivial

theorem held_le (h : Inv size s) : s.producer.held ≤ size := by
  have hp := h.producer
  cases hs : s.producer with
  | reserved n =>
    rw [hs] at hp
    exact hp
  | _ => exact Nat.zero_le _

/-- A reader whose start is fixed is at or above the value of its sequence. -/
theorem value_le (h : Inv size s) {x : Nat} (hx : s.position r = some x) :
    s.strategy.readSequences.value r ≤ x := by
  have hr := h.readers r
  rw [State.position] at hx
  cases hp : s.readers r with
  | adding stage =>
    rw [hp] at hx hr
    cases stage with
    | resetValue c =>
      cases hx
      exact hr.2.1
    | _ => cases hx
  | notifyAdded | cacheIndex | attached | removing stage =>
    rw [hp] at hx
    exact Nat.le_of_eq (Option.some.inj hx)
  | absent | notifyRemoved | destroyed =>
    rw [hp] at hx
    cases hx

/-! ### The producer -/

theorem getMinReaderCursor_sound {strategy : Strategy ρ} {n : Nat} {w : Bool} (hn : 0 < n ∧ n ≤ size) :
    (Producer.getMinReaderCursor strategy n w).Sound size { s with strategy := strategy } := by
  cases hl : strategy.snapshotReadSequences with
  | nil =>
    simp only [Producer.getMinReaderCursor, hl]
    refine ⟨hn, fun q hq => ?_⟩
    simp only [hl, List.not_mem_nil] at hq
  | cons r rest =>
    simp only [Producer.getMinReaderCursor, hl]
    refine ⟨hn, fun q hq => .inl ?_⟩
    simpa only [hl] using hq

theorem getMinReaderCursor_held {strategy : Strategy ρ} {n : Nat} {w : Bool} :
    (Producer.getMinReaderCursor strategy n w).held = 0 := by
  unfold Producer.getMinReaderCursor
  split <;> rfl

theorem getMinReaderCursor_offset {strategy strategy' : Strategy ρ} {n offset : Nat} {w : Bool} :
    (Producer.getMinReaderCursor strategy n w).offset strategy' offset = offset := by
  unfold Producer.getMinReaderCursor
  split <;> rfl

/-! ### The readers -/

theorem reader_kept {p : Reader ρ} (h : p.Sound s r) (k : Kept r s.strategy.readSequences t.strategy.readSequences)
    (hc : s.strategy.publishCursor ≤ t.strategy.publishCursor) (hi : t.readIndexCached r = s.readIndexCached r) :
    p.Sound t r := by
  cases p with
  | adding stage => exact AddSequences.Sound.kept h k hc
  | attached => exact hi.trans (h.trans k.value.symm)
  | removing stage => exact RemoveSequence.Sound.kept h k
  | absent | notifyAdded | cacheIndex | notifyRemoved | destroyed => trivial

theorem producer_sound {p : Producer ρ} (h : p.Sound size s)
    (hs : t.strategy.snapshotReadSequences = s.strategy.snapshotReadSequences)
    (hv : ∀ q, s.strategy.readSequences.value q ≤ t.strategy.readSequences.value q) : p.Sound size t := by
  cases p with
  | idle => trivial
  | loadGeneration n w | loadSequences n w generation | reserved n => exact h
  | readSequence n w minimum r rest =>
    refine ⟨h.1, fun q hq => (h.2 q (hs ▸ hq)).imp id ?_⟩
    exact fun ⟨m, hm, hle⟩ => ⟨m, hm, Nat.le_trans hle (hv q)⟩
  | claim n w minReader => exact ⟨h.1, fun q hq => Nat.le_trans (h.2 q (hs ▸ hq)) (hv q)⟩

/-- What a step of reader `r` leaves as it is, and what it does to its own sequence. -/
structure ReaderStep (s : State ρ) (r : ρ) (t : State ρ) : Prop where
  producer : t.producer = s.producer
  offset : t.offset = s.offset
  cursor : t.strategy.publishCursor = s.strategy.publishCursor
  reserve : t.strategy.reserveCursor = s.strategy.reserveCursor
  snapshot : t.strategy.snapshotReadSequences = s.strategy.snapshotReadSequences
  readers : ∀ q, q ≠ r → t.readers q = s.readers q
  cached : ∀ q, q ≠ r → t.readIndexCached q = s.readIndexCached q
  kept : ∀ q, q ≠ r → Kept q s.strategy.readSequences t.strategy.readSequences
  value : s.strategy.readSequences.value r ≤ t.strategy.readSequences.value r ∧
    t.strategy.readSequences.value r ≤ s.strategy.publishCursor
  position : ∀ x, t.position r = some x → (∃ y, s.position r = some y ∧ y ≤ x) ∨ s.strategy.publishCursor ≤ x
  sound : (t.readers r).Sound t r

theorem reader (h : Inv size s) (hs : ReaderStep s r t) : Advances s t ∧ Inv size t := by
  have hvalue : ∀ q, s.strategy.readSequences.value q ≤ t.strategy.readSequences.value q := fun q => by
    rcases eq_or_ne q r with rfl | hq
    · exact hs.value.1
    · exact Nat.le_of_eq (hs.kept q hq).value.symm
  refine ⟨⟨hvalue, fun q x hx => ?_⟩, ?_, ?_, fun q => ?_, ?_, fun q => ?_⟩
  · rcases eq_or_ne q r with rfl | hq
    · exact hs.position x hx
    · rw [State.position, hs.readers q hq, (hs.kept q hq).value] at hx
      exact .inl ⟨x, hx, Nat.le_refl _⟩
  · rw [hs.cursor, hs.offset]
    exact h.offset
  · rw [hs.reserve, hs.offset, hs.producer]
    exact h.reserve
  · rw [hs.cursor]
    rcases eq_or_ne q r with rfl | hq
    · exact hs.value.2
    · rw [(hs.kept q hq).value]
      exact h.value q
  · rw [hs.producer]
    exact producer_sound h.producer hs.snapshot hvalue
  · rcases eq_or_ne q r with rfl | hq
    · exact hs.sound
    · rw [hs.readers q hq]
      exact reader_kept (h.readers q) (hs.kept q hq) (Nat.le_of_eq hs.cursor.symm) (hs.cached q hq)

variable [DecidableEq ρ]

theorem produce (h : Inv size s) (hs : SingleProducerStrategy.step size s .produce = some t) : Inv size t := by
  obtain ⟨⟨strategy, p⟩, hp, rfl⟩ := Option.map_eq_some_iff.mp hs
  have hsound := h.producer
  have hreserve := h.reserve
  cases hpr : s.producer with
  | idle | reserved n =>
    rw [hpr] at hp
    cases hp
  | loadGeneration n w =>
    rw [hpr] at hp hsound hreserve
    simp only [Producer.step] at hp
    split at hp <;> cases hp
    · refine ⟨?_, ?_, h.value, getMinReaderCursor_sound (s := s) hsound, h.readers⟩
      · dsimp only
        rw [getMinReaderCursor_offset]
        exact h.offset
      · dsimp only
        rw [getMinReaderCursor_offset, getMinReaderCursor_held]
        exact hreserve
    · exact ⟨h.offset, hreserve, h.value, hsound, h.readers⟩
  | loadSequences n w generation =>
    rw [hpr] at hp hsound hreserve
    cases hp
    refine ⟨?_, ?_, h.value, getMinReaderCursor_sound (s := s) hsound, h.readers⟩
    · dsimp only
      rw [getMinReaderCursor_offset]
      exact h.offset
    · dsimp only
      rw [getMinReaderCursor_offset, getMinReaderCursor_held]
      exact hreserve
  | readSequence n w minimum r rest =>
    rw [hpr] at hp hsound hreserve
    obtain ⟨hn, hread⟩ := hsound
    obtain ⟨hv, hm⟩ := lower_le minimum (s.strategy.readSequences.value r)
    -- The minimum now covers `r` as well.
    have hnext : ∀ q ∈ s.strategy.snapshotReadSequences, q ∈ rest ∨
        lower minimum (s.strategy.readSequences.value r) ≤ s.strategy.readSequences.value q := by
      intro q hq
      rcases hread q hq with hq | ⟨m, rfl, hle⟩
      · rcases List.mem_cons.mp hq with rfl | hq
        · exact .inr hv
        · exact .inl hq
      · exact .inr (Nat.le_trans (hm m rfl) hle)
    simp only [Producer.step] at hp
    split at hp <;> cases hp
    · exact ⟨h.offset, hreserve, h.value, ⟨hn, fun q hq => (hnext q hq).resolve_left (by simp)⟩, h.readers⟩
    · refine ⟨h.offset, hreserve, h.value, ⟨hn, fun q hq => ?_⟩, h.readers⟩
      exact (hnext q hq).imp id fun hle => ⟨_, rfl, hle⟩
  | claim n w minReader =>
    rw [hpr] at hp hsound hreserve
    simp only [Producer.step] at hp
    split at hp <;> cases hp
    · cases w with
      | true => exact ⟨h.offset, hreserve, h.value, hsound.1, h.readers⟩
      | false => exact ⟨h.offset, hreserve, h.value, Nat.zero_le _, h.readers⟩
    · -- The span starts where the last one ended.
      have hoff : (Producer.reserved n : Producer ρ).offset
          { s.strategy with reserveCursor := s.strategy.reserveCursor + n } s.offset = s.offset := by
        simp only [Producer.offset]
        split
        · rfl
        · simp only [Producer.held] at hreserve
          omega
      refine ⟨h.offset.trans hoff.symm, ?_, h.value, hsound.1.2, h.readers⟩
      simp only [hoff, Producer.held] at hreserve ⊢
      omega

/-- The accesses of a constructor or destructor. -/
theorem construct (h : Inv size s) {spurious : Bool} (hs : (s.readers r).step s r spurious = some t) :
    ReaderStep s r t := by
  have hr := h.readers r
  have hv := h.value r
  generalize hp : s.readers r = p₀ at hs hr
  have hpos : s.position r = p₀.position (s.strategy.readSequences.value r) := by rw [← hp, State.position]
  have hne : ∀ {u : State ρ} {p : Reader ρ} q, q ≠ r → (u.setReader r p).readers q = u.readers q :=
    fun q hq => update_of_ne hq ..
  have hself : ∀ {u : State ρ} {p : Reader ρ}, (u.setReader r p).readers r = p := update_self ..
  cases p₀ with
  | absent | attached | destroyed => cases hs
  | adding stage =>
    simp only [Reader.step] at hs
    cases hs
    refine ⟨rfl, rfl, rfl, rfl, rfl, hne, fun _ _ => rfl, fun q hq => AddSequences.step_kept hr hq,
      AddSequences.step_value hr hv, fun x hx => ?_, ?_⟩
    · rw [State.position, hself] at hx
      cases ho : (stage.step s.strategy.publishCursor r spurious s.strategy.readSequences).2 with
      | none =>
        simp only [ho, Reader.position] at hx
        refine .inl ⟨x, ?_, Nat.le_refl _⟩
        rw [hpos, Reader.position, (AddSequences.step_done hr ho).1]
        exact hx
      | some stage' =>
        simp only [ho, Reader.position] at hx
        rcases (AddSequences.step_sound hr hv ho).2 with hn | hc
        · rw [hn] at hx
          cases hx
        · rw [hc] at hx
          exact .inr (Nat.le_of_eq (Option.some.inj hx))
    · rw [hself]
      cases ho : (stage.step s.strategy.publishCursor r spurious s.strategy.readSequences).2 with
      | none => trivial
      | some stage' => exact (AddSequences.step_sound hr hv ho).1
  | notifyAdded =>
    cases hs
    refine ⟨rfl, rfl, rfl, rfl, rfl, hne, fun _ _ => rfl, fun q _ => .refl q _, ⟨Nat.le_refl _, hv⟩, fun x hx => ?_, ?_⟩
    · rw [State.position, hself] at hx
      exact .inl ⟨x, hpos.trans hx, Nat.le_refl _⟩
    · rw [hself]
      trivial
  | cacheIndex =>
    cases hs
    refine ⟨rfl, rfl, rfl, rfl, rfl, hne, fun q hq => update_of_ne hq .., fun q _ => .refl q _,
      ⟨Nat.le_refl _, hv⟩, fun x hx => ?_, ?_⟩
    · rw [State.position, hself] at hx
      exact .inl ⟨x, hpos.trans hx, Nat.le_refl _⟩
    · rw [hself]
      exact update_self ..
  | removing stage =>
    simp only [Reader.step] at hs
    cases hs
    have hvalue : (stage.step r spurious s.strategy.readSequences).1.value = s.strategy.readSequences.value :=
      RemoveSequence.step_value
    refine ⟨rfl, rfl, rfl, rfl, rfl, hne, fun _ _ => rfl, fun q hq => RemoveSequence.step_kept hr hq, ?_,
      fun x hx => ?_, ?_⟩
    · exact ⟨Nat.le_of_eq (congrFun hvalue r).symm, Nat.le_trans (Nat.le_of_eq (congrFun hvalue r)) hv⟩
    · rw [State.position, hself] at hx
      cases ho : (stage.step r spurious s.strategy.readSequences).2 with
      | none =>
        simp only [ho, Reader.position] at hx
        cases hx
      | some stage' =>
        simp only [ho, Reader.position] at hx
        refine .inl ⟨x, hpos.trans ?_, Nat.le_refl _⟩
        rw [← hx, Reader.position]
        exact congrArg some (congrFun hvalue r).symm
    · rw [hself]
      cases ho : (stage.step r spurious s.strategy.readSequences).2 with
      | none => trivial
      | some stage' =>
        obtain ⟨h1, h2⟩ := RemoveSequence.step_sound ho
        simp only [Reader.Sound, State.setReader, h2]
        exact h1
  | notifyRemoved =>
    cases hs
    refine ⟨rfl, rfl, rfl, rfl, rfl, hne, fun _ _ => rfl, fun q _ => .refl q _, ⟨Nat.le_refl _, hv⟩, fun x hx => ?_, ?_⟩
    · rw [State.position, hself] at hx
      cases hx
    · rw [hself]
      trivial

theorem consume (h : Inv size s) {n : Nat} (hr : s.readers r = .attached)
    (hn : n ≤ s.strategy.publishCursor - s.readIndexCached r) :
    ReaderStep s r { s with
      readIndexCached := update s.readIndexCached r (s.readIndexCached r + n)
      strategy := { s.strategy with
        readSequences := s.strategy.readSequences.setValue r (s.readIndexCached r + n) } } := by
  have hcached : s.readIndexCached r = s.strategy.readSequences.value r := by
    have := h.readers r
    rwa [hr] at this
  have hv := h.value r
  refine ⟨rfl, rfl, rfl, rfl, rfl, fun _ _ => rfl, fun q hq => update_of_ne hq ..,
    fun q hq => kept_setValue hq, ?_, fun x hx => .inl ⟨s.strategy.readSequences.value r, ?_, ?_⟩, ?_⟩
  · rw [setValue_self]
    omega
  · rw [State.position, hr, Reader.position]
  · simp only [State.position, hr, Reader.position, setValue_self, Option.some.injEq] at hx
    omega
  · simp only [hr, Reader.Sound, setValue_self, update_self]

/-- Every step moves the readers forward and keeps the invariant. -/
theorem step (h : Inv size s) {a : Act ρ} (hs : SingleProducerStrategy.step size s a = some t) :
    Advances s t ∧ Inv size t := by
  cases a <;> simp only [SingleProducerStrategy.step] at hs
  case produce =>
    refine ⟨?_, h.produce hs⟩
    obtain ⟨⟨strategy, p⟩, hp, rfl⟩ := Option.map_eq_some_iff.mp hs
    refine .of_same rfl ?_
    cases hpr : s.producer with
    | idle | reserved n =>
      rw [hpr] at hp
      cases hp
    | loadSequences n w generation =>
      rw [hpr] at hp
      cases hp
      rfl
    | loadGeneration n w | readSequence n w minimum r rest | claim n w minReader =>
      rw [hpr] at hp
      simp only [Producer.step] at hp
      split at hp <;> cases hp <;> rfl
  case reserve n w =>
    split at hs
    case isFalse => cases hs
    case isTrue hn =>
      cases hs
      have hreserve := h.reserve
      rw [hn.1] at hreserve
      refine ⟨.of_same rfl rfl, h.offset, ?_, h.value, ?_, h.readers⟩
      · dsimp only
        split <;> exact hreserve
      · dsimp only
        split
        · exact Nat.zero_le _
        · exact ⟨by omega, hn.2⟩
  case publish k =>
    split at hs
    case h_2 => cases hs
    case h_1 n hn =>
      split at hs
      case isFalse => cases hs
      case isTrue hk =>
        cases hs
        have hc : s.strategy.publishCursor ≤ s.offset + k := h.offset ▸ Nat.le_add_right ..
        refine ⟨.of_same rfl rfl, rfl, rfl, fun r => Nat.le_trans (h.value r) hc, trivial, fun r => ?_⟩
        exact reader_kept (h.readers r) (.refl r _) hc rfl
  case attach r =>
    split at hs
    case isFalse => cases hs
    case isTrue hr =>
      cases hs
      refine h.reader (r := r) ⟨rfl, rfl, rfl, rfl, rfl, fun q hq => update_of_ne hq .., fun _ _ => rfl,
        fun q _ => .refl q _, ⟨Nat.le_refl _, h.value r⟩, fun x hx => ?_, ?_⟩
      · simp only [State.position, State.setReader, update_self] at hx
        cases hx
      · simp only [State.setReader, update_self]
        trivial
  case consume r n =>
    split at hs
    case isFalse => cases hs
    case isTrue hn =>
      cases hs
      exact h.reader (h.consume hn.1 hn.2)
  case detach r =>
    split at hs
    case isFalse => cases hs
    case isTrue hr =>
      cases hs
      refine h.reader (r := r) ⟨rfl, rfl, rfl, rfl, rfl, fun q hq => update_of_ne hq .., fun _ _ => rfl,
        fun q _ => .refl q _, ⟨Nat.le_refl _, h.value r⟩, fun x hx => .inl ⟨x, ?_, Nat.le_refl _⟩, ?_⟩
      · simp only [State.position, State.setReader, update_self] at hx
        rw [State.position, hr]
        exact hx
      · simp only [State.setReader, update_self]
        trivial
  case construct r spurious => exact h.reader (h.construct hs)

end Inv

/-! ### Runs -/

variable [DecidableEq ρ]

theorem reachable_inv {ok : State ρ → Act ρ → Prop} (h : (system size).Reach ok s) : Inv size s :=
  h.invariant (fun _ e => e ▸ Inv.of_initial) fun _ _ _ hi _ hs => (hi.step hs).2

/-- Only a grant raises the reserve cursor, and it was checked against the snapshot. -/
theorem reserveCursor_step (h : Inv size s) {a : Act ρ} (hs : step size s a = some t) :
    t.strategy.reserveCursor ≤ s.strategy.reserveCursor ∨
      ∃ n w m, a = .produce ∧ s.producer = .claim n w m ∧ n ≤ remainingCapacity size s.strategy.reserveCursor m ∧
        t.strategy.reserveCursor = s.strategy.reserveCursor + n ∧ t.readers = s.readers ∧
        t.strategy.readSequences = s.strategy.readSequences := by
  cases a with
  | produce =>
    obtain ⟨⟨strategy, p⟩, hp, rfl⟩ := Option.map_eq_some_iff.mp hs
    cases hpr : s.producer with
    | idle | reserved n =>
      rw [hpr] at hp
      cases hp
    | loadSequences n w generation =>
      rw [hpr] at hp
      cases hp
      exact .inl (Nat.le_refl _)
    | loadGeneration n w | readSequence n w minimum r rest =>
      rw [hpr] at hp
      simp only [Producer.step] at hp
      split at hp <;> cases hp <;> exact .inl (Nat.le_refl _)
    | claim n w m =>
      rw [hpr] at hp
      simp only [Producer.step] at hp
      split at hp
      case isTrue =>
        cases hp
        exact .inl (Nat.le_refl _)
      case isFalse hle =>
        cases hp
        exact .inr ⟨n, w, m, rfl, rfl, Nat.not_lt.mp hle, rfl, rfl, rfl⟩
  | publish k =>
    left
    have hreserve := h.reserve
    simp only [step] at hs
    split at hs
    case h_2 => cases hs
    case h_1 n hn =>
      split at hs
      case isFalse => cases hs
      case isTrue hk =>
        cases hs
        simp only [hn, Producer.held] at hreserve
        simp only [Strategy.publish]
        omega
  | construct r spurious => exact .inl (Nat.le_of_eq (h.construct hs).reserve)
  | reserve n w | attach r | consume r n | detach r =>
    simp only [step] at hs
    split at hs <;> cases hs
    exact .inl (Nat.le_refl _)

/-- The reserve cursor stays within the ring above every reader whose start is fixed. -/
theorem Unread.step (h : Unread size s) (hi : Inv size s) {a : Act ρ} (hok : SeesReaders size s a)
    (hs : SingleProducerStrategy.step size s a = some t) : Unread size t := by
  have adv := (hi.step hs).1
  rcases reserveCursor_step hi hs with hle | ⟨n, w, m, rfl, hp, hle, hr, hreaders, hvalues⟩
  · intro r x hx
    refine Nat.le_trans hle ?_
    rcases adv.position r x hx with ⟨y, hy, hyx⟩ | hx
    · exact Nat.le_trans (h r y hy) (Nat.add_le_add_right hyx size)
    · -- A start that gets fixed is the publish cursor, and the producer holds at most a ring.
      have h1 := hi.offset
      have h2 := hi.reserve
      have h3 := hi.held_le
      omega
  · intro r x hx
    have hpos : s.position r = some x := by
      rw [← hx, State.position, State.position, hreaders, hvalues]
    have hsound := hi.producer
    rw [hp] at hsound
    simp only [SeesReaders, hp] at hok
    rw [hr]
    rcases hok hle r with hmem | hmiss
    · have hm := hsound.2 r hmem
      have hv := hi.value_le hpos
      have hcap := remainingCapacity_le hsound.1.1 hle
      omega
    · exact hmiss x hpos

theorem reachable_unread (h : (system size).Reach (SeesReaders size) s) : Unread size s := by
  induction h with
  | start hs =>
    cases hs
    exact fun _ _ _ => Nat.zero_le _
  | step hr hok hs ih => exact ih.step (reachable_inv hr) hok hs

/-- In every run in which no reservation is granted past a reader that the snapshot misses, a constructed reader has
    at most `size` slots to read, and none of them is reserved again. -/
theorem available_le_size (h : (system size).Reach (SeesReaders size) s) (hr : s.readers r = .attached) :
    s.readIndexCached r ≤ s.strategy.publishCursor ∧
      s.strategy.publishCursor - s.readIndexCached r ≤ size ∧
      s.strategy.reserveCursor ≤ s.readIndexCached r + size := by
  have inv := reachable_inv h
  have hcached := inv.readers r
  rw [hr] at hcached
  have hcached : s.readIndexCached r = s.strategy.readSequences.value r := hcached
  have hpos : s.position r = some (s.strategy.readSequences.value r) := by rw [State.position, hr, Reader.position]
  have hunread := reachable_unread h r _ hpos
  have hvalue := inv.value r
  have hoffset := inv.offset
  have hreserve := inv.reserve
  omega

instance [Fintype ρ] (s : State ρ) (a : Act ρ) : Decidable (SeesReaders size s a) := by
  unfold SeesReaders
  split
  · split <;> infer_instance
  · infer_instance

/-- A reader attaches to a ring of one slot, and the slot is published. -/
def attachFirst : List (Act Unit) :=
  .attach () :: List.replicate 8 (.construct () false) ++
    [.reserve 1 false, .produce, .produce, .produce, .produce, .publish 1]

theorem available_le_size_one : ∃ s, (system 1).run initial attachFirst = some s ∧
    s.readIndexCached () ≤ s.strategy.publishCursor ∧
      s.strategy.publishCursor - s.readIndexCached () ≤ 1 ∧
      s.strategy.reserveCursor ≤ s.readIndexCached () + 1 :=
  ⟨_, (Option.some_get (by decide)).symm, available_le_size
    ((system 1).reach_get attachFirst rfl (by decide) (by decide)) (by decide)⟩

/-- A producer that ran before the reader attaches publishes two more slots between the reader's second read of the
    cursor and its bump of the generation. -/
def attachLate : List (Act Unit) :=
  [.reserve 1 false, .produce, .produce, .produce, .publish 1] ++
  .attach () :: List.replicate 5 (.construct () false) ++
  [.reserve 1 false, .produce, .produce, .publish 1, .reserve 1 false, .produce, .produce, .publish 1] ++
  List.replicate 3 (.construct () false)

/-- The reader is constructed two slots behind in a ring of one. -/
theorem available_exceeds_size : ¬ ∀ (size : Nat) (s : State Unit), (system size).Reachable s →
    ∀ r, s.readers r = .attached → s.strategy.publishCursor - s.readIndexCached r ≤ size := fun h =>
  absurd (h 1 _ ((system 1).reachable_get attachLate rfl (by decide)) () (by decide)) (by decide)

end GnuRadio.SingleProducerStrategy

/-! `SingleProducerStrategy.tryNext` as a whole operation: it grants a claim exactly when the claim ends at most
    `size` slots above every reader. -/

namespace GnuRadio.SingleProducerStrategy.Strategy

variable {ρ : Type} {s : Strategy ρ} {size n : Nat}

/-- A snapshot of the current generation is the current list. -/
structure Snapshot (s : Strategy ρ) : Prop where
  generation : ∀ g, s.snapshotGeneration = some g → g ≤ s.readerGeneration
  sequences : s.snapshotGeneration = some s.readerGeneration →
    s.snapshotReadSequences = s.readSequences.list.sequences

/-- The strategy once the snapshot is taken again. -/
def refreshed (s : Strategy ρ) : Strategy ρ :=
  { s with
    snapshotReadSequences := s.readSequences.list.sequences
    snapshotGeneration := some s.readerGeneration }

theorem refreshReaderSnapshot_eq (h : s.Snapshot) : s.refreshReaderSnapshot = s.refreshed := by
  rw [refreshReaderSnapshot]
  split
  case isTrue hg =>
    rw [refreshed, ← h.sequences hg, ← hg]
  case isFalse => rfl

theorem snapshot_refreshed : s.refreshed.Snapshot where
  generation _ hg := Nat.le_of_eq (Option.some.inj hg).symm
  sequences _ := rfl

theorem foldl_lower_le {value : ρ → Nat} : ∀ (rest : List ρ) (m v : Nat),
    v ≤ rest.foldl (fun m r => lower (some m) (value r)) m ↔ v ≤ m ∧ ∀ r ∈ rest, v ≤ value r
  | [], m, v => by simp
  | r :: rest, m, v => by
    rw [List.foldl_cons, foldl_lower_le rest, List.forall_mem_cons, ← and_assoc]
    refine and_congr_left fun _ => ?_
    rw [lower]
    split <;> omega

/-- What is below the minimum: what is below every reader, or below the reserve cursor where there is none. -/
theorem le_getMinReaderCursor {v : Nat} : v ≤ s.getMinReaderCursor ↔
    (s.snapshotReadSequences = [] → v ≤ s.reserveCursor) ∧
      ∀ r ∈ s.snapshotReadSequences, v ≤ s.readSequences.value r := by
  rw [getMinReaderCursor]
  cases hs : s.snapshotReadSequences with
  | nil => simp
  | cons r rest =>
    rw [foldl_lower_le, List.forall_mem_cons, lower]
    exact ⟨fun h => ⟨fun e => (by cases e), h⟩, fun h => h.2⟩

/-- A claim fits exactly when it ends within the ring above every reader. -/
theorem le_getRemainingCapacity (hn : 0 < n)
    (hv : ∀ r ∈ s.snapshotReadSequences, s.readSequences.value r ≤ s.reserveCursor) :
    n ≤ s.getRemainingCapacity size ↔
      n ≤ size ∧ ∀ r ∈ s.snapshotReadSequences, s.reserveCursor + n ≤ s.readSequences.value r + size := by
  have hmin : s.getMinReaderCursor ≤ s.reserveCursor := by
    rcases Nat.lt_or_ge s.reserveCursor s.getMinReaderCursor with hlt | hle
    · obtain ⟨h1, h2⟩ := le_getMinReaderCursor.mp hlt
      cases hs : s.snapshotReadSequences with
      | nil => exact absurd (h1 hs) (by omega)
      | cons r rest =>
        have hr : r ∈ s.snapshotReadSequences := hs ▸ (.head _)
        have := h2 r hr
        have := hv r hr
        omega
    · exact hle
  have hcap : n ≤ s.getRemainingCapacity size ↔ s.reserveCursor + n ≤ s.getMinReaderCursor + size := by
    rw [getRemainingCapacity, remainingCapacity]
    split <;> omega
  rw [hcap]
  constructor
  · intro h
    have hlow : s.reserveCursor + n - size ≤ s.getMinReaderCursor := by omega
    refine ⟨by omega, fun r hr => ?_⟩
    have := (le_getMinReaderCursor.mp hlow).2 r hr
    omega
  · rintro ⟨h1, h2⟩
    have hlow : s.reserveCursor + n - size ≤ s.getMinReaderCursor := by
      refine le_getMinReaderCursor.mpr ⟨fun _ => by omega, fun r hr => ?_⟩
      have := h2 r hr
      omega
    omega

/-- `tryNext` takes the snapshot again if it has to, and claims if the claim fits. -/
theorem tryNext_granted (h : s.Snapshot) (hn : 0 < n)
    (hv : ∀ r ∈ s.readSequences.list.sequences, s.readSequences.value r ≤ s.reserveCursor) (hle : n ≤ size)
    (hr : ∀ r ∈ s.readSequences.list.sequences, s.reserveCursor + n ≤ s.readSequences.value r + size) :
    s.tryNext size n = ({ s.refreshed with reserveCursor := s.reserveCursor + n }, some (s.reserveCursor + n)) := by
  have hcap := (le_getRemainingCapacity (s := s.refreshed) hn hv).mpr ⟨hle, hr⟩
  rw [tryNext, refreshReaderSnapshot_eq h]
  dsimp only
  rw [if_neg (Nat.not_lt.mpr hcap)]
  rfl

theorem tryNext_refused (h : s.Snapshot) (hn : 0 < n)
    (hv : ∀ r ∈ s.readSequences.list.sequences, s.readSequences.value r ≤ s.reserveCursor)
    (hr : ¬ (n ≤ size ∧ ∀ r ∈ s.readSequences.list.sequences, s.reserveCursor + n ≤ s.readSequences.value r + size)) :
    s.tryNext size n = (s.refreshed, none) := by
  have hcap := mt (le_getRemainingCapacity (s := s.refreshed) hn hv).mp hr
  rw [tryNext, refreshReaderSnapshot_eq h]
  rw [if_pos (Nat.not_le.mp hcap)]

end GnuRadio.SingleProducerStrategy.Strategy
