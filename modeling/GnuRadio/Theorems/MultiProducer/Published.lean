import GnuRadio.Library.Publication
import GnuRadio.Theorems.MultiProducer.Gating
import Mathlib.Data.Fintype.Basic

/-! `MultiProducerStrategy` publishes what it claimed, as long as a claim never reaches around the ring into the
    slots of another one. A minimum over at least one reader keeps it from that; a refresh that finds no reader
    returns the reserve cursor, and then nothing does. -/

namespace GnuRadio.MultiProducerStrategy

variable {ι ρ : Type}

/-- The part of a producer that concerns its claim. -/
def Producer.phase : Producer ρ → Publication.Phase
  | .claimed offset n => .marking offset (offset + n)
  | .storeSlot offset n seq => .marking seq (offset + n)
  | .loadPublishCursor => .load
  | .scan current next => .scan current next
  | .publishCompareAndSet current next => .advance current next
  | .idle | .loadReserveCursor .. | .loadCached .. | .refresh .. | .compareAndSet .. | .capacityRefresh _
  | .capacityLoad _ | .capacity _ => .idle

/-- The ring of marks behind the strategy. -/
def State.ring (s : State ι ρ) : Publication.Ring ι where
  slot := s.strategy.availableBuffer
  reserved := s.strategy.reserveCursor
  published := s.strategy.publishCursor
  phase i := (s.producers i).phase

/-- A claim is outstanding from its compare-exchange until its `publish` returns. -/
def Producer.outstanding : Producer ρ → Bool
  | .claimed .. | .storeSlot .. | .loadPublishCursor | .scan .. | .publishCompareAndSet .. => true
  | _ => false

/-- The step does not grant a claim, checked against a minimum over no reader, that ends more than `size` slots above
    the publish cursor. -/
def GrantsWithin (size : Nat) (s : State ι ρ) : Act ι ρ → Prop
  | .produce i =>
    match s.producers i with
    | .compareAndSet n _ current (.fresh m) =>
      s.strategy.reserveCursor = current → m.readSequences = [] → current + n ≤ s.strategy.publishCursor + size
    | _ => True
  | _ => True

instance [DecidableEq ρ] (size : Nat) (s : State ι ρ) (a : Act ι ρ) : Decidable (GrantsWithin size s a) := by
  unfold GrantsWithin
  split
  · split <;> infer_instance
  · infer_instance

variable {size : Nat} {s t : State ι ρ} {i : ι}

/-- A checked claim ends at most `size` slots above the publish cursor, be its bound cached or fresh. -/
theorem claim_le (h : Gated size s) {n current : Nat} {w : Bool} {bound : Bound ρ}
    (hp : s.producers i = .compareAndSet n w current bound) (hr : s.strategy.reserveCursor = current)
    (hok : GrantsWithin size s (.produce i)) : current + n ≤ s.strategy.publishCursor + size := by
  have hsound := h.producers i
  rw [hp] at hsound
  obtain ⟨-, hb, hx⟩ := hsound
  simp only [exceeds, not_or, Nat.not_lt] at hx
  cases bound with
  | cached v => exact Nat.le_trans hx.2 (Nat.add_le_add_right hb.1 size)
  | fresh m =>
    simp only [GrantsWithin, hp] at hok
    cases hm : m.readSequences with
    | nil => exact hok hr hm
    | cons r rs =>
      have hread := hb.read r (hm ▸ (.head _))
      exact Nat.le_trans hx.2 (Nat.add_le_add_right (Nat.le_trans hread (h.value r)) size)

variable {strategy : Strategy ρ}

/-- A refresh touches neither the marks nor the cursors. -/
theorem refresh_keeps {stage : Refresh ρ} {o : Refresh ρ ⊕ Minimum ρ}
    (hs : stage.step s.strategy = (strategy, o)) :
    strategy.availableBuffer = s.strategy.availableBuffer ∧ strategy.reserveCursor = s.strategy.reserveCursor ∧
      strategy.publishCursor = s.strategy.publishCursor := by
  obtain rfl : (stage.step s.strategy).1 = strategy := congrArg Prod.fst hs
  cases stage with
  | loadSequences p | readSequence p rs minimum r rest =>
    simp only [Refresh.step]
    split <;> exact ⟨rfl, rfl, rfl⟩
  | _ => exact ⟨rfl, rfl, rfl⟩

variable [DecidableEq ι] {p : Producer ρ}

theorem ring_setProducer :
    ({ s with strategy := strategy }.setProducer i p).ring = Publication.Ring.become
      { slot := strategy.availableBuffer, reserved := strategy.reserveCursor, published := strategy.publishCursor,
        phase := s.ring.phase } i p.phase := by
  simp only [State.ring, State.setProducer, Publication.Ring.become]
  congr 1
  exact Function.comp_update Producer.phase s.producers i p

/-- A step that keeps the cursors, the marks and the phase is none of the ring. -/
theorem ring_same (ha : strategy.availableBuffer = s.strategy.availableBuffer)
    (hr : strategy.reserveCursor = s.strategy.reserveCursor) (hc : strategy.publishCursor = s.strategy.publishCursor)
    (hp : p.phase = (s.producers i).phase) : ({ s with strategy := strategy }.setProducer i p).ring = s.ring := by
  rw [ring_setProducer, ha, hr, hc, hp]
  simp only [State.ring, Publication.Ring.become, Function.update_eq_self]

/-- An access of a producer is a step of the ring, or none. -/
theorem produce_simulates (h : Gated size s) (hok : GrantsWithin size s (.produce i))
    (hs : (s.producers i).step size s.strategy = some (strategy, p)) :
    ({ s with strategy := strategy }.setProducer i p).ring = s.ring ∨
      Publication.Step size s.ring ({ s with strategy := strategy }.setProducer i p).ring := by
  have hphase : s.ring.phase i = (s.producers i).phase := rfl
  have hsound := h.producers i
  cases hp : s.producers i with
  | idle | claimed offset n =>
    rw [hp] at hs
    cases hs
  | loadReserveCursor n w | capacityLoad minReader | capacity nFree =>
    rw [hp] at hs
    cases hs
    exact .inl (ring_same rfl rfl rfl (by rw [hp]; rfl))
  | loadCached n w current =>
    rw [hp] at hs
    simp only [Producer.step] at hs
    split at hs <;> cases hs <;> exact .inl (ring_same rfl rfl rfl (by rw [hp]; rfl))
  | refresh n w current stage =>
    rw [hp] at hs
    simp only [Producer.step] at hs
    split at hs
    case h_1 hst =>
      cases hs
      obtain ⟨h1, h2, h3⟩ := refresh_keeps hst
      exact .inl (ring_same h1 h2 h3 (by rw [hp]; rfl))
    case h_2 hst =>
      obtain ⟨h1, h2, h3⟩ := refresh_keeps hst
      split at hs <;> cases hs
      · refine .inl (ring_same h1 h2 h3 ?_)
        rw [hp]
        split <;> rfl
      · exact .inl (ring_same h1 h2 h3 (by rw [hp]; rfl))
  | capacityRefresh stage =>
    rw [hp] at hs
    simp only [Producer.step] at hs
    split at hs
    case h_1 hst | h_2 hst =>
      cases hs
      obtain ⟨h1, h2, h3⟩ := refresh_keeps hst
      exact .inl (ring_same h1 h2 h3 (by rw [hp]; rfl))
  | compareAndSet n w current bound =>
    rw [hp] at hs hsound hphase
    simp only [Producer.step] at hs
    split at hs
    case isTrue hr =>
      have hle := claim_le h hp hr hok
      cases hs
      subst hr
      rw [ring_setProducer]
      exact .inr (.claim hphase hsound.1 hle)
    case isFalse =>
      cases hs
      exact .inl (ring_same rfl rfl rfl (by rw [hp]; rfl))
  | storeSlot offset n seq =>
    rw [hp] at hs hphase
    cases hs
    rw [ring_setProducer, calculateIndex_eq_mod, apply_ite Producer.phase]
    exact .inr (.mark hphase)
  | loadPublishCursor =>
    rw [hp] at hs hphase
    cases hs
    rw [ring_setProducer]
    exact .inr (.load hphase)
  | scan current next =>
    rw [hp] at hs hphase
    simp only [Producer.step, calculateIndex_eq_mod] at hs
    split at hs
    case isTrue hx =>
      cases hs
      rw [ring_setProducer]
      exact .inr (.pass hphase hx.1 hx.2)
    case isFalse hx =>
      cases hs
      rw [ring_setProducer, apply_ite Producer.phase]
      exact .inr (.stop hphase hx)
  | publishCompareAndSet current next =>
    rw [hp] at hs hphase
    simp only [Producer.step] at hs
    split at hs
    case isTrue hc =>
      cases hs
      rw [ring_setProducer]
      exact .inr (.advance hphase hc)
    case isFalse hc =>
      cases hs
      rw [ring_setProducer]
      exact .inr (.retry hphase hc)

/-- Every step within the bound is a step of the ring of marks, or leaves it as it is. -/
theorem step_simulates [DecidableEq ρ] (h : Gated size s) (inv : Publication.Inv size s.ring) {a : Act ι ρ}
    (hok : GrantsWithin size s a) (hs : MultiProducerStrategy.step size s a = some t) :
    t.ring = s.ring ∨ Publication.Step size s.ring t.ring := by
  cases a <;> simp only [MultiProducerStrategy.step] at hs
  case next i n | tryNext i n =>
    split at hs
    case isTrue hn =>
      cases hs
      exact .inl (ring_same (s := s) rfl rfl rfl (by rw [hn.1]; rfl))
    case isFalse => cases hs
  case getRemainingCapacity i =>
    split at hs
    case isTrue hi =>
      cases hs
      exact .inl (ring_same (s := s) rfl rfl rfl (by rw [hi]; rfl))
    case isFalse => cases hs
  case publish i =>
    split at hs
    case h_1 offset n hi =>
      cases hs
      -- A claim is never empty, so `publish` does not return at once.
      have hpos := (inv.held i offset (offset + n) (by simp only [State.ring, hi, Producer.phase])).2.1
      refine .inl (ring_same (s := s) rfl rfl rfl ?_)
      rw [hi, Producer.publish, if_neg (by omega)]
      rfl
    case h_2 => cases hs
  case produce i =>
    obtain ⟨⟨strategy, p⟩, hp, rfl⟩ := Option.map_eq_some_iff.mp hs
    exact produce_simulates h hok hp
  case attach r | detach r | consume r n =>
    split at hs <;> cases hs
    exact .inl rfl
  case construct r spurious =>
    obtain ⟨⟨strategy, p⟩, hp, rfl⟩ := Option.map_eq_some_iff.mp hs
    left
    cases hr : s.readers r with
    | absent | attached | destroyed =>
      rw [hr] at hp
      cases hp
    | adding stage | removing stage =>
      rw [hr] at hp
      simp only [Reader.step] at hp
      split at hp <;> cases hp <;> rfl
    | notifyAdded stage | notifyRemoved stage =>
      rw [hr] at hp
      simp only [Reader.step] at hp
      split at hp
      all_goals
        cases hp
        obtain ⟨h1, h2, h3⟩ := refresh_keeps (by assumption)
        simp only [State.ring, State.setReader, h1, h2, h3]

/-- The marks and claims of every run within the bound are those of a ring of marks. -/
theorem reachable_inv [DecidableEq ρ] {ok : State ι ρ → Act ι ρ → Prop} (h : (system size).Reach ok s)
    (hok : ∀ s a, Gated size s → ok s a → GrantsWithin size s a) : Publication.Inv size s.ring := by
  induction h with
  | start hs =>
    cases hs
    exact .of_start (fun _ => rfl) rfl rfl fun _ => rfl
  | step hr ha hs ih =>
    have hg := reachable_gated hr
    rcases step_simulates hg ih (hok _ _ hg ha) hs with he | hstep
    · rwa [he]
    · exact ih.step hstep

theorem phase_idle (h : p.outstanding = false) : p.phase = .idle := by
  cases p <;> first | rfl | cases h

/-- Once every claim's `publish` has returned, the publish cursor is the reserve cursor: in every run in which each
    claim granted on a minimum over no reader ends at most `size` slots above the publish cursor. -/
theorem publishCursor_eq_reserveCursor [DecidableEq ρ] (h : (system size).Reach (GrantsWithin size) s)
    (hc : ∀ i, (s.producers i).outstanding = false) : s.strategy.publishCursor = s.strategy.reserveCursor :=
  (reachable_inv h fun _ _ _ ha => ha).published_eq fun i => phase_idle (hc i)

/-- A producer claims and publishes one slot. -/
def claimOnce : List (Act Bool Bool) :=
  [.tryNext false 1, .produce false, .produce false, .produce false,
    .publish false, .produce false, .produce false, .produce false, .produce false, .produce false]

theorem publishCursor_eq_reserveCursor_one :
    ∃ s, (system 2).run initial claimOnce = some s ∧ s.strategy.publishCursor = s.strategy.reserveCursor :=
  ⟨_, (Option.some_get (by decide)).symm, publishCursor_eq_reserveCursor
    ((system 2).reach_get claimOnce rfl (by decide) (by decide)) (by decide)⟩

/-- Without a reader, a second claim takes the slot of a first one that is still outstanding, and is published first:
    its mark is there when the first claim's slot is looked for, and gone when it is looked for itself. -/
def claimTwice : List (Act Bool Bool) :=
  [.tryNext false 1, .produce false, .produce false, .produce false,
    .tryNext true 1, .produce true, .produce true, .produce true, .produce true, .produce true, .produce true,
    .produce true,
    .publish true, .produce true, .produce true, .produce true,
    .publish false, .produce false, .produce false, .produce false, .produce false, .produce false]

theorem publishCursor_stalls : ¬ ∀ (size : Nat) (s : State Bool Bool), (system size).Reachable s →
    (∀ i, (s.producers i).outstanding = false) → s.strategy.publishCursor = s.strategy.reserveCursor := fun h =>
  absurd (h 1 _ ((system 1).reachable_get claimTwice rfl (by decide)) (by decide)) (by decide)

end GnuRadio.MultiProducerStrategy

/-! `MultiProducerStrategy` claims no slot that a reader has still to read, as long as a claim that is granted on a
    fresh minimum leaves no reader out of it. The cached minimum is safe in every run (`reachable_gated`); the
    minimum that `refreshMinReaderCursor` returns knows nothing of a reader that attached after it loaded the list. -/

namespace GnuRadio.MultiProducerStrategy

variable {ι ρ : Type} {size : Nat} {s t : State ι ρ} {i : ι} {r : ρ}

/-- The claim that a producer holds: its first position and its length. -/
def Producer.claim : Producer ρ → Option (Nat × Nat)
  | .claimed offset n | .storeSlot offset n _ => some (offset, n)
  | _ => none

/-- A reader whose constructor has returned and that is still in the list. -/
def Reader.constructed : Reader ρ → Bool
  | .attached | .removing _ => true
  | _ => false

/-- While producers run, some reader is attached. -/
def Attended (s : State ι ρ) : Act ι ρ → Prop
  | .produce _ => ∃ r, s.readers r = .attached
  | _ => True

/-- A claim granted on a fresh minimum ends at most `size` slots above the publish cursor that the refresh read first,
    or the minimum was taken over every reader whose start is fixed by now. -/
def Covered (size : Nat) (s : State ι ρ) : Act ι ρ → Prop
  | .produce i =>
    match s.producers i with
    | .compareAndSet n _ current (.fresh m) => s.strategy.reserveCursor = current →
      current + n ≤ m.publishCursor + size ∨ ∀ r, (s.position r).isSome → r ∈ m.readSequences
    | _ => True
  | _ => True

/-- With a reader attached, a covered claim does not reach around the ring. -/
theorem grantsWithin_of_covered {a : Act ι ρ} (h : Gated size s) (ha : Attended s a) (hc : Covered size s a) :
    GrantsWithin size s a := by
  unfold GrantsWithin
  split
  case h_2 => trivial
  case h_1 i =>
    split
    case h_2 => trivial
    case h_1 n w current m hp =>
      intro hr hm
      simp only [Covered, hp] at hc
      have hsound := h.producers i
      rw [hp] at hsound
      rcases hc hr with hle | hall
      · -- The refresh read a publish cursor that was no higher than it is now.
        have hgates := hsound.2.1.gates.1
        have hx := hsound.2.2
        simp only [exceeds, Bound.value, not_or, Nat.not_lt] at hx
        omega
      · obtain ⟨r, hatt⟩ := ha
        have hmem := hall r (by rw [State.position, hatt]; rfl)
        rw [hm] at hmem
        cases hmem

/-- No reader with a fixed start is more than `size` slots behind the claims. -/
def Unread (size : Nat) (s : State ι ρ) : Prop :=
  ∀ r x, s.position r = some x → s.strategy.reserveCursor ≤ x + size

/-- Where no claim is made, a reader moves forward, or starts at a publish cursor that the claims cannot outrun. -/
theorem Unread.advances (h : Unread size s) (inv : Publication.Inv size s.ring) (a : Advances s t)
    (hr : t.strategy.reserveCursor = s.strategy.reserveCursor) : Unread size t := fun r x hx => by
  rw [hr]
  rcases a.position r x hx with ⟨y, hy, hyx⟩ | hx
  · exact Nat.le_trans (h r y hy) (Nat.add_le_add_right hyx size)
  · exact Nat.le_trans inv.cap (Nat.add_le_add_right hx size)

/-- A checked claim ends at most `size` slots above every reader. -/
theorem grant_unread (h : Gated size s) {n current : Nat} {w : Bool} {bound : Bound ρ}
    (hp : s.producers i = .compareAndSet n w current bound) (hr : s.strategy.reserveCursor = current)
    (hc : Covered size s (.produce i)) {x : Nat} (hx : s.position r = some x) : current + n ≤ x + size := by
  have hsound := h.producers i
  rw [hp] at hsound
  obtain ⟨-, hb, hle⟩ := hsound
  simp only [exceeds, not_or, Nat.not_lt] at hle
  cases bound with
  | cached v => exact Nat.le_trans hle.2 (Nat.add_le_add_right (hb.2 r x hx) size)
  | fresh m =>
    simp only [Covered, hp] at hc
    have hgates := hb.gates.2 r x hx
    rcases hc hr with hcur | hall
    · -- The reader is above the minimum or above the publish cursor, and the claim is checked against both.
      rcases Nat.le_total m.minReader m.publishCursor with hm | hm
      · rw [Nat.min_eq_left hm] at hgates
        exact Nat.le_trans hle.2 (Nat.add_le_add_right hgates size)
      · rw [Nat.min_eq_right hm] at hgates
        exact Nat.le_trans hcur (Nat.add_le_add_right hgates size)
    · have hread := hb.read r (hall r (by rw [hx]; rfl))
      exact Nat.le_trans hle.2 (Nat.add_le_add_right (Nat.le_trans hread (h.position hx).2) size)

section

variable [DecidableEq ι] [DecidableEq ρ]

/-- Only a granted claim moves the reserve cursor. -/
theorem reserveCursor_step {a : Act ι ρ} (hs : MultiProducerStrategy.step size s a = some t) :
    t.strategy.reserveCursor = s.strategy.reserveCursor ∨
      ∃ i n w current bound, a = .produce i ∧ s.producers i = .compareAndSet n w current bound ∧
        s.strategy.reserveCursor = current ∧ t.strategy.reserveCursor = current + n := by
  cases a with
  | next i n | tryNext i n | getRemainingCapacity i | attach r | consume r n | detach r | publish i =>
    simp only [MultiProducerStrategy.step] at hs
    split at hs <;> cases hs
    exact .inl rfl
  | construct r spurious =>
    obtain ⟨⟨strategy, p⟩, hp, rfl⟩ := Option.map_eq_some_iff.mp hs
    left
    cases hr : s.readers r with
    | absent | attached | destroyed =>
      rw [hr] at hp
      cases hp
    | adding stage | removing stage =>
      rw [hr] at hp
      simp only [Reader.step] at hp
      split at hp <;> cases hp <;> rfl
    | notifyAdded stage | notifyRemoved stage =>
      rw [hr] at hp
      simp only [Reader.step] at hp
      split at hp
      all_goals
        cases hp
        exact (refresh_keeps (s := s) (by assumption)).2.1
  | produce i =>
    obtain ⟨⟨strategy, p⟩, hp, rfl⟩ := Option.map_eq_some_iff.mp hs
    cases hi : s.producers i with
    | idle | claimed offset n =>
      rw [hi] at hp
      cases hp
    | compareAndSet n w current bound =>
      rw [hi] at hp
      simp only [Producer.step] at hp
      split at hp
      case isTrue hr =>
        cases hp
        exact .inr ⟨i, n, w, current, bound, rfl, hi, hr, rfl⟩
      case isFalse =>
        cases hp
        exact .inl rfl
    | refresh n w current stage =>
      rw [hi] at hp
      left
      simp only [Producer.step] at hp
      split at hp
      case h_1 hst =>
        cases hp
        exact (refresh_keeps (s := s) hst).2.1
      case h_2 hst =>
        split at hp
        all_goals
          cases hp
          exact (refresh_keeps (s := s) hst).2.1
    | capacityRefresh stage =>
      rw [hi] at hp
      left
      simp only [Producer.step] at hp
      split at hp
      all_goals
        cases hp
        exact (refresh_keeps (s := s) (by assumption)).2.1
    | loadReserveCursor n w | storeSlot offset n seq | loadPublishCursor | capacityLoad minReader | capacity nFree =>
      rw [hi] at hp
      cases hp
      exact .inl rfl
    | loadCached n w current | scan current next | publishCompareAndSet current next =>
      rw [hi] at hp
      simp only [Producer.step] at hp
      split at hp <;> cases hp <;> exact .inl rfl

theorem Unread.step (h : Unread size s) (hg : Gated size s) (inv : Publication.Inv size s.ring) {a : Act ι ρ}
    (hw : GrantsWithin size s a) (hc : Covered size s a) (hs : MultiProducerStrategy.step size s a = some t) :
    Unread size t := by
  have adv := (hg.step hs).1
  rcases reserveCursor_step hs with hr | ⟨i, n, w, current, bound, rfl, hp, hr, ht⟩
  · exact h.advances inv adv hr
  · intro r x hx
    rw [ht]
    rcases adv.position r x hx with ⟨y, hy, hyx⟩ | hpub
    · exact Nat.le_trans (grant_unread hg hp hr hc hy) (Nat.add_le_add_right hyx size)
    · exact Nat.le_trans (claim_le hg hp hr hw) (Nat.add_le_add_right hpub size)

theorem reachable_unread (h : (system size).Reach (fun s a => Attended s a ∧ Covered size s a) s) :
    Unread size s := by
  induction h with
  | start hs =>
    cases hs
    exact fun _ _ _ => Nat.zero_le _
  | step hr ha hs ih =>
    have hg := reachable_gated hr
    have inv := reachable_inv hr fun _ _ hg ha => grantsWithin_of_covered hg ha.1 ha.2
    exact ih.step hg inv (grantsWithin_of_covered hg ha.1 ha.2) ha.2 hs

/-- In every run with a reader attached while producers run, in which each claim granted on a fresh minimum is
    covered, a claim ends at most `size` slots above every constructed reader. -/
theorem claim_unread (h : (system size).Reach (fun s a => Attended s a ∧ Covered size s a) s) {offset n : Nat}
    (hi : (s.producers i).claim = some (offset, n)) (hr : (s.readers r).constructed = true) :
    offset + n ≤ s.strategy.readSequences.value r + size := by
  have inv := reachable_inv h fun _ _ hg ha => grantsWithin_of_covered hg ha.1 ha.2
  have hclaim : offset + n ≤ s.strategy.reserveCursor := by
    cases hp : s.producers i with
    | claimed offset' n' =>
      rw [hp] at hi
      cases hi
      exact (inv.held i offset (offset + n) (by simp only [State.ring, hp, Producer.phase])).2.2
    | storeSlot offset' n' seq =>
      rw [hp] at hi
      cases hi
      exact (inv.held i seq (offset + n) (by simp only [State.ring, hp, Producer.phase])).2.2
    | _ =>
      rw [hp] at hi
      cases hi
  have hpos : s.position r = some (s.strategy.readSequences.value r) := by
    rw [State.position]
    cases hp : s.readers r with
    | attached | removing stage => rfl
    | _ =>
      rw [hp] at hr
      cases hr
  exact Nat.le_trans hclaim (reachable_unread h r _ hpos)

end

/-- A reader attaches: six accesses of `addSequences`, then a refresh. -/
def attach (r : Bool) (nRefresh : Nat) : List (Act Bool Bool) :=
  .attach r :: List.replicate (6 + nRefresh) (.construct r false)

/-- A claim of the one slot on the cached minimum, next to a reader at the start. -/
def claimUnread : List (Act Bool Bool) :=
  attach true 4 ++ [.tryNext false 1, .produce false, .produce false, .produce false]

instance decidableAttended [DecidableEq ρ] [Fintype ρ] (s : State ι ρ) : ∀ a, Decidable (Attended s a)
  | .produce _ => inferInstanceAs (Decidable (∃ r, s.readers r = .attached))
  | .next _ _ | .tryNext _ _ | .getRemainingCapacity _ | .publish _ => instDecidableTrue
  | .attach _ | .consume _ _ | .detach _ | .construct _ _ => instDecidableTrue

instance decidableCovered [DecidableEq ρ] [Fintype ρ] (s : State ι ρ) : ∀ a, Decidable (Covered size s a)
  | .produce i =>
    match hp : s.producers i with
    | .compareAndSet n _ current (.fresh m) =>
      decidable_of_iff (s.strategy.reserveCursor = current →
          current + n ≤ m.publishCursor + size ∨ ∀ r, (s.position r).isSome → r ∈ m.readSequences)
        (by simp only [Covered, hp])
    | .compareAndSet _ _ _ (.cached _) | .idle | .loadReserveCursor .. | .loadCached .. | .refresh .. | .claimed ..
    | .storeSlot .. | .loadPublishCursor | .scan .. | .publishCompareAndSet .. | .capacityRefresh .. | .capacityLoad ..
    | .capacity .. => .isTrue (by simp only [Covered, hp])
  | .next _ _ | .tryNext _ _ | .getRemainingCapacity _ | .publish _ => instDecidableTrue
  | .attach _ | .consume _ _ | .detach _ | .construct _ _ => instDecidableTrue

theorem claim_unread_one : ∃ s, (system 1).run initial claimUnread = some s ∧
    (s.producers false).claim = some (0, 1) ∧ 0 + 1 ≤ s.strategy.readSequences.value true + 1 :=
  ⟨_, (Option.some_get (by decide)).symm, by decide, claim_unread (i := false) (r := true)
    ((system 1).reach_get claimUnread rfl (by decide) (by decide)) (by decide) (by decide)⟩

/-- While a producer takes a minimum over reader `false`, reader `true` attaches and reader `false` moves on. -/
def claimOverUnread : List (Act Bool Bool) :=
  attach false 4 ++
  [.tryNext true 1, .produce true, .produce true, .produce true,
    .tryNext false 1, .produce false, .produce false, .produce false, .produce false] ++
  attach true 5 ++
  [.publish true, .produce true, .produce true, .produce true, .produce true, .produce true,
    .consume false 1, .produce false, .produce false, .produce false]

/-- Reader `true` is at the start, and the only slot is claimed again. -/
theorem claim_overwrites : ¬ ∀ (size : Nat) (s : State Bool Bool), (system size).Reach Attended s →
    ∀ i r offset n, (s.producers i).claim = some (offset, n) → (s.readers r).constructed = true →
      offset + n ≤ s.strategy.readSequences.value r + size := fun h =>
  absurd (h 1 _ ((system 1).reach_get claimOverUnread rfl (by decide) (by decide)) false true 1 1
    (by decide) (by decide)) (by decide)

end GnuRadio.MultiProducerStrategy
