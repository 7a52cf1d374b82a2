import GnuRadio.Buffer.MultiProducerStrategy
import GnuRadio.Theorems.ReaderSet

/-! What the minima over the readers are worth: a value stored in `_cachedMinReaderCursor` stays below every reader
    whose start is fixed, whatever readers attach, consume and detach meanwhile, and so does the part of a fresh
    minimum that the publish cursor read before it bounds. Nothing here depends on the claims. -/

namespace GnuRadio.MultiProducerStrategy

open ReadSequences

variable {ι ρ : Type}

/-! ### Positions -/

/-- The position a reader reads from, once its constructor has read it for the second time. -/
def Reader.position (value : Nat) : Reader ρ → Option Nat
  | .adding stage => stage.position
  | .notifyAdded _ | .attached | .removing _ => some value
  | .absent | .notifyRemoved _ | .destroyed => none

def State.position (s : State ι ρ) (r : ρ) : Option Nat :=
  (s.readers r).position (s.strategy.readSequences.value r)

/-- No reader with a fixed start is below `v`, and none will start below it. -/
def State.Gates (s : State ι ρ) (v : Nat) : Prop :=
  v ≤ s.strategy.publishCursor ∧ ∀ r x, s.position r = some x → v ≤ x

/-- How the cursor and the readers move: forward, and a reader whose start gets fixed starts no lower than the
    publish cursor. -/
structure Advances (s t : State ι ρ) : Prop where
  cursor : s.strategy.publishCursor ≤ t.strategy.publishCursor
  value : ∀ r, s.strategy.readSequences.value r ≤ t.strategy.readSequences.value r
  position : ∀ r x, t.position r = some x → (∃ y, s.position r = some y ∧ y ≤ x) ∨ s.strategy.publishCursor ≤ x

variable {s t : State ι ρ} {size v : Nat} {r : ρ} {i : ι}

theorem State.Gates.advances (h : s.Gates v) (a : Advances s t) : t.Gates v := by
  refine ⟨Nat.le_trans h.1 a.cursor, fun r x hx => ?_⟩
  rcases a.position r x hx with ⟨y, hy, hyx⟩ | hx
  · exact Nat.le_trans (h.2 r y hy) hyx
  · exact Nat.le_trans h.1 hx

/-! ### What each thread knows -/

/-- A minimum once taken: as far as the publish cursor bounds it, it gates every reader; and it is below every reader
    of the list it was taken over. -/
structure Minimum.Sound (s : State ι ρ) (m : Minimum ρ) : Prop where
  gates : s.Gates (min m.minReader m.publishCursor)
  read : ∀ r ∈ m.readSequences, m.minReader ≤ s.strategy.readSequences.value r

/-- A refresh under way: a reader of the loaded list is still to be read or is above the minimum so far, and a reader
    outside the list starts above the publish cursor that was read first. -/
def Refresh.Sound (s : State ι ρ) : Refresh ρ → Prop
  | .loadPublishCursor => True
  | .loadSequences p => p ≤ s.strategy.publishCursor
  | .loadReserveCursor p => s.Gates p
  | .readSequence p rs minimum r rest =>
    p ≤ s.strategy.publishCursor ∧ (∀ q x, s.position q = some x → p ≤ x ∨ q ∈ rs) ∧
      ∀ q ∈ rs, q ∈ r :: rest ∨ ∃ m, minimum = some m ∧ m ≤ s.strategy.readSequences.value q
  | .storeCached m => m.Sound s

def Bound.Sound (s : State ι ρ) : Bound ρ → Prop
  | .cached v => s.Gates v
  | .fresh m => m.Sound s

/-- A claim that is about to be made was checked against its bound. -/
def Producer.Sound (size : Nat) (s : State ι ρ) : Producer ρ → Prop
  | .loadReserveCursor n _ | .loadCached n _ _ => 0 < n
  | .refresh n _ _ stage => 0 < n ∧ stage.Sound s
  | .compareAndSet n _ current bound => 0 < n ∧ bound.Sound s ∧ ¬ exceeds size (current + n) bound.value
  | .scan current next | .publishCompareAndSet current next => current ≤ next
  | .capacityRefresh stage => stage.Sound s
  | .idle | .claimed .. | .storeSlot .. | .loadPublishCursor | .capacityLoad _ | .capacity _ => True

def Reader.Sound (s : State ι ρ) (r : ρ) : Reader ρ → Prop
  | .adding stage => stage.Sound s.strategy.publishCursor s.strategy.readSequences r
  | .notifyAdded stage => r ∈ s.strategy.readSequences.list.sequences ∧ stage.Sound s
  | .attached => r ∈ s.strategy.readSequences.list.sequences
  | .removing stage => r ∈ s.strategy.readSequences.list.sequences ∧ stage.Sound s.strategy.readSequences
  | .notifyRemoved stage => stage.Sound s
  | .absent | .destroyed => True

theorem Minimum.Sound.advances {m : Minimum ρ} (h : m.Sound s) (a : Advances s t) : m.Sound t :=
  ⟨h.gates.advances a, fun r hr => Nat.le_trans (h.read r hr) (a.value r)⟩

theorem Refresh.Sound.advances {stage : Refresh ρ} (h : stage.Sound s) (a : Advances s t) : stage.Sound t := by
  cases stage with
  | loadPublishCursor => trivial
  | loadSequences p => exact Nat.le_trans h a.cursor
  | loadReserveCursor p => exact State.Gates.advances h a
  | readSequence p rs minimum r rest =>
    obtain ⟨hp, hout, hin⟩ := h
    refine ⟨Nat.le_trans hp a.cursor, fun q x hx => ?_, fun q hq => ?_⟩
    · rcases a.position q x hx with ⟨y, hy, hyx⟩ | hx
      · exact (hout q y hy).imp (fun h => Nat.le_trans h hyx) id
      · exact .inl (Nat.le_trans hp hx)
    · rcases hin q hq with h | ⟨m, hm, hle⟩
      · exact .inl h
      · exact .inr ⟨m, hm, Nat.le_trans hle (a.value q)⟩
  | storeCached m => exact Minimum.Sound.advances h a

theorem Bound.Sound.advances {b : Bound ρ} (h : b.Sound s) (a : Advances s t) : b.Sound t := by
  cases b with
  | cached v => exact State.Gates.advances h a
  | fresh m => exact Minimum.Sound.advances h a

theorem Producer.Sound.advances {p : Producer ρ} (h : p.Sound size s) (a : Advances s t) : p.Sound size t := by
  cases p with
  | refresh n w current stage => exact ⟨h.1, h.2.advances a⟩
  | compareAndSet n w current bound => exact ⟨h.1, h.2.1.advances a, h.2.2⟩
  | capacityRefresh stage => exact Refresh.Sound.advances h a
  | _ => exact h

theorem Reader.Sound.advances {p : Reader ρ} (h : p.Sound s r) (a : Advances s t)
    (k : Kept r s.strategy.readSequences t.strategy.readSequences) : p.Sound t r := by
  cases p with
  | absent => trivial
  | adding stage => exact AddSequences.Sound.kept h k a.cursor
  | notifyAdded stage => exact ⟨k.mem h.1, h.2.advances a⟩
  | attached => exact k.mem h
  | removing stage => exact ⟨k.mem h.1, h.2.kept k⟩
  | notifyRemoved stage => exact Refresh.Sound.advances h a
  | destroyed => trivial

/-! ### The invariant -/

/-- What holds in every state, with or without readers. -/
structure Gated (size : Nat) (s : State ι ρ) : Prop where
  cached : s.Gates s.strategy.cachedMinReaderCursor
  value : ∀ r, s.strategy.readSequences.value r ≤ s.strategy.publishCursor
  producers : ∀ i, (s.producers i).Sound size s
  readers : ∀ r, (s.readers r).Sound s r

namespace Gated

/-- A reader whose start is fixed is in the list, at or below its position. -/
theorem position (h : Gated size s) {x : Nat} (hx : s.position r = some x) :
    r ∈ s.strategy.readSequences.list.sequences ∧ s.strategy.readSequences.value r ≤ x := by
  have hr := h.readers r
  unfold State.position at hx
  cases hp : s.readers r with
  | adding stage =>
    rw [hp] at hx hr
    cases stage with
    | resetValue c =>
      cases hx
      exact ⟨hr.1, hr.2.1⟩
    | _ => cases hx
  | notifyAdded stage | removing stage =>
    rw [hp] at hx hr
    cases hx
    exact ⟨hr.1, Nat.le_refl _⟩
  | attached =>
    rw [hp] at hx hr
    cases hx
    exact ⟨hr, Nat.le_refl _⟩
  | _ =>
    rw [hp] at hx
    cases hx

variable {strategy : Strategy ρ}

/-- An access of a refresh that is not the last one writes nothing. -/
theorem refresh_step (h : Gated size s) {stage stage' : Refresh ρ} (hst : stage.Sound s)
    (hs : stage.step s.strategy = (strategy, .inl stage')) : strategy = s.strategy ∧ stage'.Sound s := by
  cases stage with
  | loadPublishCursor =>
    cases hs
    exact ⟨rfl, Nat.le_refl _⟩
  | loadSequences p =>
    unfold Refresh.step at hs
    dsimp only at hs
    split at hs
    case h_1 he =>
      cases hs
      refine ⟨rfl, hst, fun q x hx => ?_⟩
      have := (h.position hx).1
      rw [he] at this
      cases this
    case h_2 r rs he =>
      cases hs
      refine ⟨rfl, hst, fun q x hx => .inr ?_, fun q hq => .inl hq⟩
      rw [← he]
      exact (h.position hx).1
  | loadReserveCursor p =>
    cases hs
    obtain ⟨hp, hr⟩ := hst
    refine ⟨rfl, ⟨Nat.le_trans (Nat.min_le_right ..) hp, fun r x hx => ?_⟩, fun r hr => by cases hr⟩
    exact Nat.le_trans (Nat.min_le_right ..) (hr r x hx)
  | readSequence p rs minimum r rest =>
    obtain ⟨hp, hout, hin⟩ := hst
    obtain ⟨hv, hm⟩ := lower_le minimum (s.strategy.readSequences.value r)
    -- The minimum now covers `r` as well.
    have hread : ∀ q ∈ rs, q ∈ rest ∨
        lower minimum (s.strategy.readSequences.value r) ≤ s.strategy.readSequences.value q := by
      intro q hq
      rcases hin q hq with hq | ⟨m, rfl, hle⟩
      · rcases List.mem_cons.mp hq with rfl | hq
        · exact .inr hv
        · exact .inl hq
      · exact .inr (Nat.le_trans (hm m rfl) hle)
    unfold Refresh.step at hs
    dsimp only at hs
    split at hs
    case h_1 =>
      cases hs
      have hall : ∀ q ∈ rs, lower minimum (s.strategy.readSequences.value r) ≤ s.strategy.readSequences.value q :=
        fun q hq => (hread q hq).resolve_left (by simp)
      refine ⟨rfl, ⟨Nat.le_trans (Nat.min_le_right ..) hp, fun q x hx => ?_⟩, hall⟩
      rcases hout q x hx with hpx | hq
      · exact Nat.le_trans (Nat.min_le_right ..) hpx
      · exact Nat.le_trans (Nat.min_le_left ..) (Nat.le_trans (hall q hq) (h.position hx).2)
    case h_2 =>
      cases hs
      exact ⟨rfl, hp, hout, fun q hq => (hread q hq).imp id fun hle => ⟨_, rfl, hle⟩⟩
  | storeCached m => cases hs

/-- The last access stores as much of the minimum as the publish cursor bounds. -/
theorem refresh_done {stage : Refresh ρ} {m : Minimum ρ} (hst : stage.Sound s)
    (hs : stage.step s.strategy = (strategy, .inr m)) :
    strategy = { s.strategy with cachedMinReaderCursor := min m.minReader m.publishCursor } ∧ m.Sound s := by
  cases stage with
  | loadPublishCursor | loadReserveCursor p => cases hs
  | loadSequences p | readSequence p rs minimum r rest =>
    unfold Refresh.step at hs
    dsimp only at hs
    split at hs <;> cases hs
  | storeCached m =>
    cases hs
    exact ⟨rfl, hst⟩

/-! ### What a step does -/

/-- An access of a producer: the readers and their list stay, the publish cursor does not go back, and what is cached
    gates every reader. -/
theorem producer_step (h : Gated size s) {p p' : Producer ρ} (hp : p.Sound size s)
    (hs : p.step size s.strategy = some (strategy, p')) :
    p'.Sound size s ∧ strategy.readSequences = s.strategy.readSequences ∧
      s.strategy.publishCursor ≤ strategy.publishCursor ∧ s.Gates strategy.cachedMinReaderCursor := by
  cases p with
  | idle | claimed offset n => cases hs
  | loadReserveCursor n w =>
    cases hs
    exact ⟨hp, rfl, Nat.le_refl _, h.cached⟩
  | loadCached n w current =>
    unfold Producer.step at hs
    dsimp only at hs
    split at hs
    case isTrue =>
      cases hs
      exact ⟨⟨hp, trivial⟩, rfl, Nat.le_refl _, h.cached⟩
    case isFalse he =>
      cases hs
      exact ⟨⟨hp, h.cached, he⟩, rfl, Nat.le_refl _, h.cached⟩
  | refresh n w current stage =>
    unfold Producer.step at hs
    dsimp only at hs
    split at hs
    case h_1 hst =>
      cases hs
      obtain ⟨rfl, hsound⟩ := h.refresh_step hp.2 hst
      exact ⟨⟨hp.1, hsound⟩, rfl, Nat.le_refl _, h.cached⟩
    case h_2 m hst =>
      obtain ⟨rfl, hm⟩ := refresh_done hp.2 hst
      split at hs
      case isTrue =>
        cases hs
        refine ⟨?_, rfl, Nat.le_refl _, hm.gates⟩
        split
        · exact hp.1
        · trivial
      case isFalse he =>
        cases hs
        exact ⟨⟨hp.1, hm, he⟩, rfl, Nat.le_refl _, hm.gates⟩
  | compareAndSet n w current bound =>
    unfold Producer.step at hs
    dsimp only at hs
    split at hs <;> cases hs
    · exact ⟨trivial, rfl, Nat.le_refl _, h.cached⟩
    · exact ⟨hp.1, rfl, Nat.le_refl _, h.cached⟩
  | storeSlot offset n seq =>
    cases hs
    refine ⟨?_, rfl, Nat.le_refl _, h.cached⟩
    split <;> trivial
  | loadPublishCursor =>
    cases hs
    exact ⟨Nat.le_refl _, rfl, Nat.le_refl _, h.cached⟩
  | scan current next =>
    unfold Producer.step at hs
    dsimp only at hs
    split at hs <;> cases hs
    · exact ⟨Nat.le_succ_of_le hp, rfl, Nat.le_refl _, h.cached⟩
    · refine ⟨?_, rfl, Nat.le_refl _, h.cached⟩
      split
      · trivial
      · exact hp
  | publishCompareAndSet current next =>
    unfold Producer.step at hs
    dsimp only at hs
    split at hs
    case isTrue he =>
      cases hs
      exact ⟨trivial, rfl, he ▸ hp, h.cached⟩
    case isFalse =>
      cases hs
      exact ⟨trivial, rfl, Nat.le_refl _, h.cached⟩
  | capacityRefresh stage =>
    unfold Producer.step at hs
    dsimp only at hs
    split at hs
    case h_1 hst =>
      cases hs
      obtain ⟨rfl, hsound⟩ := h.refresh_step hp hst
      exact ⟨hsound, rfl, Nat.le_refl _, h.cached⟩
    case h_2 m hst =>
      cases hs
      obtain ⟨rfl, hm⟩ := refresh_done hp hst
      exact ⟨trivial, rfl, Nat.le_refl _, hm.gates⟩
  | capacityLoad minReader | capacity nFree =>
    cases hs
    exact ⟨trivial, rfl, Nat.le_refl _, h.cached⟩

/-- A step of a producer, be it a call or an access, as far as the gating sees it. -/
theorem setProducer [DecidableEq ι] (h : Gated size s) {p : Producer ρ}
    (hp : p.Sound size s) (hr : strategy.readSequences = s.strategy.readSequences)
    (hc : s.strategy.publishCursor ≤ strategy.publishCursor) (hm : s.Gates strategy.cachedMinReaderCursor) :
    Advances s ({ s with strategy := strategy }.setProducer i p) ∧
      Gated size ({ s with strategy := strategy }.setProducer i p) := by
  have a : Advances s ({ s with strategy := strategy }.setProducer i p) := by
    refine ⟨hc, fun r => ?_, fun r x hx => .inl ⟨x, ?_, Nat.le_refl _⟩⟩
    · exact Nat.le_of_eq (congrFun (congrArg ReadSequences.value hr.symm) r)
    · rw [← hx, State.position, State.position]
      simp only [State.setProducer, hr]
  refine ⟨a, hm.advances a, fun r => ?_, ?_, fun r => ?_⟩
  · simp only [State.setProducer, hr]
    exact Nat.le_trans (h.value r) hc
  · exact Transition.forall_update (P := fun _ (p : Producer ρ) => p.Sound size _) (hp.advances a)
      fun j _ => (h.producers j).advances a
  · refine (h.readers r).advances a ?_
    simp only [State.setProducer, hr]
    exact .refl r _

section

variable [DecidableEq ρ]

/-- An access of reader `r` in its constructor or destructor: the publish cursor stays, the other readers stay, and a
    start that gets fixed is the publish cursor. -/
structure ReaderStep (s : State ι ρ) (r : ρ) (strategy : Strategy ρ) (p : Reader ρ) : Prop where
  cursor : strategy.publishCursor = s.strategy.publishCursor
  cached : s.Gates strategy.cachedMinReaderCursor
  kept : ∀ q, q ≠ r → Kept q s.strategy.readSequences strategy.readSequences
  value : s.strategy.readSequences.value r ≤ strategy.readSequences.value r ∧
    strategy.readSequences.value r ≤ s.strategy.publishCursor
  position : ∀ x, p.position (strategy.readSequences.value r) = some x →
    s.position r = some x ∨ s.strategy.publishCursor ≤ x
  sound : ∀ t : State ι ρ, Advances s t → t.strategy = strategy → p.Sound t r

theorem reader_step (h : Gated size s) {spurious : Bool} {p : Reader ρ} {strategy : Strategy ρ}
    (hs : (s.readers r).step s.strategy r spurious = some (strategy, p)) : ReaderStep s r strategy p := by
  have hr := h.readers r
  have hv := h.value r
  generalize hp : s.readers r = p₀ at hs hr
  have hpos : s.position r = p₀.position (s.strategy.readSequences.value r) := by rw [← hp, State.position]
  cases p₀ with
  | absent | attached | destroyed => cases hs
  | adding stage =>
    have hvalue := AddSequences.step_value (b := spurious) hr hv
    unfold Reader.step at hs
    dsimp only at hs
    split at hs
    case h_1 rs stage' hst =>
      cases hs
      obtain ⟨hsound, hstart⟩ := AddSequences.step_sound (b := spurious) hr hv (congrArg Prod.snd hst)
      have hkept : ∀ q, q ≠ r → _ := fun q => AddSequences.step_kept (b := spurious) (q := q) hr
      rw [hst] at hvalue hsound hkept
      refine ⟨rfl, h.cached, hkept, hvalue, fun x hx => .inr ?_, fun t a e => ?_⟩
      · rcases hstart with hn | hc
        · rw [Reader.position, hn] at hx
          cases hx
        · rw [Reader.position, hc] at hx
          cases hx
          exact Nat.le_refl _
      · rw [Reader.Sound, e]
        exact hsound
    case h_2 rs hst =>
      cases hs
      obtain ⟨hstart, hmem⟩ := AddSequences.step_done (b := spurious) hr (congrArg Prod.snd hst)
      have hkept : ∀ q, q ≠ r → _ := fun q => AddSequences.step_kept (b := spurious) (q := q) hr
      rw [hst] at hvalue hstart hmem hkept
      refine ⟨rfl, h.cached, hkept, hvalue, fun x hx => .inl ?_, fun t a e => ?_⟩
      · rw [hpos, Reader.position, hstart]
        exact hx
      · rw [Reader.Sound, e]
        exact ⟨hmem, trivial⟩
  | notifyAdded stage =>
    unfold Reader.step at hs
    dsimp only at hs
    split at hs
    case h_1 hst =>
      cases hs
      obtain ⟨rfl, hsound⟩ := h.refresh_step hr.2 hst
      exact ⟨rfl, h.cached, fun q _ => .refl q _, ⟨Nat.le_refl _, hv⟩, fun x hx => .inl (hpos.trans hx),
        fun t a e => ⟨e ▸ hr.1, hsound.advances a⟩⟩
    case h_2 m hst =>
      cases hs
      obtain ⟨rfl, hm⟩ := refresh_done hr.2 hst
      exact ⟨rfl, hm.gates, fun q _ => .refl q _, ⟨Nat.le_refl _, hv⟩, fun x hx => .inl (hpos.trans hx),
        fun t a e => by rw [Reader.Sound, e]; exact hr.1⟩
  | removing stage =>
    have hvalue : (stage.step r spurious s.strategy.readSequences).1.value = s.strategy.readSequences.value :=
      RemoveSequence.step_value
    have hkept : ∀ q, q ≠ r → _ := fun q => RemoveSequence.step_kept (b := spurious) (r := r) (q := q) hr.2
    unfold Reader.step at hs
    dsimp only at hs
    split at hs
    case h_1 rs stage' hst =>
      cases hs
      obtain ⟨hsound, hsame⟩ := RemoveSequence.step_sound (congrArg Prod.snd hst)
      rw [hst] at hsame
      dsimp only at hsame
      subst hsame
      exact ⟨rfl, h.cached, fun q _ => .refl q _, ⟨Nat.le_refl _, hv⟩, fun x hx => .inl (hpos.trans hx),
        fun t a e => by rw [Reader.Sound, e]; exact ⟨hr.1, hsound⟩⟩
    case h_2 rs hst =>
      cases hs
      rw [hst] at hvalue hkept
      dsimp only at hvalue
      refine ⟨rfl, h.cached, hkept, ?_, fun x hx => (by cases hx), fun _ _ _ => trivial⟩
      rw [hvalue]
      exact ⟨Nat.le_refl _, hv⟩
  | notifyRemoved stage =>
    unfold Reader.step at hs
    dsimp only at hs
    split at hs
    case h_1 hst =>
      cases hs
      obtain ⟨rfl, hsound⟩ := h.refresh_step hr hst
      exact ⟨rfl, h.cached, fun q _ => .refl q _, ⟨Nat.le_refl _, hv⟩, fun x hx => .inl (hpos.trans hx),
        fun t a e => Refresh.Sound.advances hsound a⟩
    case h_2 m hst =>
      cases hs
      obtain ⟨rfl, hm⟩ := refresh_done hr hst
      exact ⟨rfl, hm.gates, fun q _ => .refl q _, ⟨Nat.le_refl _, hv⟩, fun x hx => (by cases hx), fun _ _ _ => trivial⟩

/-- A step of a reader in its constructor or destructor, likewise. -/
theorem setReader (h : Gated size s) {strategy : Strategy ρ} {p : Reader ρ} (hs : ReaderStep s r strategy p) :
    Advances s ({ s with strategy := strategy }.setReader r p) ∧
      Gated size ({ s with strategy := strategy }.setReader r p) := by
  have hvalue : ∀ q, s.strategy.readSequences.value q ≤ strategy.readSequences.value q := fun q => by
    rcases eq_or_ne q r with rfl | hq
    · exact hs.value.1
    · exact Nat.le_of_eq (hs.kept q hq).value.symm
  have a : Advances s ({ s with strategy := strategy }.setReader r p) := by
    refine ⟨Nat.le_of_eq hs.cursor.symm, hvalue, fun q x hx => ?_⟩
    rw [State.position, State.setReader] at hx
    dsimp only at hx
    rcases eq_or_ne q r with rfl | hq
    · rw [Function.update_self] at hx
      exact (hs.position x hx).imp (fun h => ⟨x, h, Nat.le_refl _⟩) id
    · rw [Function.update_of_ne hq, (hs.kept q hq).value] at hx
      exact .inl ⟨x, hx, Nat.le_refl _⟩
  refine ⟨a, hs.cached.advances a, fun q => ?_, fun i => (h.producers i).advances a, ?_⟩
  · simp only [State.setReader]
    rcases eq_or_ne q r with rfl | hq
    · exact hs.cursor ▸ hs.value.2
    · exact (hs.kept q hq).value ▸ hs.cursor ▸ h.value q
  · exact Transition.forall_update (P := fun q (p : Reader ρ) => p.Sound _ q) (hs.sound _ a rfl)
      fun q hq => (h.readers q).advances a (hs.kept q hq)

theorem consume (h : Gated size s) {n : Nat} (hr : s.readers r = .attached)
    (hn : s.strategy.readSequences.value r + n ≤ s.strategy.publishCursor) :
    let t : State ι ρ := { s with strategy := { s.strategy with
      readSequences := s.strategy.readSequences.setValue r (s.strategy.readSequences.value r + n) } }
    Advances s t ∧ Gated size t := by
  intro t
  have hpos : ∀ q x, t.position q = some x → ∃ y, s.position q = some y ∧ y ≤ x := fun q x hx => by
    rw [State.position] at hx
    rcases eq_or_ne q r with rfl | hq
    · simp only [t, hr, Reader.position, ReadSequences.setValue_self] at hx
      refine ⟨s.strategy.readSequences.value q, by rw [State.position, hr, Reader.position], ?_⟩
      have := Option.some.inj hx
      omega
    · simp only [t, ReadSequences.setValue_of_ne hq] at hx
      exact ⟨x, hx, Nat.le_refl _⟩
  have a : Advances s t := by
    refine ⟨Nat.le_refl _, fun q => ?_, fun q x hx => .inl (hpos q x hx)⟩
    rcases eq_or_ne q r with rfl | hq
    · exact Nat.le_trans (Nat.le_add_right ..) (Nat.le_of_eq ReadSequences.setValue_self.symm)
    · exact Nat.le_of_eq (ReadSequences.setValue_of_ne hq).symm
  refine ⟨a, h.cached.advances a, fun q => ?_, fun i => (h.producers i).advances a, fun q => ?_⟩
  · rcases eq_or_ne q r with rfl | hq
    · exact Nat.le_trans (Nat.le_of_eq ReadSequences.setValue_self) hn
    · exact Nat.le_trans (Nat.le_of_eq (ReadSequences.setValue_of_ne hq)) (h.value q)
  · rcases eq_or_ne q r with rfl | hq
    · have hq := h.readers q
      rw [hr] at hq
      show (s.readers q).Sound t q
      rw [hr]
      exact hq
    · exact (h.readers q).advances a (ReadSequences.kept_setValue hq)

/-- Every step moves the cursor and the readers forward and keeps the invariant. -/
theorem step [DecidableEq ι] (h : Gated size s) {a : Act ι ρ} (hs : MultiProducerStrategy.step size s a = some t) :
    Advances s t ∧ Gated size t := by
  cases a with
  | next i n | tryNext i n =>
    unfold MultiProducerStrategy.step at hs
    dsimp only at hs
    split at hs
    case isTrue hn =>
      cases hs
      exact h.setProducer hn.2.1 rfl (Nat.le_refl _) h.cached
    case isFalse => cases hs
  | getRemainingCapacity i =>
    unfold MultiProducerStrategy.step at hs
    dsimp only at hs
    split at hs <;> cases hs
    exact h.setProducer trivial rfl (Nat.le_refl _) h.cached
  | publish i =>
    unfold MultiProducerStrategy.step at hs
    dsimp only at hs
    split at hs <;> cases hs
    refine h.setProducer ?_ rfl (Nat.le_refl _) h.cached
    unfold Producer.publish
    split <;> trivial
  | produce i =>
    obtain ⟨⟨strategy, p⟩, hp, rfl⟩ := Option.map_eq_some_iff.mp hs
    obtain ⟨h1, h2, h3, h4⟩ := h.producer_step (h.producers i) hp
    exact h.setProducer h1 h2 h3 h4
  | attach r =>
    unfold MultiProducerStrategy.step at hs
    dsimp only at hs
    split at hs <;> cases hs
    exact h.setReader ⟨rfl, h.cached, fun q _ => .refl q _, ⟨Nat.le_refl _, h.value r⟩,
      fun x hx => (by cases hx), fun _ _ _ => trivial⟩
  | consume r n =>
    unfold MultiProducerStrategy.step at hs
    dsimp only at hs
    split at hs
    case isTrue hn =>
      cases hs
      exact h.consume hn.1 hn.2
    case isFalse => cases hs
  | detach r =>
    unfold MultiProducerStrategy.step at hs
    dsimp only at hs
    split at hs
    case isTrue hr =>
      cases hs
      have hmem := h.readers r
      rw [hr] at hmem
      refine h.setReader ⟨rfl, h.cached, fun q _ => .refl q _, ⟨Nat.le_refl _, h.value r⟩, fun x hx => .inl ?_,
        fun t _ e => ⟨e ▸ hmem, trivial⟩⟩
      rw [State.position, hr]
      exact hx
    case isFalse => cases hs
  | construct r spurious =>
    obtain ⟨⟨strategy, p⟩, hp, rfl⟩ := Option.map_eq_some_iff.mp hs
    exact h.setReader (h.reader_step hp)

end

theorem of_initial : Gated size (initial : State ι ρ) where
  cached := ⟨Nat.le_refl _, fun _ _ _ => Nat.zero_le _⟩
  value _ := Nat.le_refl _
  producers _ := trivial
  readers _ := trivial

end Gated

/-- In every run, whatever the claims, the cached minimum gates every reader. -/
theorem reachable_gated [DecidableEq ι] [DecidableEq ρ] {ok : State ι ρ → Act ι ρ → Prop}
    (h : (system size).Reach ok s) : Gated size s :=
  h.invariant (fun _ e => e ▸ Gated.of_initial) fun _ _ _ hi _ hs => (hi.step hs).2

end GnuRadio.MultiProducerStrategy
