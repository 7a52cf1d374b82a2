import GnuRadio.Theorems.MultiProducer.Published

/-! When `tryNext` returns `nullopt`. A minimum over the readers' positions is at or above the position that one reader
    of the list had when the list was loaded, and the reserve cursor was read before that, so a claim that ends more
    than the size of the buffer above the minimum met a full buffer. A claim that the readers have passed did not. -/

namespace GnuRadio.MultiProducerStrategy

variable {ι ρ : Type} {s t u : State ι ρ} {us vs : List (State ι ρ)} {size n current v : Nat}

/-! ### What a producer has seen -/

/-- At a moment of the call the reserve cursor was at `current` or above, and a reader of the list at `v` or below. -/
def Moment (us : List (State ι ρ)) (current v : Nat) : Prop :=
  ∃ u ∈ us, current ≤ u.strategy.reserveCursor ∧
    ∃ q ∈ u.strategy.readSequences.list.sequences, u.strategy.readSequences.value q ≤ v

theorem Moment.mono (h : Moment us current v) (hus : ∀ u ∈ us, u ∈ vs) : Moment vs current v := by
  obtain ⟨u, hu, hm⟩ := h
  exact ⟨u, hus u hu, hm⟩

/-- A refresh under way: the list that it reads is one of a moment of the call, and so is the minimum so far. -/
def Refresh.Seen (us : List (State ι ρ)) (s : State ι ρ) (current : Nat) : Refresh ρ → Prop
  | .readSequence _ rs minimum r rest =>
    (∃ u ∈ us, current ≤ u.strategy.reserveCursor ∧ u.strategy.readSequences.list.sequences = rs ∧
      ∀ q, u.strategy.readSequences.value q ≤ s.strategy.readSequences.value q) ∧
    (∀ q ∈ r :: rest, q ∈ rs) ∧ ∀ m, minimum = some m → Moment us current m
  | .storeCached m => current ≤ m.minReader ∨ Moment us current m.minReader
  | .loadPublishCursor | .loadSequences _ | .loadReserveCursor _ => True

def Producer.Seen (size : Nat) (us : List (State ι ρ)) (s : State ι ρ) : Producer ρ → Prop
  | .loadReserveCursor n _ | .compareAndSet n _ _ _ => n ≤ size
  | .loadCached n _ current => n ≤ size ∧ current ≤ s.strategy.reserveCursor
  | .refresh n _ current stage => n ≤ size ∧ current ≤ s.strategy.reserveCursor ∧ stage.Seen us s current
  | .idle | .claimed .. | .storeSlot .. | .loadPublishCursor | .scan .. | .publishCompareAndSet ..
  | .capacityRefresh _ | .capacityLoad _ | .capacity _ => True

/-- The reserve cursor and the readers move forward. -/
structure Forward (s t : State ι ρ) : Prop where
  reserve : s.strategy.reserveCursor ≤ t.strategy.reserveCursor
  value : ∀ q, s.strategy.readSequences.value q ≤ t.strategy.readSequences.value q

theorem Refresh.Seen.mono {stage : Refresh ρ} (h : stage.Seen us s current) (hus : ∀ u ∈ us, u ∈ vs)
    (hf : Forward s t) : stage.Seen vs t current := by
  cases stage with
  | readSequence p rs minimum r rest =>
    obtain ⟨⟨u, hu, hcurrent, hlist, hvalue⟩, hrest, hminimum⟩ := h
    refine ⟨⟨u, hus u hu, hcurrent, hlist, fun q => ?_⟩, hrest, fun m hm => (hminimum m hm).mono hus⟩
    exact Nat.le_trans (hvalue q) (hf.value q)
  | storeCached m => exact h.imp id fun hm => hm.mono hus
  | loadPublishCursor | loadSequences p | loadReserveCursor p => trivial

theorem Producer.Seen.mono {p : Producer ρ} (h : p.Seen size us s) (hus : ∀ u ∈ us, u ∈ vs) (hf : Forward s t) :
    p.Seen size vs t := by
  cases p with
  | loadCached n w current =>
    obtain ⟨hn, hcurrent⟩ := h
    exact ⟨hn, Nat.le_trans hcurrent hf.reserve⟩
  | refresh n w current stage =>
    obtain ⟨hn, hcurrent, hstage⟩ := h
    exact ⟨hn, Nat.le_trans hcurrent hf.reserve, hstage.mono hus hf⟩
  | _ => exact h

/-- One access of a refresh, seen from a moment after it. -/
theorem Refresh.Seen.step {stage stage' : Refresh ρ} {strategy : Strategy ρ} (h : stage.Seen us s current)
    (hcurrent : current ≤ s.strategy.reserveCursor) (hs : stage.step s.strategy = (strategy, .inl stage'))
    (ht : t.strategy = strategy) (hus : ∀ u ∈ us, u ∈ vs) (htv : t ∈ vs) : stage'.Seen vs t current := by
  cases stage with
  | loadPublishCursor =>
    cases hs
    trivial
  | loadSequences p =>
    unfold Refresh.step at hs
    dsimp only at hs
    split at hs
    · cases hs
      trivial
    · next r rs hlist =>
      cases hs
      refine ⟨⟨t, htv, ht ▸ hcurrent, ht ▸ hlist, fun q => Nat.le_refl _⟩, fun q hq => hq, fun m hm => ?_⟩
      cases hm
  | loadReserveCursor p =>
    cases hs
    exact .inl hcurrent
  | readSequence p rs minimum r rest =>
    obtain ⟨⟨u, hu, hreserve, hlist, hvalue⟩, hrest, hminimum⟩ := h
    have hlower : Moment vs current (lower minimum (s.strategy.readSequences.value r)) := by
      have hr : Moment vs current (s.strategy.readSequences.value r) :=
        ⟨u, hus u hu, hreserve, r, hlist ▸ hrest r (.head _), hvalue r⟩
      cases minimum with
      | none => exact hr
      | some m =>
        unfold lower
        dsimp only
        split
        · exact hr
        · exact (hminimum m rfl).mono hus
    unfold Refresh.step at hs
    dsimp only at hs
    split at hs
    · cases hs
      exact .inr hlower
    · next r' rest' =>
      cases hs
      refine ⟨⟨u, hus u hu, hreserve, hlist, fun q => ht ▸ hvalue q⟩, fun q hq => ?_, fun m hm => ?_⟩
      · exact hrest q (List.mem_cons_of_mem r hq)
      · cases hm
        exact hlower
  | storeCached m => cases hs

theorem Producer.Seen.step {p p' : Producer ρ} {strategy : Strategy ρ} (h : p.Seen size us s)
    (hs : p.step size s.strategy = some (strategy, p')) (ht : t.strategy = strategy) (hus : ∀ u ∈ us, u ∈ vs)
    (htv : t ∈ vs) : p'.Seen size vs t := by
  cases p with
  | idle | claimed offset n => cases hs
  | loadReserveCursor n w =>
    cases hs
    exact ⟨h, Nat.le_of_eq (congrArg Strategy.reserveCursor ht.symm)⟩
  | loadCached n w current =>
    obtain ⟨hn, hcurrent⟩ := h
    unfold Producer.step at hs
    dsimp only at hs
    split at hs
    · cases hs
      exact ⟨hn, ht ▸ hcurrent, trivial⟩
    · cases hs
      exact hn
  | refresh n w current stage =>
    obtain ⟨hn, hcurrent, hstage⟩ := h
    unfold Producer.step at hs
    dsimp only at hs
    split at hs
    · next hst =>
      cases hs
      obtain ⟨-, hsame, -⟩ := refresh_keeps hst
      exact ⟨hn, by rwa [ht, hsame], hstage.step hcurrent hst ht hus htv⟩
    · split at hs
      · cases hs
        split
        · exact hn
        · trivial
      · cases hs
        exact hn
  | compareAndSet n w current bound =>
    unfold Producer.step at hs
    dsimp only at hs
    split at hs
    · cases hs
      trivial
    · cases hs
      exact h
  | storeSlot offset n seq =>
    cases hs
    split <;> trivial
  | loadPublishCursor | capacityLoad minReader | capacity nFree =>
    cases hs
    trivial
  | scan current next =>
    unfold Producer.step at hs
    dsimp only at hs
    split at hs <;> cases hs
    · trivial
    · split <;> trivial
  | publishCompareAndSet current next | capacityRefresh stage =>
    unfold Producer.step at hs
    dsimp only at hs
    split at hs <;> cases hs <;> trivial

/-! ### Runs -/

/-- Fewer slots than asked for were free at a moment at which a reader was attached. -/
def Refused.Full (size : Nat) (r : Refused ι ρ) : Prop :=
  ∃ u ∈ r.moments, u.strategy.readSequences.list.sequences ≠ [] ∧ u.strategy.freeSlots size < r.nSlotsToClaim

theorem freeSlots_le {strategy : Strategy ρ} {q : ρ} (size : Nat) (hq : q ∈ strategy.readSequences.list.sequences) :
    strategy.freeSlots size ≤ size - (strategy.reserveCursor - strategy.readSequences.value q) := by
  unfold Strategy.freeSlots
  generalize strategy.readSequences.list.sequences = rs at hq
  induction rs with
  | nil => cases hq
  | cons r rs ih =>
    rcases List.mem_cons.mp hq with rfl | hq
    · exact Nat.min_le_right _ _
    · exact Nat.le_trans (Nat.min_le_left _ _) (ih hq)

/-- A refused claim that no reader has passed met a full buffer. -/
theorem full_of_refusal {p : Producer ρ} (h : p.Seen size us s) (hsound : p.Sound size s)
    {nextReserveCursor minReader : Nat} (hr : p.refusal size = some (n, nextReserveCursor, minReader))
    (hpassed : p.passed size = false) (hus : ∀ u ∈ us, u ∈ vs) : Refused.Full size ⟨n, vs⟩ := by
  have hle : minReader ≤ nextReserveCursor := by simpa [Producer.passed, hr] using hpassed
  unfold Producer.refusal at hr
  split at hr
  · next current m =>
    obtain ⟨hn, -, hstage⟩ := h
    obtain ⟨hpos, -⟩ := hsound
    obtain ⟨hexceeds, hr⟩ := Option.ite_none_right_eq_some.mp hr
    cases hr
    have habove : m.minReader + size < current + n := hexceeds.resolve_left (Nat.not_lt.mpr hle)
    rcases hstage with hcurrent | ⟨u, hu, hreserve, q, hq, hvalue⟩
    · exact absurd habove (by omega)
    · have hfree := freeSlots_le size hq
      refine ⟨u, hus u hu, List.ne_nil_of_mem hq, Nat.lt_of_le_of_lt hfree ?_⟩
      dsimp only
      omega
  · cases hr

variable [DecidableEq ι] [DecidableEq ρ] {a : Act ι ρ} {w w' : Watch ι ρ}

theorem forward_step (h : Gated size s) (hs : step size s a = some t) : Forward s t := by
  refine ⟨?_, (h.step hs).1.value⟩
  obtain hr | ⟨i, n, w, current, bound, -, -, hcurrent, hr⟩ := reserveCursor_step hs
  · exact Nat.le_of_eq hr.symm
  · rw [hr, hcurrent]
    exact Nat.le_add_right current n

/-- What each producer has seen after a step. Only a call of `tryNext` that begins forgets what was before. -/
theorem seen_step {before after : ι → List (State ι ρ)} (h : Gated size s)
    (hseen : ∀ i, (s.producers i).Seen size (before i) s) (hs : step size s a = some t)
    (hkept : ∀ i, (∀ n, a ≠ .tryNext i n) → ∀ u ∈ before i, u ∈ after i) (ht : ∀ i, t ∈ after i) :
    ∀ i, (t.producers i).Seen size (after i) t := by
  have hforward := forward_step h hs
  have hother (i : ι) (hi : ∀ n, a ≠ .tryNext i n) : (s.producers i).Seen size (after i) t :=
    (hseen i).mono (hkept i hi) hforward
  cases a with
  | next i n =>
    obtain ⟨⟨-, -, hn⟩, hs⟩ := Option.ite_none_right_eq_some.mp hs
    cases hs
    exact Transition.forall_update (P := fun j (p : Producer ρ) => p.Seen size (after j) _) hn
      fun j _ => hother j nofun
  | tryNext i n =>
    obtain ⟨⟨-, -, hn⟩, hs⟩ := Option.ite_none_right_eq_some.mp hs
    cases hs
    refine Transition.forall_update (P := fun j (p : Producer ρ) => p.Seen size (after j) _) hn fun j hj => ?_
    exact hother j fun m he => hj (Act.tryNext.inj he).1.symm
  | getRemainingCapacity i =>
    obtain ⟨-, hs⟩ := Option.ite_none_right_eq_some.mp hs
    cases hs
    exact Transition.forall_update (P := fun j (p : Producer ρ) => p.Seen size (after j) _) trivial
      fun j _ => hother j nofun
  | publish i =>
    unfold step at hs
    dsimp only at hs
    split at hs
    · next offset n hi =>
      cases hs
      refine Transition.forall_update (P := fun j (p : Producer ρ) => p.Seen size (after j) _) ?_
        fun j _ => hother j nofun
      unfold Producer.publish
      split <;> trivial
    · cases hs
  | produce i =>
    obtain ⟨⟨strategy, p⟩, hp, rfl⟩ := Option.map_eq_some_iff.mp hs
    refine Transition.forall_update (P := fun j (p : Producer ρ) => p.Seen size (after j) _) ?_
      fun j _ => hother j nofun
    exact (hseen i).step hp rfl (hkept i nofun) (ht i)
  | attach r | consume r n | detach r =>
    obtain ⟨-, hs⟩ := Option.ite_none_right_eq_some.mp hs
    cases hs
    exact fun i => hother i nofun
  | construct r spurious =>
    obtain ⟨⟨strategy, p⟩, hp, rfl⟩ := Option.map_eq_some_iff.mp hs
    exact fun i => hother i nofun

structure Watched (size : Nat) (w : Watch ι ρ) : Prop where
  gated : Gated size w.state
  seen : ∀ i, (w.state.producers i).Seen size (w.moments i) w.state
  full : ∀ r ∈ w.refused, r.Full size

theorem Watched.step (h : Watched size w) (hok : NotPassed size w a) (hs : w.step size a = some w') :
    Watched size w' := by
  obtain ⟨t, ht, rfl⟩ := Option.map_eq_some_iff.mp hs
  refine ⟨(h.gated.step ht).2, seen_step h.gated h.seen ht (fun i hi u hu => ?_) fun i => ?_, ?_⟩
  · cases a with
    | tryNext j n =>
      have hij : i ≠ j := fun he => hi n (he ▸ rfl)
      simp only [Watch.see, Function.update_of_ne hij]
      exact List.mem_append_left _ hu
    | _ => exact List.mem_append_left _ hu
  · cases a with
    | tryNext j n =>
      obtain rfl | hij := eq_or_ne i j
      · simp [Watch.see]
      · simp [Watch.see, Function.update_of_ne hij]
    | _ => exact List.mem_concat_self
  · cases a with
    | produce i =>
      simp only [Watch.record]
      split
      · next n nextReserveCursor minReader hr =>
        intro r hmem
        rcases List.mem_append.mp hmem with hmem | hmem
        · exact h.full r hmem
        · obtain rfl := List.mem_singleton.mp hmem
          exact full_of_refusal (h.seen i) (h.gated.producers i) hr hok fun u hu => List.mem_append_left _ hu
      · exact h.full
    | _ => exact h.full

omit [DecidableEq ι] [DecidableEq ρ] in
theorem Watched.of_start : Watched size (unwatched : Watch ι ρ) :=
  ⟨Gated.of_initial, fun _ => trivial, nofun⟩

/-- In a run without a step that refuses a claim which the readers have passed, each call that `tryNext` refused met, at
    a moment between its begin and its end, fewer free slots than it asked for, and a reader that was attached. -/
theorem refused_full (size : Nat) (h : (watched size).Reach (NotPassed size) w) : ∀ r ∈ w.refused, r.Full size :=
  (h.invariant (fun _ hs => hs ▸ Watched.of_start) fun _ _ _ hI hok hs => hI.step hok hs : Watched size w).full

instance (r : Refused ι ρ) : Decidable (r.Full size) :=
  inferInstanceAs (Decidable (∃ u ∈ r.moments, _ ∧ u.strategy.freeSlots size < r.nSlotsToClaim))

/-- A claim of the one slot, and then a call by the other producer. -/
def claimFull : List (Act Bool Bool) :=
  attach true 4 ++ [.tryNext false 1, .produce false, .produce false, .produce false] ++
    .tryNext true 1 :: List.replicate 6 (.produce true)

def afterClaimFull : Watch Bool Bool := ((watched 1).run unwatched claimFull).get (by decide)

theorem refused_full_one : afterClaimFull.refused.length = 1 ∧ ∀ r ∈ afterClaimFull.refused, r.Full 1 :=
  ⟨by decide, refused_full 1 ((watched 1).reach_get claimFull rfl (by decide) (by decide))⟩

/-- A call of producer `true` reads the reserve cursor. Producer `false` then claims twice, and the call takes its minimum
    over no readers, which is the reserve cursor as it is then. -/
def claimPassed : List (Act Bool Bool) :=
  [.tryNext false 1, .produce false, .produce false, .produce false] ++
    .publish false :: List.replicate 5 (.produce false) ++
    [.tryNext true 1, .produce true, .produce true] ++
    .tryNext false 1 :: List.replicate 7 (.produce false) ++
    .publish false :: List.replicate 5 (.produce false) ++
    .tryNext false 1 :: List.replicate 7 (.produce false) ++
    List.replicate 4 (.produce true)

/-- No reader was ever attached, and the call is refused. -/
theorem passed_refused : ¬ ∀ (size : Nat) (w : Watch Bool Bool), (watched size).Reachable w →
    ∀ r ∈ w.refused, r.Full size := fun h =>
  absurd (h 1 _ ((watched 1).reachable_get claimPassed rfl (by decide))) (by decide)

end GnuRadio.MultiProducerStrategy
