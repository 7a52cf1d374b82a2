import GnuRadio.Library.Ledger
import GnuRadio.Scheduler.ChildMessages

/-! Each message that the scheduler accepts for its children is handed to every child once, is queued for it, or is
    counted as dropped, as long as every connection of the message ports finds the children as far in the ring as the
    graph. -/

namespace GnuRadio.ChildMessages

open Function

open Ledger (Accounts)

variable {ι δ : Type} {cfg : Config} {s t : State ι δ} {a : Act ι δ} {c : ι} {r : Reader δ} {available : Nat}

abbrev numbers (messages : List (Accepted δ)) : List Nat := messages.map (·.number)

/-- What an attached child has got, and what waits for it in the ring or in the scheduler. -/
def State.held (s : State ι δ) (r : Reader δ) : List (Accepted δ) :=
  r.handed ++ s.unread r ++ s.pendingMessagesToChildren

/-- Every message accepted since the child was attached is in exactly one place, once, and they come in order. -/
structure Accounted (s : State ι δ) (r : Reader δ) : Prop where
  once : ∀ k, r.since ≤ k → k < s.nAccepted → (numbers (s.held r) ++ s.dropped).count k = 1
  inOrder : ((numbers (s.held r)).filter (r.since ≤ ·)).Pairwise (· < ·)
  counted : s.droppedMessageCount = s.dropped.length

/-- The child has still to read what the graph has still to read, of the messages accepted since the child was attached. -/
def Level (s : State ι δ) (r : Reader δ) : Prop :=
  (numbers (s.unread r)).filter (r.since ≤ ·) = (numbers s.graphUnread).filter (r.since ≤ ·)

/-- The message ports are connected when every child is as far as the graph. -/
def ConnectsLevel (s : State ι δ) : Act ι δ → Prop
  | .connect _ _ => ∀ c r, s.children c = some r → Level s r
  | _ => True

/-- The invariant, with the messages of `pending` in the place of those that the scheduler keeps. -/
structure Holds (s : State ι δ) (pending : List (Accepted δ)) : Prop where
  counted : s.droppedMessageCount = s.dropped.length
  dropped_lt : ∀ k ∈ s.dropped, k < s.nAccepted
  kept : (s.dropped ++ numbers (s.graphUnread ++ pending)).Nodup
  kept_lt : ∀ k ∈ numbers (s.graphUnread ++ pending), k < s.nAccepted
  graph : ∀ r, s.graph = some r → r.position ≤ s.ring.length
  position : ∀ c r, s.children c = some r → r.position ≤ s.ring.length
  since : ∀ c r, s.children c = some r → r.since ≤ s.nAccepted
  accounts : ∀ c r, s.children c = some r →
    Accounts r.since s.nAccepted (numbers (r.handed ++ s.unread r ++ pending)) s.dropped

abbrev Inv (s : State ι δ) : Prop := Holds s s.pendingMessagesToChildren

/-! ### Forwarding -/

/-- A first part of the messages is sent to the ring, the next part is dropped, and the rest is kept. -/
structure Forwarded (s t : State ι δ) (sent lost rest : List (Accepted δ)) : Prop where
  ring : t.ring = s.ring ++ sent
  pending : t.pendingMessagesToChildren = rest
  graph : t.graph = s.graph
  children : t.children = s.children
  droppedMessageCount : t.droppedMessageCount = s.droppedMessageCount + lost.length
  nAccepted : t.nAccepted = s.nAccepted
  dropped : t.dropped = s.dropped ++ numbers lost

theorem forwardToChildren_spec (cfg : Config) (s : State ι δ) (available : Nat) (messages : List (Accepted δ)) :
    ∃ sent lost rest, s.pendingMessagesToChildren ++ messages = sent ++ lost ++ rest ∧
      Forwarded s (forwardToChildren cfg s available messages) sent lost rest := by
  let nSent := min (s.pendingMessagesToChildren.length + messages.length) available
  let nKept := min nSent s.pendingMessagesToChildren.length
  let left := s.pendingMessagesToChildren.drop nKept ++ messages.drop (nSent - nKept)
  let nOverflow := left.length - cfg.bufferSize
  refine ⟨s.pendingMessagesToChildren.take nKept ++ messages.take (nSent - nKept), left.take nOverflow,
    left.drop nOverflow, ?_, rfl, rfl, rfl, rfl, ?_, rfl, rfl⟩
  · rw [List.append_assoc, List.take_append_drop]
    obtain hle | hle := Nat.le_total nSent s.pendingMessagesToChildren.length
    · -- only kept messages are sent
      have hz : nSent - nKept = 0 := by omega
      simp only [left, hz, List.take_zero, List.drop_zero, List.append_nil]
      rw [← List.append_assoc, List.take_append_drop]
    · -- all the kept ones are
      have hk : nKept = s.pendingMessagesToChildren.length := by omega
      simp only [left, hk, List.take_length, List.drop_length, List.nil_append]
      rw [List.append_assoc, List.take_append_drop]
  · have hlen : (left.take nOverflow).length = nOverflow := by
      rw [List.length_take]
      omega
    rw [hlen]
    rfl

variable {sent lost rest : List (Accepted δ)}

theorem Forwarded.unread (h : Forwarded s t sent lost rest)
    (hr : r.position ≤ s.ring.length) : t.unread r = s.unread r ++ sent := by
  rw [State.unread, h.ring]
  exact List.drop_append_of_le_length hr

theorem Forwarded.graphUnread (h : Forwarded s t sent lost rest)
    (hg : ∀ r, s.graph = some r → r.position ≤ s.ring.length) : t.graphUnread.Sublist (s.graphUnread ++ sent) := by
  unfold State.graphUnread
  rw [h.graph]
  cases hs : s.graph with
  | none => exact List.nil_sublist _
  | some r =>
    rw [Option.map_some, Option.map_some, Option.getD_some, Option.getD_some, h.unread (hg r hs)]

theorem Holds.forwarded (h : Holds s (sent ++ lost ++ rest))
    (hf : Forwarded s t sent lost rest) : Inv t := by
  have hgraph := (hf.graphUnread h.graph).map (·.number)
  rw [List.map_append] at hgraph
  unfold Inv
  rw [hf.pending]
  refine ⟨?_, ?_, ?_, ?_, fun r hr => ?_, fun c r hr => ?_, fun c r hr => ?_, fun c r hr => ?_⟩
  · rw [hf.droppedMessageCount, hf.dropped, List.length_append, List.length_map, h.counted]
  · rw [hf.dropped, hf.nAccepted]
    intro k hk
    obtain hk | hk := List.mem_append.mp hk
    · exact h.dropped_lt k hk
    · refine h.kept_lt k ?_
      simp only [List.map_append, List.mem_append]
      exact .inr (.inl (.inr hk))
  · rw [hf.dropped]
    refine List.nodup_iff_count_le_one.mpr fun k => ?_
    have hone := List.nodup_iff_count_le_one.mp h.kept k
    have hle := hgraph.count_le k
    simp only [numbers, List.map_append, List.count_append] at hone hle ⊢
    omega
  · rw [hf.nAccepted]
    intro k hk
    refine h.kept_lt k ?_
    simp only [List.map_append, List.mem_append] at hk ⊢
    obtain hk | hk := hk
    · obtain hk | hk := List.mem_append.mp (hgraph.mem hk)
      · exact .inl hk
      · exact .inr (.inl (.inl hk))
    · exact .inr (.inr hk)
  · rw [hf.graph] at hr
    rw [hf.ring, List.length_append]
    exact Nat.le_trans (h.graph r hr) (Nat.le_add_right _ _)
  · rw [hf.children] at hr
    rw [hf.ring, List.length_append]
    exact Nat.le_trans (h.position c r hr) (Nat.le_add_right _ _)
  · rw [hf.children] at hr
    rw [hf.nAccepted]
    exact h.since c r hr
  · rw [hf.children] at hr
    have hacc := h.accounts c r hr
    rw [hf.nAccepted, hf.dropped, hf.unread (h.position c r hr)]
    simp only [List.map_append, ← List.append_assoc] at hacc ⊢
    exact hacc.drop

theorem Holds.forwardToChildren {messages : List (Accepted δ)} (h : Holds s (s.pendingMessagesToChildren ++ messages)) :
    Inv (forwardToChildren cfg s available messages) := by
  obtain ⟨sent, lost, rest, hsplit, hf⟩ := forwardToChildren_spec cfg s available messages
  rw [hsplit] at h
  exact h.forwarded hf

/-! ### The steps -/

theorem Holds.keep {pending : List (Accepted δ)} (h : Holds s pending) :
    Inv { s with pendingMessagesToChildren := pending } :=
  ⟨h.counted, h.dropped_lt, h.kept, h.kept_lt, h.graph, h.position, h.since, h.accounts⟩

theorem Holds.accept {message : Message δ} (h : Inv s) :
    Holds { s with nAccepted := s.nAccepted + 1 } (s.pendingMessagesToChildren ++ [⟨s.nAccepted, message⟩]) where
  counted := h.counted
  dropped_lt k hk := Nat.lt_succ_of_lt (h.dropped_lt k hk)
  kept := by
    have hnew : s.nAccepted ∉ s.dropped ++ numbers (s.graphUnread ++ s.pendingMessagesToChildren) := by
      intro hm
      obtain hm | hm := List.mem_append.mp hm
      · exact Nat.lt_irrefl _ (h.dropped_lt _ hm)
      · exact Nat.lt_irrefl _ (h.kept_lt _ hm)
    have := List.nodup_append.mpr ⟨h.kept, List.nodup_singleton s.nAccepted, fun k hk m hm => by
      rintro rfl
      rw [List.mem_singleton.mp hm] at hk
      exact hnew hk⟩
    show (s.dropped ++ numbers (s.graphUnread ++ (s.pendingMessagesToChildren ++ [⟨s.nAccepted, message⟩]))).Nodup
    simpa only [List.map_append, List.append_assoc, List.map_cons, List.map_nil] using this
  kept_lt k hk := by
    rw [← List.append_assoc, numbers, List.map_append] at hk
    obtain hk | hk := List.mem_append.mp hk
    · exact Nat.lt_succ_of_lt (h.kept_lt k hk)
    · rw [List.mem_singleton.mp hk]
      exact Nat.lt_succ_self _
  graph := h.graph
  position := h.position
  since c r hr := Nat.le_succ_of_le (h.since c r hr)
  accounts c r hr := by
    have := (h.accounts c r hr).accept (h.since c r hr) h.dropped_lt
    simpa only [numbers, State.unread, List.map_append, List.append_assoc, List.map_cons, List.map_nil] using this

theorem Inv.processMessage {message : Message δ} (h : Inv s) : Inv (processMessage cfg s available message) := by
  unfold ChildMessages.processMessage
  split
  · dsimp only
    split
    · exact (Holds.accept h).forwardToChildren
    · exact (Holds.accept h).keep
  · exact h

/-- A reader that goes to the end of the ring has the unread messages in its hands. -/
theorem read_held (s : State ι δ) (r : Reader δ) (pending : List (Accepted δ)) :
    (s.read r).handed ++ s.unread (s.read r) ++ pending = r.handed ++ s.unread r ++ pending := by
  simp only [State.read, State.unread, List.drop_length, List.append_nil]

theorem Inv.readGraph (h : Inv s) : Inv { s with graph := some (s.read r) } := by
  have hgraph : ({ s with graph := some (s.read r) } : State ι δ).graphUnread = [] := by
    show s.ring.drop s.ring.length = []
    exact List.drop_length
  have hsub : (numbers s.pendingMessagesToChildren).Sublist (numbers (s.graphUnread ++ s.pendingMessagesToChildren)) :=
    (List.sublist_append_right _ _).map _
  refine ⟨h.counted, h.dropped_lt, ?_, ?_, fun r' hr' => ?_, h.position, h.since, h.accounts⟩
  · rw [hgraph, List.nil_append]
    exact h.kept.sublist (hsub.append_left _)
  · rw [hgraph, List.nil_append]
    exact fun k hk => h.kept_lt k (hsub.mem hk)
  · cases hr'
    exact Nat.le_refl _

section Children

variable [DecidableEq ι]

/-- One child's reader changes. -/
theorem Inv.setChild {x : Option (Reader δ)} (h : Inv s) (hp : ∀ r, x = some r → r.position ≤ s.ring.length)
    (hs : ∀ r, x = some r → r.since ≤ s.nAccepted)
    (ha : ∀ r, x = some r → Accounts r.since s.nAccepted (numbers (s.held r)) s.dropped) :
    Inv { s with children := update s.children c x } where
  counted := h.counted
  dropped_lt := h.dropped_lt
  kept := h.kept
  kept_lt := h.kept_lt
  graph := h.graph
  position := Transition.forall_update (P := fun _ y => ∀ r : Reader δ, y = some r → r.position ≤ s.ring.length) hp
    fun d _ => h.position d
  since := Transition.forall_update (P := fun _ y => ∀ r : Reader δ, y = some r → r.since ≤ s.nAccepted) hs fun d _ => h.since d
  accounts := Transition.forall_update
    (P := fun _ y => ∀ r, y = some r → Accounts r.since s.nAccepted (numbers (s.held r)) s.dropped) ha
    fun d _ => h.accounts d

theorem Inv.read (h : Inv s) (hr : s.children c = some r) :
    Inv { s with children := update s.children c (some (s.read r)) } := by
  refine Inv.setChild h (fun r' hr' => ?_) (fun r' hr' => ?_) fun r' hr' => ?_ <;> cases hr'
  · exact Nat.le_refl _
  · exact h.since c r hr
  · rw [State.held, read_held]
    exact h.accounts c r hr

omit [DecidableEq ι] in
theorem pending_lt (h : Inv s) : ∀ k ∈ numbers s.pendingMessagesToChildren, k < s.nAccepted := fun k hk =>
  h.kept_lt k (by simp only [List.map_append, List.mem_append, hk, or_true])

omit [DecidableEq ι] in
/-- A block that is attached now has to get none of the messages accepted so far. -/
theorem accounts_newReader (h : Inv s) :
    Accounts s.newReader.since s.nAccepted (numbers (s.held s.newReader)) s.dropped := by
  refine Accounts.joins fun k hk => pending_lt h k ?_
  simpa only [State.held, State.newReader, State.unread, List.drop_length, List.nil_append] using hk

theorem Inv.adopt (h : Inv s) : Inv { s with children := update s.children c (some s.newReader) } := by
  refine Inv.setChild h (fun r hr => ?_) (fun r hr => ?_) fun r hr => ?_ <;> cases hr
  · exact Nat.le_refl _
  · exact Nat.le_refl _
  · exact accounts_newReader h

theorem Inv.leave (h : Inv s) : Inv { s with children := update s.children c none } :=
  Inv.setChild h (by rintro r ⟨⟩) (by rintro r ⟨⟩) (by rintro r ⟨⟩)

end Children

/-- A connection moves the reader of each child, and it gives an added block one. -/
theorem connected_children {added : ι → Bool} {c : ι} {r : Reader δ}
    (hr : (match s.children c with
      | some r => some (s.reconnect r)
      | none => if added c then some s.newReader else none) = some r) :
    (∃ r₀, s.children c = some r₀ ∧ r = s.reconnect r₀) ∨ r = s.newReader := by
  cases hc : s.children c with
  | some r₀ =>
    rw [hc] at hr
    cases hr
    exact .inl ⟨r₀, rfl, rfl⟩
  | none =>
    rw [hc] at hr
    dsimp only at hr
    split at hr <;> cases hr
    exact .inr rfl

/-- New readers stand behind the unread messages, which are sent again. -/
theorem Inv.connectBlockMessagePorts (h : Inv s) (cfg : Config) (added : ι → Bool) (available : Nat)
    (hl : ∀ c r, s.children c = some r → Level s r) : Inv (connectBlockMessagePorts cfg s added available) := by
  unfold ChildMessages.connectBlockMessagePorts
  refine Holds.forwardToChildren ?_
  rw [List.append_nil]
  have none_unread (r : Reader δ) (hr : r.position = s.ring.length) : s.unread r = [] := by
    rw [State.unread, hr, List.drop_length]
  refine ⟨h.counted, h.dropped_lt, ?_, ?_, fun r hr => ?_, fun c r hr => ?_, fun c r hr => ?_, fun c r hr => ?_⟩
  · show (s.dropped ++ numbers (s.ring.drop s.ring.length ++ (s.graphUnread ++ s.pendingMessagesToChildren))).Nodup
    rw [List.drop_length, List.nil_append]
    exact h.kept
  · show ∀ k ∈ numbers (s.ring.drop s.ring.length ++ (s.graphUnread ++ s.pendingMessagesToChildren)), k < s.nAccepted
    rw [List.drop_length, List.nil_append]
    exact h.kept_lt
  · cases hr
    exact Nat.le_refl _
  · obtain ⟨r₀, -, rfl⟩ | rfl := connected_children hr <;> exact Nat.le_refl _
  · obtain ⟨r₀, hr₀, rfl⟩ | rfl := connected_children hr
    · exact h.since c r₀ hr₀
    · exact Nat.le_refl _
  · show Accounts r.since s.nAccepted
      (numbers (r.handed ++ s.unread r ++ (s.graphUnread ++ s.pendingMessagesToChildren))) s.dropped
    obtain ⟨r₀, hr₀, rfl⟩ | rfl := connected_children hr
    · refine (h.accounts c r₀ hr₀).congr ?_
      have hlevel : (numbers (s.unread r₀)).filter (r₀.since ≤ ·) = (numbers s.graphUnread).filter (r₀.since ≤ ·) :=
        hl c r₀ hr₀
      rw [none_unread (s.reconnect r₀) rfl]
      simp only [State.reconnect, numbers, List.map_append, List.filter_append, List.append_nil] at hlevel ⊢
      rw [hlevel, List.append_assoc]
    · refine Accounts.joins fun k hk => h.kept_lt k ?_
      rw [none_unread s.newReader rfl] at hk
      simpa only [State.newReader, List.nil_append] using hk

theorem Inv.dropMessagesToChildren (h : Inv s) : Inv (dropMessagesToChildren s) := by
  have hf : Forwarded s (ChildMessages.dropMessagesToChildren s) [] s.pendingMessagesToChildren [] :=
    ⟨(List.append_nil _).symm, rfl, rfl, rfl, rfl, rfl, rfl⟩
  refine Holds.forwarded ?_ hf
  rw [List.nil_append, List.append_nil]
  exact h

/-- The blocks of the graph that goes are no children any more. -/
theorem Inv.clear {graph : Option (Reader δ)} (h : Inv s) (hg : graph = none ∨ graph = s.graph) :
    Inv { s with graph := graph, children := fun _ : ι => none } := by
  refine ⟨h.counted, h.dropped_lt, ?_, ?_, ?_, by rintro c r ⟨⟩, by rintro c r ⟨⟩, by rintro c r ⟨⟩⟩ <;>
    obtain rfl | rfl := hg
  · exact h.kept.sublist (((List.sublist_append_right _ _).map _).append_left _)
  · exact h.kept
  · exact pending_lt h
  · exact h.kept_lt
  · rintro r ⟨⟩
  · exact h.graph

/-- A `reset()` for the graph that goes connects no child that counts. -/
theorem Inv.exchange (h : Inv s) :
    Inv { ChildMessages.connectBlockMessagePorts cfg s (fun _ => false) available with
      graph := none
      children := fun _ : ι => none } := by
  have hclear : Inv { s with children := fun _ : ι => none } := h.clear (.inr rfl)
  have hconnect := hclear.connectBlockMessagePorts cfg (fun _ => false) available (by rintro c r ⟨⟩)
  exact hconnect.clear (.inl rfl)

section Runs

variable [DecidableEq ι]

theorem Inv.step (h : Inv s) (hl : ConnectsLevel s a) (hs : ChildMessages.step cfg s a = some t) : Inv t := by
  cases a with
  | process available message =>
    cases hs
    exact h.processMessage
  | forward available =>
    simp only [ChildMessages.step] at hs
    split at hs <;> cases hs
    refine Holds.forwardToChildren ?_
    rw [List.append_nil]
    exact h
  | readGraph =>
    obtain ⟨r, -, rfl⟩ := Option.map_eq_some_iff.mp hs
    exact h.readGraph
  | read c =>
    obtain ⟨r, hr, rfl⟩ := Option.map_eq_some_iff.mp hs
    exact h.read hr
  | connect added available =>
    cases hs
    exact h.connectBlockMessagePorts cfg added available hl
  | adopt c =>
    simp only [ChildMessages.step] at hs
    split at hs <;> cases hs
    exact h.adopt
  | leave c =>
    cases hs
    exact h.leave
  | exchange resets =>
    cases hs
    have hdrop : Inv (if s.messagePortsConnected then ChildMessages.dropMessagesToChildren s else s) := by
      split
      · exact h.dropMessagesToChildren
      · exact h
    cases resets with
    | none => exact hdrop.clear (.inl rfl)
    | some available => exact hdrop.exchange

theorem inv_of_reach (h : (system cfg ι δ).Reach ConnectsLevel s) : Inv s := by
  refine h.invariant ?_ fun _ _ _ hI hl hs => hI.step hl hs
  rintro s rfl
  exact ⟨rfl, by rintro k ⟨⟩, .nil, by rintro k ⟨⟩, by rintro r ⟨⟩, by rintro c r ⟨⟩, by rintro c r ⟨⟩, by rintro c r ⟨⟩⟩

/-- In a run whose connections of the message ports all find the children as far as the graph, no message vanishes
    uncounted, and none comes twice or out of order. -/
theorem messages_accounted (cfg : Config) (h : (system cfg ι δ).Reach ConnectsLevel s) (hr : s.children c = some r) :
    Accounted s r := by
  have hinv := inv_of_reach h
  have hacc := hinv.accounts c r hr
  have hdropped : s.dropped.Nodup := (List.nodup_append.mp hinv.kept).1
  exact ⟨fun k hs hn => hacc.count_eq_one hdropped hs hn, hacc.inOrder, hinv.counted⟩

end Runs

/-! ### One child -/

def small : Config := ⟨"scheduler#0", "scheduler", 4⟩

def toAll : Message Unit := ⟨"", "Settings", ()⟩

/-- The child reads a message, or the graph does, or both, and then a `reset()` connects them again. -/
def resetAfter (reads : List (Act Unit Unit)) : List (Act Unit Unit) :=
  [.connect (fun _ => true) 4, .process 4 toAll] ++ reads ++ [.connect (fun _ => false) 4]

theorem messages_accounted_reset : ∃ (s : State Unit Unit) (r : Reader Unit), s.children () = some r ∧
    numbers r.handed = [0] ∧ Accounted s r := by
  have h : (system small Unit Unit).Reach ConnectsLevel _ :=
    (system small Unit Unit).reach_get (resetAfter [.readGraph, .read ()]) rfl
      ⟨by rintro c r ⟨⟩, trivial, trivial, trivial, fun c r hr => by cases hr; rfl, trivial⟩ (by decide)
  have hr : (((system small Unit Unit).run initial (resetAfter [.readGraph, .read ()])).get (by decide)).children () =
      some ⟨1, [⟨0, toAll⟩], 0⟩ := by decide
  exact ⟨_, _, hr, rfl, messages_accounted small h hr⟩

/-- A message that only the graph has read reaches no child and is not counted; one that only the child has read reaches it
    again. -/
theorem reset_loses_message :
    (∃ s r, (system small Unit Unit).Reachable s ∧ s.children () = some r ∧ s.nAccepted = 1 ∧ r.since = 0 ∧ s.held r = [] ∧
      s.droppedMessageCount = 0 ∧ ¬ Accounted s r) ∧
    ∃ s r, (system small Unit Unit).Reachable s ∧ s.children () = some r ∧ numbers (s.held r) = [0, 0] ∧
      ¬ Accounted s r := by
  refine ⟨⟨_, _, (system small Unit Unit).reachable_get (resetAfter [.readGraph]) rfl (by decide), rfl, by decide,
    by decide, by decide, by decide, fun h => ?_⟩, ⟨_, _, (system small Unit Unit).reachable_get (resetAfter [.read ()]) rfl
    (by decide), rfl, by decide, fun h => ?_⟩⟩
  · exact absurd (h.once 0 (by decide) (by decide)) (by decide)
  · exact absurd (h.once 0 (by decide) (by decide)) (by decide)

end GnuRadio.ChildMessages
