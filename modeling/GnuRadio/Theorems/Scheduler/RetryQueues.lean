import GnuRadio.Scheduler.RetryQueues

/-! No message of a retry list is lost unseen: each is in the ring, kept, or counted as dropped. -/

namespace GnuRadio.RetryQueues

open Backlog (Queue Conserved)

variable {μ : Type} {cfg : Config μ} {s : State μ} {k : Kept} {room : Room} {messages : List μ}

/-- The messages that a list keeps for a later call. -/
def Config.keeps (cfg : Config μ) (k : Kept) (message : μ) : Bool :=
  match k with
  | .unforwardedReplies => !cfg.isNotify message
  | _ => true

/-- The messages that a call brings to a list. -/
def Call.batch (call : Call μ) (k : Kept) : List μ :=
  match call, k with
  | .forwardToChildren _ messages, .pendingMessagesToChildren => messages
  | .forwardToMsgOut _ messages, .unforwardedReplies => messages
  | .sendReply _ _ reply, .unsentReplies => [reply]
  | _, _ => []

/-- What is kept fits in the ring, and each message is accounted for. -/
structure Sound (cfg : Config μ) (s : State μ) : Prop where
  conserved : ∀ k, Conserved (cfg.keeps k) (s.queues k)
  bounded : ∀ k, (s.queues k).kept.length ≤ cfg.bufferSize k
  counted : s.droppedMessageCount = (s.queues .pendingMessagesToChildren).dropped.length +
    (s.queues .unforwardedReplies).dropped.length + (s.queues .unsentReplies).dropped.length

/-! ### One call -/

@[simp] theorem setQueue_queues (queue : Queue μ) (j : Kept) :
    (s.setQueue k queue).queues j = if j = k then queue else s.queues j :=
  Function.update_apply s.queues k queue j

@[simp] theorem setKept_queues (kept : List μ) (j : Kept) :
    (s.setKept k kept).queues j = if j = k then { s.queues k with kept := kept } else s.queues j :=
  setQueue_queues _ _

@[simp] theorem write_queues (messages : List μ) (j : Kept) : (s.write k messages).queues j =
    if j = k then { s.queues k with written := (s.queues k).written ++ messages } else s.queues j :=
  setQueue_queues _ _

@[simp] theorem accept_queues (messages : List μ) (j : Kept) : (s.accept k messages).queues j =
    if j = k then { s.queues k with accepted := (s.queues k).accepted ++ messages } else s.queues j :=
  setQueue_queues _ _

@[simp] theorem drop_queues (messages : List μ) (j : Kept) : (s.drop k messages).queues j =
    if j = k then { s.queues k with dropped := (s.queues k).dropped ++ messages } else s.queues j :=
  setQueue_queues _ _

/-- The slots of a span go to the first messages. -/
theorem take_append_take (kept messages : List μ) (n : Nat) :
    kept.take (min n kept.length) ++ messages.take (n - min n kept.length) = (kept ++ messages).take n := by
  rw [List.take_append, ← List.take_eq_take_min]
  obtain h | h := Nat.le_total n kept.length
  · rw [Nat.min_eq_left h, Nat.sub_self, Nat.sub_eq_zero_of_le h]
  · rw [Nat.min_eq_right h]

theorem drop_append_drop (kept messages : List μ) (n : Nat) :
    kept.drop (min n kept.length) ++ messages.drop (n - min n kept.length) = (kept ++ messages).drop n := by
  rw [List.drop_append]
  obtain h | h := Nat.le_total n kept.length
  · rw [Nat.min_eq_left h, Nat.sub_self, Nat.sub_eq_zero_of_le h]
  · rw [Nat.min_eq_right h, List.drop_length, List.drop_of_length_le h]

/-- A call on a list: what it writes comes before what it leaves. -/
theorem call_of_left {keeps : μ → Bool} {capacity : Nat} {q q' : Queue μ} {batch : List μ}
    (sent left : List μ) (hleft : q.kept ++ batch = sent ++ left) (hwritten : q'.written = q.written ++ sent)
    (haccepted : q'.accepted = q.accepted ++ batch)
    (hkept : q'.kept = (left.filter keeps).drop ((left.filter keeps).length - capacity))
    (hdropped : q'.dropped = q.dropped ++ (left.filter fun message => !keeps message) ++
      (left.filter keeps).take ((left.filter keeps).length - capacity)) :
    Backlog.Call keeps capacity q batch sent ((left.filter keeps).take ((left.filter keeps).length - capacity)) q' where
  written := hwritten
  accepted := haccepted
  kept := by
    refine ⟨left, hleft, ?_, ?_⟩
    · rw [hkept, List.take_append_drop]
    · rw [hdropped, List.append_assoc]
  bounded := by
    rw [hkept, List.length_drop]
    omega
  full hlost := by
    have hlt : capacity < (left.filter keeps).length := by
      by_contra hle
      exact hlost (by rw [Nat.sub_eq_zero_of_le (Nat.le_of_not_lt hle), List.take_zero])
    rw [hkept, List.length_drop]
    omega

theorem forward_call (keeps : μ → Bool) (hworth : ∀ x ∈ (s.queues k).kept, keeps x = true) : ∃ sent lost,
    Backlog.Call keeps (cfg.bufferSize k) (s.queues k) messages sent lost
      ((s.forward cfg k keeps room messages).queues k) := by
  set kept := (s.queues k).kept with hk
  set nSent := min room.granted (min (kept.length + messages.length) room.available) with hn
  have hfilter : ((kept ++ messages).drop nSent).filter keeps =
      kept.drop (min nSent kept.length) ++ (messages.drop (nSent - min nSent kept.length)).filter keeps := by
    rw [← drop_append_drop, List.filter_append, List.filter_eq_self.mpr fun x hx => hworth x (List.mem_of_mem_drop hx)]
  have hnone : ((kept ++ messages).drop nSent).filter (fun message => !keeps message) =
      (messages.drop (nSent - min nSent kept.length)).filter fun message => !keeps message := by
    rw [← drop_append_drop, List.filter_append,
      List.filter_eq_nil_iff.mpr fun x hx => by simp [hworth x (List.mem_of_mem_drop hx)], List.nil_append]
  refine ⟨_, _, call_of_left ((kept ++ messages).take nSent) ((kept ++ messages).drop nSent)
    (List.take_append_drop nSent _).symm ?_ ?_ ?_ ?_⟩
  · simp [State.forward, State.dropOverflow, ← take_append_take, ← hk, ← hn]
  · simp [State.forward, State.dropOverflow]
  · rw [hfilter]
    simp [State.forward, State.dropOverflow, ← hk, ← hn]
  · rw [hfilter, hnone]
    simp [State.forward, State.dropOverflow, ← hk, ← hn]

theorem forward_other (keeps : μ → Bool) {j : Kept} (hj : j ≠ k) :
    (s.forward cfg k keeps room messages).queues j = s.queues j := by
  simp [State.forward, State.dropOverflow, hj]

/-- A call that does not use a list. -/
theorem call_idle {keeps : μ → Bool} {capacity : Nat} {q : Queue μ} (hworth : ∀ x ∈ q.kept, keeps x = true)
    (hbounded : q.kept.length ≤ capacity) : Backlog.Call keeps capacity q [] [] [] q where
  written := (List.append_nil _).symm
  accepted := (List.append_nil _).symm
  kept := by
    refine ⟨q.kept, List.append_nil _, List.filter_eq_self.mpr hworth, ?_⟩
    rw [List.filter_eq_nil_iff.mpr fun x hx => by simp [hworth x hx], List.append_nil, List.append_nil]
  bounded := hbounded
  full h := absurd rfl h

theorem sendUnsentReplies_sends (s : State μ) (room : Room) : ∃ n, s.sendUnsentReplies room =
    (s.write .unsentReplies ((s.queues .unsentReplies).kept.take n)).setKept .unsentReplies
      ((s.queues .unsentReplies).kept.drop n) := by
  have hself : s = (s.write .unsentReplies ((s.queues .unsentReplies).kept.take 0)).setKept .unsentReplies
      ((s.queues .unsentReplies).kept.drop 0) := by
    simp only [State.setKept, State.write, State.setQueue, List.take_zero, List.drop_zero, List.append_nil,
      Function.update_eq_self]
  unfold State.sendUnsentReplies
  dsimp only
  split
  · exact ⟨0, hself⟩
  · split
    · exact ⟨0, hself⟩
    · exact ⟨_, rfl⟩

theorem sendUnsentReplies_call (hbounded : (s.queues .unsentReplies).kept.length ≤ cfg.bufferSize .unsentReplies) :
    ∃ sent lost, Backlog.Call (fun _ => true) (cfg.bufferSize .unsentReplies) (s.queues .unsentReplies) [] sent lost
      ((s.sendUnsentReplies room).queues .unsentReplies) := by
  obtain ⟨n, hn⟩ := sendUnsentReplies_sends s room
  have hfit : ((s.queues .unsentReplies).kept.drop n).length - cfg.bufferSize .unsentReplies = 0 := by
    rw [List.length_drop]
    omega
  rw [hn]
  refine ⟨_, _, call_of_left ((s.queues .unsentReplies).kept.take n) ((s.queues .unsentReplies).kept.drop n)
    ?_ ?_ ?_ ?_ ?_⟩
  · rw [List.append_nil, List.take_append_drop]
  · simp
  · simp
  · rw [List.filter_true, hfit]
    simp
  · rw [List.filter_true, hfit]
    simp

theorem sendReply_call (granted : Nat) (reply : μ) : ∃ sent lost,
    Backlog.Call (fun _ => true) (cfg.bufferSize .unsentReplies) (s.queues .unsentReplies) [reply] sent lost
      ((s.sendReply cfg room granted reply).queues .unsentReplies) := by
  obtain ⟨n, hn⟩ := sendUnsentReplies_sends s room
  unfold State.sendReply
  rw [hn]
  dsimp only
  split
  · next h =>
    have hall : (s.queues .unsentReplies).kept.drop n = [] := by simpa using h.1
    have htake : (s.queues .unsentReplies).kept.take n = (s.queues .unsentReplies).kept := by
      have hsplit := List.take_append_drop n (s.queues .unsentReplies).kept
      rwa [hall, List.append_nil] at hsplit
    refine ⟨_, _, call_of_left ((s.queues .unsentReplies).kept ++ [reply]) [] (List.append_nil _).symm ?_ ?_ ?_ ?_⟩
    · simp [htake]
    · simp
    · simp [hall]
    · simp
  · refine ⟨_, _, call_of_left ((s.queues .unsentReplies).kept.take n)
      ((s.queues .unsentReplies).kept.drop n ++ [reply]) ?_ ?_ ?_ ?_ ?_⟩
    · rw [← List.append_assoc, List.take_append_drop]
    · simp [State.dropOverflow]
    · simp [State.dropOverflow]
    · simp [State.dropOverflow]
    · simp [State.dropOverflow]

theorem sendUnsentReplies_other {j : Kept} (hj : j ≠ .unsentReplies) :
    (s.sendUnsentReplies room).queues j = s.queues j := by
  obtain ⟨n, hn⟩ := sendUnsentReplies_sends s room
  simp [hn, hj]

theorem sendReply_other (granted : Nat) (reply : μ) {j : Kept} (hj : j ≠ .unsentReplies) :
    (s.sendReply cfg room granted reply).queues j = s.queues j := by
  unfold State.sendReply
  dsimp only
  split <;> simp [State.dropOverflow, hj, sendUnsentReplies_other hj]

/-- What a call does to each list. -/
theorem step_call (h : Sound cfg s) (call : Call μ) (k : Kept) : ∃ sent lost,
    Backlog.Call (cfg.keeps k) (cfg.bufferSize k) (s.queues k) (call.batch k) sent lost
      ((step cfg s call).queues k) := by
  have hidle := call_idle (h.conserved k).worth (h.bounded k)
  cases call with
  | forwardToChildren room messages =>
    by_cases hk : k = .pendingMessagesToChildren
    · subst hk
      exact forward_call _ fun _ _ => rfl
    · have hsame : (step cfg s (.forwardToChildren room messages)).queues k = s.queues k := forward_other _ hk
      rw [hsame]
      cases k <;> first | exact absurd rfl hk | exact ⟨[], [], hidle⟩
  | forwardToMsgOut room messages =>
    by_cases hk : k = .unforwardedReplies
    · subst hk
      exact forward_call _ (h.conserved _).worth
    · have hsame : (step cfg s (.forwardToMsgOut room messages)).queues k = s.queues k := forward_other _ hk
      rw [hsame]
      cases k <;> first | exact absurd rfl hk | exact ⟨[], [], hidle⟩
  | sendReply room granted reply =>
    by_cases hk : k = .unsentReplies
    · subst hk
      exact sendReply_call granted reply
    · have hsame : (step cfg s (.sendReply room granted reply)).queues k = s.queues k := sendReply_other _ _ hk
      rw [hsame]
      cases k <;> first | exact absurd rfl hk | exact ⟨[], [], hidle⟩
  | sendUnsentReplies room =>
    by_cases hk : k = .unsentReplies
    · subst hk
      exact sendUnsentReplies_call (h.bounded _)
    · have hsame : (step cfg s (.sendUnsentReplies room)).queues k = s.queues k := sendUnsentReplies_other hk
      rw [hsame]
      cases k <;> exact ⟨[], [], hidle⟩

/-! ### The count -/

/-- The messages that the lists dropped. -/
def State.nDropped (s : State μ) : Nat :=
  (s.queues .pendingMessagesToChildren).dropped.length + (s.queues .unforwardedReplies).dropped.length +
    (s.queues .unsentReplies).dropped.length

theorem nDropped_setQueue (s : State μ) (k : Kept) (queue : Queue μ) :
    (s.setQueue k queue).nDropped + (s.queues k).dropped.length = s.nDropped + queue.dropped.length := by
  cases k <;> simp [State.nDropped] <;> omega

def Counted (s : State μ) : Prop := s.droppedMessageCount = s.nDropped

theorem Counted.setQueue (h : Counted s) {queue : Queue μ} (hq : queue.dropped = (s.queues k).dropped) :
    Counted (s.setQueue k queue) := by
  have hn := nDropped_setQueue s k queue
  rw [hq] at hn
  unfold Counted at h ⊢
  exact h.trans (by omega)

theorem Counted.drop (h : Counted s) (messages : List μ) : Counted (s.drop k messages) := by
  have hn := nDropped_setQueue s k { s.queues k with dropped := (s.queues k).dropped ++ messages }
  rw [List.length_append] at hn
  unfold Counted at h ⊢
  have hcount : (s.drop k messages).droppedMessageCount = s.droppedMessageCount + messages.length := rfl
  have hsum : (s.drop k messages).nDropped =
    (s.setQueue k { s.queues k with dropped := (s.queues k).dropped ++ messages }).nDropped := rfl
  omega

theorem Counted.setKept (h : Counted s) (kept : List μ) : Counted (s.setKept k kept) :=
  Counted.setQueue h rfl

theorem Counted.write (h : Counted s) (messages : List μ) : Counted (s.write k messages) :=
  Counted.setQueue h rfl

theorem Counted.accept (h : Counted s) (messages : List μ) : Counted (s.accept k messages) :=
  Counted.setQueue h rfl

theorem Counted.dropOverflow (h : Counted s) : Counted (s.dropOverflow cfg k) :=
  (h.setKept _).drop _

theorem Counted.forward (h : Counted s) (keeps : μ → Bool) : Counted (s.forward cfg k keeps room messages) :=
  ((((h.accept _).write _).setKept _).drop _).dropOverflow

theorem Counted.sendUnsentReplies (h : Counted s) : Counted (s.sendUnsentReplies room) := by
  obtain ⟨n, hn⟩ := sendUnsentReplies_sends s room
  rw [hn]
  exact (h.write _).setKept _

theorem Counted.step (h : Counted s) (call : Call μ) : Counted (step cfg s call) := by
  cases call with
  | forwardToChildren room messages => exact h.forward _
  | forwardToMsgOut room messages => exact h.forward _
  | sendReply room granted reply =>
    have haccept : Counted ((s.sendUnsentReplies room).accept .unsentReplies [reply]) :=
      h.sendUnsentReplies.accept _
    change Counted (s.sendReply cfg room granted reply)
    unfold State.sendReply
    dsimp only
    split
    · exact haccept.write _
    · exact (haccept.setKept _).dropOverflow
  | sendUnsentReplies room => exact h.sendUnsentReplies

/-! ### Runs -/

theorem Sound.step (h : Sound cfg s) (call : Call μ) : Sound cfg (step cfg s call) where
  conserved k := by
    obtain ⟨sent, lost, hcall⟩ := step_call h call k
    exact (h.conserved k).call hcall
  bounded k := by
    obtain ⟨sent, lost, hcall⟩ := step_call h call k
    exact hcall.bounded
  counted := Counted.step h.counted call

theorem sound_reachable (h : (system cfg).Reachable s) : Sound cfg s := by
  refine h.invariant (fun s hs => ?_) fun s call t hs _ ht => ?_
  · have hs' : s = ⟨fun _ => ⟨[], [], [], []⟩, 0⟩ := hs
    subst hs'
    exact ⟨fun k => .empty _, fun k => Nat.zero_le _, rfl⟩
  · have ht' : some (RetryQueues.step cfg s call) = some t := ht
    cases ht'
    exact hs.step call

/-- In every run, each accepted message is in the ring, kept or counted as dropped, the written ones in the order of their
    acceptance; and a call drops notifications for `msgOut` and, from a list that stays full, the oldest messages. -/
theorem conserves (h : (system cfg).Reachable s) : Sound cfg s ∧ ∀ call k, ∃ sent lost,
    Backlog.Call (cfg.keeps k) (cfg.bufferSize k) (s.queues k) (call.batch k) sent lost
      ((step cfg s call).queues k) :=
  ⟨sound_reachable h, fun call k => step_call (sound_reachable h) call k⟩

/-- Rings of two slots; even messages are notifications. -/
def twoSlots : Config Nat := ⟨fun _ => 2, fun message => message % 2 = 0⟩

/-- Of four messages, one fits in the ring, a notification is dropped, and two replies are kept. -/
def nearlyFull : List (Call Nat) := [.forwardToMsgOut ⟨1, 1⟩ [1, 2, 3, 5], .forwardToMsgOut ⟨2, 0⟩ [7]]

def nearlyFullState : State Nat := nearlyFull.foldl (step twoSlots) ⟨fun _ => ⟨[], [], [], []⟩, 0⟩

/-- A span of no slots leaves the newest two replies. -/
theorem nearlyFull_conserved : Sound twoSlots nearlyFullState ∧ nearlyFullState.droppedMessageCount = 2 ∧
    (nearlyFullState.queues .unforwardedReplies).kept = [5, 7] :=
  ⟨(conserves ((system twoSlots).reachable_get nearlyFull rfl rfl)).1, by decide, by decide⟩

end GnuRadio.RetryQueues
