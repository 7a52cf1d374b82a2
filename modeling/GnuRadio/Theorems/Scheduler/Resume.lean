import GnuRadio.Scheduler.Swap
import GnuRadio.Theorems.Graph.FeedbackLoops
import GnuRadio.Theorems.Graph.Wiring
import GnuRadio.Theorems.Scheduler.Quiescence

/-! What a resume does to the streams of a connected graph. It connects the edges whose records still wait, which moves the
    reader of each to the end of its ring, and it primes the feedback loops once more. -/

namespace GnuRadio.Resume
open Graph Wiring Function

variable {α β ι ω : Type}

/-- The streams of two states are the same. -/
abbrev Same (s t : State α β ι ω) : Prop := StreamsKept s.wiring t.wiring

mutual

theorem mem_subgraphs_wrapped (g : Graph.Graph ι ω) (x : Graph.Graph ι ω) :
    x ∈ g.subgraphs (· == .transparentBlockGroup) ↔
      x = g ∨ x ∈ (g.subgraphs (· == .transparentBlockGroup)).flatMap fun sub => sub.members.wrapped := by
  obtain ⟨name, blocks, edges, ins, outs⟩ := g
  rw [Graph.subgraphs, List.mem_cons, List.flatMap_cons, List.mem_append, mem_members_wrapped blocks x]
  rfl

theorem mem_members_wrapped (m : Members ι ω) (x : Graph.Graph ι ω) :
    x ∈ m.subgraphs (· == .transparentBlockGroup) ↔
      x ∈ m.wrapped ∨ x ∈ (m.subgraphs (· == .transparentBlockGroup)).flatMap fun sub => sub.members.wrapped := by
  cases m with
  | nil => simp [Members.subgraphs, Members.wrapped]
  | block b rest =>
    rw [Members.subgraphs, Members.wrapped]
    exact mem_members_wrapped rest x
  | group b category g rest =>
    have hg := mem_subgraphs_wrapped g x
    have hrest := mem_members_wrapped rest x
    rw [Members.subgraphs, Members.wrapped]
    cases category with
    | transparentBlockGroup =>
      rw [if_pos (by decide), if_pos rfl, List.mem_append, List.mem_cons, List.flatMap_append, List.mem_append, hg, hrest]
      tauto
    | scheduledBlockGroup =>
      rw [if_neg (by decide), if_neg (by decide)]
      exact hrest

end

variable {e : Edge ι ω}

/-- The edge has joined its two ports, whatever its record says of it. -/
structure Wired (c : Config ι ω) (s : State α β ι ω) (e : Edge ι ω) (o : ω) (i : ι) (r : Reader) : Prop where
  source : e.source = some o
  destination : e.destination = some i
  typeName : (c.outputInfo o).typeName = (c.inputInfo i).typeName
  portType : (c.outputInfo o).portType = (c.inputInfo i).portType
  current : s.wiring.current o = some r.ring
  reader : s.wiring.reader i = some r
  recorded : s.edgeState e = .waitingToBeConnected ∨ s.edgeState e = .connected

/-- Every edge of the graph and of its transparent groups has joined its ports. -/
def Connected (c : Config ι ω) (s : State α β ι ω) : Prop := ∀ e ∈ s.graph.forEachEdge, ∃ o i r, Wired c s e o i r

/-- No record waits for a connection while its input has something queued. -/
def Settled (s : State α β ι ω) (e : Edge ι ω) : Prop :=
  s.edgeState e = .waitingToBeConnected → ∀ i ∈ e.destination, s.wiring.Drained i

/-- The loop gets samples if it is primed now: its priming size is defined, and the input that priming takes for the
    closing edge is connected and has room for so many. -/
def CanPrime [Fintype ι] [Fintype ω] (s : State α β ι ω) (loop : List (Edge ι ω)) : Prop :=
  ∃ n closing portIdx i r, calculateLoopPrimingSize loop = some n ∧ loop.getLast? = some closing ∧
    closing.destinationBlock.inputs.absolutePortIndex closing.destinationPortDefinition = some portIdx ∧
    closing.destinationBlock.streamInputs[portIdx]? = some i ∧ s.wiring.reader i = some r ∧
    s.wiring.inputConnected i = true ∧ s.wiring.HasRoom r.ring n

/-- A resume has nothing to connect that would lose samples, and no loop to prime. -/
def Untouched [DecidableEq ω] [Fintype ι] [Fintype ω] (c : Config ι ω) (s : State α β ι ω) : Prop :=
  (∀ e ∈ s.graph.forEachEdge, Settled s e) ∧ ∀ loop ∈ detectFeedbackLoops c s.graph, ¬ CanPrime s loop

/-- What holds while a resume connects: the graph is the one before, its edges have joined their ports, and none of its
    blocks runs. -/
structure Inv (c : Config ι ω) (g : Graph.Graph ι ω) (s : State α β ι ω) : Prop where
  graph : s.graph = g
  connected : Connected c s
  notRunning : ∀ b ∈ g.forEachBlock, s.blockState b.uniqueName ≠ .running

variable {c : Config ι ω} {s t : State α β ι ω}

theorem Wired.of_same {o : ω} {i : ι} {r : Reader}
    (h : Wired c s e o i r) (hst : Same s t) (he : t.edgeState e = s.edgeState e) : Wired c t e o i r :=
  { h with
    current := (hst.current o r.ring (reads_of_reader h.reader)).mpr h.current
    reader := (congrFun hst.reader i).trans h.reader
    recorded := by
      rw [he]
      exact h.recorded }

theorem Inv.of_same {g : Graph.Graph ι ω} (h : Inv c g s) (hst : Same s t)
    (hg : t.graph = s.graph) (he : t.edgeState = s.edgeState) (hb : t.blockState = s.blockState) : Inv c g t where
  graph := hg.trans h.graph
  connected e hm := by
    rw [hg] at hm
    obtain ⟨o, i, r, hw⟩ := h.connected e hm
    exact ⟨o, i, r, hw.of_same hst (congrFun he e)⟩
  notRunning b hm := by
    rw [hb]
    exact h.notRunning b hm

variable {s : State α β ι ω}

/-- A reader that moves to the end of its ring leaves every edge joined to its ports. -/
theorem Wired.setReader [DecidableEq ι] {o : ω} {i j : ι} {r q : Reader} (h : Wired c s e o i r)
    (hj : s.wiring.reader j = some q) (ht : t.wiring = s.wiring.setReader j q.ring)
    (he : t.edgeState e = .waitingToBeConnected ∨ t.edgeState e = .connected) : ∃ r', Wired c t e o i r' := by
  by_cases hij : i = j
  · subst hij
    cases h.reader.symm.trans hj
    obtain ⟨r', hr', hring⟩ := setReader_reader hj
    refine ⟨r', { h with current := ?_, reader := ?_, recorded := he }⟩
    · rw [ht, hring]
      exact h.current
    · rw [ht]
      exact hr'
  · refine ⟨r, { h with current := ?_, reader := ?_, recorded := he }⟩
    · rw [ht]
      exact h.current
    · rw [ht]
      exact (update_of_ne hij _ _).trans h.reader

/-- Only the states of blocks differ. -/
structure OnlyStates (s t : State α β ι ω) : Prop where
  graph : t.graph = s.graph
  wiring : t.wiring = s.wiring
  edgeState : t.edgeState = s.edgeState

namespace OnlyStates

theorem refl (s : State α β ι ω) : OnlyStates s s := ⟨rfl, rfl, rfl⟩

theorem trans {s t u : State α β ι ω} (h : OnlyStates s t) (h' : OnlyStates t u) : OnlyStates s u :=
  ⟨h'.graph.trans h.graph, h'.wiring.trans h.wiring, h'.edgeState.trans h.edgeState⟩

theorem foldl {step : State α β ι ω → Block ι ω → State α β ι ω} (h : ∀ s b, OnlyStates s (step s b))
    (bs : List (Block ι ω)) (s : State α β ι ω) : OnlyStates s (bs.foldl step s) := by
  induction bs generalizing s with
  | nil => exact .refl s
  | cons b bs ih => exact (h s b).trans (ih _)

theorem same {s t : State α β ι ω} (h : OnlyStates s t) : Same s t := by
  unfold Same
  rw [h.wiring]
  exact .refl _

theorem connected {c : Config ι ω} {s t : State α β ι ω} (h : OnlyStates s t) (hs : Connected c s) :
    Connected c t := by
  intro e he
  rw [h.graph] at he
  obtain ⟨o, i, r, hw⟩ := hs e he
  exact ⟨o, i, r, hw.of_same h.same (congrFun h.edgeState e)⟩

end OnlyStates

section Ports
variable [Fintype ι] [Fintype ω] {s t : State α β ι ω}

theorem CanPrime.of_same (hst : Same s t) {loop : List (Edge ι ω)} (h : CanPrime s loop) :
    CanPrime t loop := by
  obtain ⟨n, closing, portIdx, i, r, hn, hlast, hidx, hi, hr, hcon, hroom⟩ := h
  exact ⟨n, closing, portIdx, i, r, hn, hlast, hidx, hi, (congrFun hst.reader i).trans hr,
    (hst.inputConnected_eq i).trans hcon, (hst.hasRoom (reads_of_reader hr) n).mpr hroom⟩

section Priming
variable [Inhabited α]

variable [DecidableEq ω] (c : Config ι ω) (g : Graph.Graph ι ω)

end Priming

/-! ### Connecting -/

section Connect
variable [DecidableEq ι] [DecidableEq ω] (c : Config ι ω)

section Resume
variable [Inhabited α] {s : State α β ι ω}

end Resume

end Connect

end Ports

/-! ### Examples -/

section Examples

local instance twoPorts : NeZero 2 := ⟨Nat.succ_ne_zero 1⟩

def floats : PortInfo := ⟨"float", .stream, true, false, true⟩

/-- A block with these ports that needs one sample and makes one sample at a time. -/
def block (uniqueName : Nat) (inputs : List (Fin 2)) (outputs : List (Fin 2)) : Block (Fin 2) (Fin 2) where
  uniqueName := uniqueName
  inputs := inputs.map (.port "in")
  outputs := outputs.map (.port "out")
  streamInputs := inputs
  inputChunkSize := 1
  outputChunkSize := 1
  stride := 0
  minSamples := inputs.map fun _ => 1
  isBlocking := false

def edge (number : Nat) (source destination : Block (Fin 2) (Fin 2)) : Edge (Fin 2) (Fin 2) :=
  ⟨number, source, .name "out", destination, .name "in", some 8⟩

/-- Before the start: two blocks, with these edges. -/
def idle (first second : Block (Fin 2) (Fin 2)) (edges : List (Edge (Fin 2) (Fin 2))) :
    State Nat Nat (Fin 2) (Fin 2) where
  graph := .mk 0 (.block first (.block second .nil)) edges [] []
  wiring := .empty
  edgeState := fun _ => .waitingToBeConnected
  actualBufferSize := fun _ => 0
  blockState := fun _ => .initialised
  nEdges := edges.length

/-- The source publishes two samples and a tag. -/
def sent (s : State Nat Nat (Fin 2) (Fin 2)) : State Nat Nat (Fin 2) (Fin 2) :=
  { s with wiring := s.wiring.publish 0 [7, 8] [5] }

end Examples

end GnuRadio.Resume
