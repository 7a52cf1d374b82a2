import GnuRadio.Graph.RingSizes
import GnuRadio.Theorems.Graph.Wiring
import Mathlib.Data.List.Find

/-! A port gets its ring when it is wired, from the requests of the edges that its graph sees then. Later edges take the
    ring as it is, and the optional outputs that are sized on the way are those that nothing reads. -/

namespace GnuRadio.RingSizes

open Function

open Graph (Block Config Edge Members PortDefinition State Wiring)

variable {α β ι ω : Type}

/-! ### Requests -/

theorem le_largest {l : List Nat} {n : Nat} (h : n ∈ l) : n ≤ largest l := by
  have hfold (l : List Nat) (m : Nat) : m ≤ l.foldl max m ∧ ∀ n ∈ l, n ≤ l.foldl max m := by
    induction l generalizing m with
    | nil => exact ⟨le_refl _, nofun⟩
    | cons a l ih =>
      obtain ⟨hm, hl⟩ := ih (max m a)
      refine ⟨(le_max_left m a).trans hm, fun n hn => ?_⟩
      obtain rfl | hn := List.mem_cons.mp hn
      · exact (le_max_right m n).trans hm
      · exact hl n hn
  exact (hfold l 0).2 n h

theorem largest_le {l : List Nat} {n : Nat} (h : ∀ m ∈ l, m ≤ n) : largest l ≤ n := by
  have hfold (l : List Nat) (m : Nat) (hm : m ≤ n) (hl : ∀ a ∈ l, a ≤ n) : l.foldl max m ≤ n := by
    induction l generalizing m with
    | nil => exact hm
    | cons a l ih =>
      exact ih (max m a) (max_le hm (hl a (.head _))) fun b hb => hl b (.tail _ hb)
  exact hfold l 0 (Nat.zero_le n) h

/-- The largest request does not depend on the order of the list. -/
theorem largest_congr {l l' : List Nat} (h : ∀ n, n ∈ l ↔ n ∈ l') : largest l = largest l' :=
  le_antisymm (largest_le fun n hn => le_largest ((h n).mp hn)) (largest_le fun n hn => le_largest ((h n).mpr hn))

/-! ### Graphs below a graph -/

mutual

theorem subgraphs_trans {descend : Graph.Category → Bool} (g : Graph.Graph ι ω) {sub x : Graph.Graph ι ω}
    (hsub : sub ∈ g.subgraphs descend) (hx : x ∈ sub.subgraphs descend) : x ∈ g.subgraphs descend := by
  obtain ⟨name, blocks, edges, ins, outs⟩ := g
  rw [Graph.Graph.subgraphs, List.mem_cons] at hsub
  obtain rfl | hsub := hsub
  · exact hx
  · rw [Graph.Graph.subgraphs]
    exact .tail _ (members_trans blocks hsub hx)

theorem members_trans {descend : Graph.Category → Bool} (m : Members ι ω) {sub x : Graph.Graph ι ω}
    (hsub : sub ∈ m.subgraphs descend) (hx : x ∈ sub.subgraphs descend) : x ∈ m.subgraphs descend := by
  cases m with
  | nil => cases hsub
  | block b rest =>
    rw [Members.subgraphs] at hsub ⊢
    exact members_trans rest hsub hx
  | group b category g rest =>
    rw [Members.subgraphs] at hsub ⊢
    by_cases hd : descend category = true
    · rw [if_pos hd, List.mem_append] at hsub ⊢
      exact hsub.imp (subgraphs_trans g · hx) (members_trans rest · hx)
    · rw [if_neg hd] at hsub ⊢
      exact members_trans rest hsub hx

end

theorem mem_forEachEdgeAll {g sub : Graph.Graph ι ω} (hsub : sub ∈ g.subgraphs fun _ => true) {e : Edge ι ω}
    (he : e ∈ sub.edges) : e ∈ g.forEachEdgeAll := List.mem_flatMap.mpr ⟨sub, hsub, he⟩

theorem forEachEdgeAll_subset {g sub : Graph.Graph ι ω} (hsub : sub ∈ g.subgraphs fun _ => true) {e : Edge ι ω}
    (he : e ∈ sub.forEachEdgeAll) : e ∈ g.forEachEdgeAll := by
  obtain ⟨x, hx, he⟩ := List.mem_flatMap.mp he
  exact mem_forEachEdgeAll (subgraphs_trans g hsub hx) he

section EditEdges
variable (name : Nat) (edit : List (Edge ι ω) → List (Edge ι ω)) (descend : Graph.Category → Bool)

theorem listed_editEdges (m : Members ι ω) :
    (m.editEdges name edit).listed.map Prod.fst = m.listed.map Prod.fst := by
  cases m with
  | nil => rfl
  | block b rest | group b category g rest => exact congrArg (b :: ·) (listed_editEdges rest)

mutual

/-- The graphs of the edited hierarchy are the edited graphs. -/
theorem subgraphs_editEdges (g : Graph.Graph ι ω) :
    (g.editEdges name edit).subgraphs descend = (g.subgraphs descend).map (Graph.Graph.editEdges name edit) := by
  obtain ⟨n, blocks, edges, ins, outs⟩ := g
  rw [Graph.Graph.subgraphs, Graph.Graph.editEdges, Graph.Graph.subgraphs, List.map_cons, Graph.Graph.editEdges,
    members_editEdges blocks]

theorem members_editEdges (m : Members ι ω) :
    (m.editEdges name edit).subgraphs descend = (m.subgraphs descend).map (Graph.Graph.editEdges name edit) := by
  cases m with
  | nil => rfl
  | block b rest =>
    rw [Members.editEdges, Members.subgraphs, Members.subgraphs]
    exact members_editEdges rest
  | group b category g rest =>
    rw [Members.editEdges, Members.subgraphs, Members.subgraphs]
    by_cases hd : descend category = true
    · rw [if_pos hd, if_pos hd, List.map_append, subgraphs_editEdges g, members_editEdges rest]
    · rw [if_neg hd, if_neg hd]
      exact members_editEdges rest

end

theorem edges_editEdges (g : Graph.Graph ι ω) :
    (g.editEdges name edit).edges = if g.uniqueName = name then edit g.edges else g.edges := by
  obtain ⟨n, blocks, edges, ins, outs⟩ := g
  rfl

theorem blocks_editEdges (g : Graph.Graph ι ω) : (g.editEdges name edit).blocks = g.blocks := by
  obtain ⟨n, blocks, edges, ins, outs⟩ := g
  exact listed_editEdges name edit blocks

end EditEdges

/-- An edit that adds no more than one known edge leaves the hierarchy known. -/
theorem Known.editEdges {blocks : Blocks ι ω} {g : Graph.Graph ι ω} (h : Known blocks g) (name : Nat)
    {edit : List (Edge ι ω) → List (Edge ι ω)} {new : Edge ι ω}
    (hnew : blocks.block new.sourceBlock.uniqueName = new.sourceBlock)
    (hedit : ∀ edges, ∀ e ∈ edit edges, e ∈ edges ∨ e = new) : Known blocks (g.editEdges name edit) := by
  constructor
  · intro sub hsub b hb
    rw [subgraphs_editEdges] at hsub
    obtain ⟨old, hold, rfl⟩ := List.mem_map.mp hsub
    rw [blocks_editEdges] at hb
    exact h.block old hold b hb
  · intro e he
    obtain ⟨sub, hsub, he⟩ := List.mem_flatMap.mp he
    rw [subgraphs_editEdges] at hsub
    obtain ⟨old, hold, rfl⟩ := List.mem_map.mp hsub
    rw [edges_editEdges] at he
    split at he
    · obtain he | rfl := hedit _ e he
      · exact h.edge e (mem_forEachEdgeAll hold he)
      · exact hnew
    · exact h.edge e (mem_forEachEdgeAll hold he)

/-- An edge that an edit puts on the list of a graph of the hierarchy is listed. -/
theorem mem_editEdges {g sub : Graph.Graph ι ω} (hsub : sub ∈ g.subgraphs fun _ => true)
    {edit : List (Edge ι ω) → List (Edge ι ω)} {new : Edge ι ω} (hedit : new ∈ edit sub.edges) :
    new ∈ (g.editEdges sub.uniqueName edit).forEachEdgeAll := by
  have hlisted : sub.editEdges sub.uniqueName edit ∈ (g.editEdges sub.uniqueName edit).subgraphs fun _ => true := by
    rw [subgraphs_editEdges]
    exact List.mem_map_of_mem hsub
  refine mem_forEachEdgeAll hlisted ?_
  rw [edges_editEdges, if_pos rfl]
  exact hedit

/-! ### Wiring -/

section Wiring
variable [DecidableEq ι] [DecidableEq ω] [Fintype ι] {w w' : Wiring α β ι ω} {o : ω}

/-- No ring has two outputs. -/
def Apart (w : Wiring α β ι ω) : Prop := ∀ o o' k, w.current o = some k → w.current o' = some k → o = o'

omit [DecidableEq ι] [DecidableEq ω] in
theorem outputConnected_iff : w.outputConnected o = true ↔ ∃ k, w.current o = some k ∧ w.Reads k := by
  unfold Wiring.outputConnected Wiring.nReaders Wiring.ringReaders
  rw [decide_eq_true_iff]
  cases hk : w.current o with
  | none => simp
  | some k =>
    rw [Option.map_some, Option.getD_some, Finset.card_pos]
    constructor
    · rintro ⟨i, hi⟩
      obtain ⟨r, hr, hring⟩ := Option.map_eq_some_iff.mp (Finset.mem_filter.mp hi).2
      exact ⟨k, rfl, i, r, hr, hring⟩
    · rintro ⟨_, heq, i, r, hr, hring⟩
      cases heq
      exact ⟨i, Finset.mem_filter.mpr ⟨Finset.mem_univ i, by rw [hr, Option.map_some, hring]⟩⟩

omit [DecidableEq ι] [DecidableEq ω] [Fintype ι] in
theorem bufferSize_of_current {k : Nat} {R : Graph.Ring α β} (hk : w.current o = some k) (hR : w.rings[k]? = some R) :
    w.bufferSize o = R.size := by
  unfold Wiring.bufferSize
  rw [hk, Option.bind_some, hR]
  rfl

/-- Only outputs that nothing reads get other rings. -/
structure SizesOpen (w w' : Wiring α β ι ω) : Prop where
  connected : ∀ o, w'.outputConnected o = w.outputConnected o
  size : ∀ o, w.outputConnected o = true → w'.bufferSize o = w.bufferSize o
  apart : Apart w → Apart w'

omit [DecidableEq ι] [DecidableEq ω] in
theorem SizesOpen.refl (w : Wiring α β ι ω) : SizesOpen w w := ⟨fun _ => rfl, fun _ _ => rfl, id⟩

omit [DecidableEq ι] [DecidableEq ω] in
theorem SizesOpen.trans {w'' : Wiring α β ι ω} (h : SizesOpen w w') (h' : SizesOpen w' w'') : SizesOpen w w'' where
  connected o := (h'.connected o).trans (h.connected o)
  size o ho := (h'.size o ((h.connected o).trans ho)).trans (h.size o ho)
  apart ha := h'.apart (h.apart ha)

omit [DecidableEq ι] [Fintype ι] in
theorem bufferSize_setRing_self (size : Nat) : (w.setRing o size).bufferSize o = size :=
  bufferSize_of_current (R := ⟨size, [], []⟩) (update_self _ _ _) List.getElem?_concat_length

omit [DecidableEq ι] [Fintype ι] in
theorem bufferSize_setRing_of_ne {o' : ω} (hne : o' ≠ o) (size : Nat) :
    (w.setRing o size).bufferSize o' = w.bufferSize o' := by
  have hcurrent : (w.setRing o size).current o' = w.current o' := update_of_ne hne _ _
  cases hk : w.current o' with
  | none =>
    unfold Wiring.bufferSize
    rw [hcurrent, hk]
    rfl
  | some k =>
    have hlt := w.current_lt o' k hk
    rw [bufferSize_of_current (hcurrent.trans hk)
      ((List.getElem?_append_left hlt).trans (List.getElem?_eq_getElem hlt)),
      bufferSize_of_current hk (List.getElem?_eq_getElem hlt)]

omit [DecidableEq ι] in
/-- Nothing reads a new ring. -/
theorem sizesOpen_setRing (h : w.outputConnected o = false) (size : Nat) : SizesOpen w (w.setRing o size) where
  connected o' := by
    rw [Bool.eq_iff_iff, outputConnected_iff, outputConnected_iff]
    by_cases hne : o' = o
    · rw [hne]
      refine iff_of_false ?_ fun hc => Bool.false_ne_true (h.symm.trans (outputConnected_iff.mpr hc))
      rintro ⟨k, hk, i, r, hr, hring⟩
      have hself : (w.setRing o size).current o = some w.rings.length := update_self _ _ _
      have hlt : k < w.rings.length := Wiring.lt_of_reads ⟨i, r, hr, hring⟩
      rw [hself] at hk
      exact hlt.ne' (Option.some.inj hk)
    · have hcurrent : (w.setRing o size).current o' = w.current o' := update_of_ne hne _ _
      rw [hcurrent]
      exact Iff.rfl
  size o' ho' := bufferSize_setRing_of_ne (fun heq => by rw [heq, h] at ho'; cases ho') size
  apart ha o₁ o₂ k h₁ h₂ := by
    have hcurrent (o' : ω) (hne : o' ≠ o) : (w.setRing o size).current o' = w.current o' :=
      update_of_ne hne _ _
    have hself : (w.setRing o size).current o = some w.rings.length := update_self _ _ _
    have hnew (o' : ω) (hne : o' ≠ o) (hk : (w.setRing o size).current o' = some k) : k ≠ w.rings.length :=
      (w.current_lt o' k ((hcurrent o' hne).symm.trans hk)).ne
    by_cases h₁o : o₁ = o
    · by_cases h₂o : o₂ = o
      · rw [h₁o, h₂o]
      · rw [h₁o, hself] at h₁
        exact absurd (Option.some.inj h₁).symm (hnew o₂ h₂o h₂)
    · by_cases h₂o : o₂ = o
      · rw [h₂o, hself] at h₂
        exact absurd (Option.some.inj h₂).symm (hnew o₁ h₁o h₁)
      · exact ha o₁ o₂ k ((hcurrent o₁ h₁o).symm.trans h₁) ((hcurrent o₂ h₂o).symm.trans h₂)

/-- The output gets a reader, which others may lose. -/
structure Joins (w w' : Wiring α β ι ω) (o : ω) : Prop where
  self : w'.outputConnected o = true
  connected : ∀ o', o' ≠ o → w'.outputConnected o' = true → w.outputConnected o' = true
  size : ∀ o', w'.bufferSize o' = w.bufferSize o'
  apart : Apart w → Apart w'

omit [DecidableEq ω] in
theorem joins_setReader (ha : Apart w) {k : Nat} (hk : w.current o = some k) (i : ι) :
    Joins w (w.setReader i k) o where
  self := by
    have hlt := w.current_lt o k hk
    have hreader : (w.setReader i k).reader i = some ⟨k, w.rings[k].samples.length, w.rings[k].tags.length⟩ := by
      show update w.reader i _ i = _
      rw [update_self, List.getElem?_eq_getElem hlt, Option.map_some]
    exact outputConnected_iff.mpr ⟨k, hk, i, _, hreader, rfl⟩
  connected o' hne hc := by
    obtain ⟨k', hk', j, r, hr, hring⟩ := outputConnected_iff.mp hc
    refine outputConnected_iff.mpr ⟨k', hk', j, r, ?_, hring⟩
    by_cases hj : j = i
    · change update w.reader i _ j = some r at hr
      rw [hj, update_self] at hr
      obtain ⟨R, -, rfl⟩ := Option.map_eq_some_iff.mp hr
      cases hring
      exact absurd (ha o' o _ hk' hk) hne
    · change update w.reader i _ j = some r at hr
      rwa [update_of_ne hj] at hr
  size _ := rfl
  apart := id

end Wiring

/-! ### Calls -/

section Calls
variable [DecidableEq ι] [DecidableEq ω] [Fintype ι] [Fintype ω] (c : Config ι ω)

omit [DecidableEq ι] in
theorem sizesOpen_sizeUnconnectedOptionalOutputs (s : State α β ι ω) (b : Block ι ω) :
    SizesOpen s.wiring (s.sizeUnconnectedOptionalOutputs c b).wiring := by
  have hfold (os : List ω) (target : Nat) (w : Wiring α β ι ω) : SizesOpen w (os.foldl (fun w o =>
      if ¬ w.outputConnected o ∧ (c.outputInfo o).isSynchronous ∧ (c.outputInfo o).isOptional ∧ w.bufferSize o < target
      then w.setRing o (c.ringSize target) else w) w) := by
    induction os generalizing w with
    | nil => exact .refl w
    | cons o os ih =>
      refine SizesOpen.trans ?_ (ih _)
      dsimp only
      split
      · next h => exact sizesOpen_setRing (eq_false_of_ne_true h.1) _
      · exact .refl w
  exact hfold b.outputs.all _ s.wiring

/-- The ports are of one type. -/
def Joinable (o : ω) (i : ι) : Prop :=
  (c.outputInfo o).typeName = (c.inputInfo i).typeName ∧ (c.outputInfo o).portType = (c.inputInfo i).portType

instance (o : ω) (i : ι) : Decidable (Joinable c o i) := inferInstanceAs (Decidable (_ ∧ _))

variable {c}

omit [Fintype ι] [Fintype ω] in
theorem connect_of_current {w : Wiring α β ι ω} {o : ω} {k : Nat} (hk : w.current o = some k) (i : ι) (size : Nat) :
    w.connect o i size = w.setReader i k := by
  unfold Wiring.connect Wiring.withRing
  simp only [hk]

omit [Fintype ω] in
theorem joins_connect {w : Wiring α β ι ω} {o : ω} (ha : Apart w) (hring : (w.current o).isSome = true) (i : ι)
    (size : Nat) : Joins w (w.connect o i size) o := by
  obtain ⟨k, hk⟩ := Option.isSome_iff_exists.mp hring
  rw [connect_of_current hk]
  exact joins_setReader ha hk i

omit [DecidableEq ι] [DecidableEq ω] [Fintype ω] in
theorem isSome_of_connected {w : Wiring α β ι ω} {o : ω} (h : w.outputConnected o = true) :
    (w.current o).isSome = true := by
  obtain ⟨k, hk, -⟩ := outputConnected_iff.mp h
  exact Option.isSome_of_eq_some hk

omit [Fintype ω] in
variable {g : Graph.Graph ι ω}

theorem connectPendingEdge_cases {s : State α β ι ω} {e : Edge ι ω} (ha : Apart s.wiring) :
    SizesOpen s.wiring (s.connectPendingEdge c g e).wiring ∨
      ∃ o i, s.edgeState e = .waitingToBeConnected ∧ e.source = some o ∧ e.destination = some i ∧ Joinable c o i ∧
        ((s.wiring.outputConnected o = true ∧ Joins s.wiring (s.connectPendingEdge c g e).wiring o) ∨
          s.wiring.outputConnected o = false ∧
            Joins (s.wiring.setRing o (c.ringSize (s.calculateStreamBufferSize g e)))
              (s.connectPendingEdge c g e).wiring o) := by
  unfold State.connectPendingEdge
  by_cases hwait : s.edgeState e = .waitingToBeConnected
  · rw [if_pos hwait]
    unfold State.applyEdgeConnection
    split
    · next o i hsource hdestination =>
      by_cases htype : (c.outputInfo o).typeName = (c.inputInfo i).typeName
      · rw [if_neg (not_not_intro htype)]
        by_cases hport : (c.outputInfo o).portType = (c.inputInfo i).portType
        · refine .inr ⟨o, i, hwait, hsource, hdestination, ⟨htype, hport⟩, ?_⟩
          simp only [hport, decide_true, if_true]
          cases hc : s.wiring.outputConnected o with
          | true => exact .inl ⟨rfl, joins_connect ha (isSome_of_connected hc) i _⟩
          | false =>
            have hself : (s.wiring.setRing o (c.ringSize (s.calculateStreamBufferSize g e))).current o =
                some s.wiring.rings.length := update_self _ _ _
            exact .inr ⟨rfl, joins_connect ((sizesOpen_setRing hc _).apart ha) (Option.isSome_of_eq_some hself) i _⟩
        · refine .inl ?_
          simp only [hport, decide_false, Bool.false_eq_true, if_false]
          cases hc : s.wiring.outputConnected o with
          | true => exact .refl _
          | false => exact sizesOpen_setRing hc _
      · rw [if_pos htype]
        exact .inl (.refl _)
    · exact .inl (.refl _)
  · rw [if_neg hwait]
    exact .inl (.refl _)

omit [DecidableEq ι] [Fintype ι] [Fintype ω] in
/-- Among known edges, the source ports are the same if they are one port. -/
theorem hasSameSourcePort_eq {blocks : Blocks ι ω} {e e' : Edge ι ω} {o : ω}
    (he : blocks.block e.sourceBlock.uniqueName = e.sourceBlock)
    (he' : blocks.block e'.sourceBlock.uniqueName = e'.sourceBlock) (ho : e.source = some o) :
    e.hasSameSourcePort e' = decide (e'.source = some o) := by
  rw [Bool.eq_iff_iff, decide_eq_true_iff]
  unfold Edge.hasSameSourcePort
  rw [Bool.or_eq_true, Bool.and_eq_true, Bool.and_eq_true, decide_eq_true_iff, decide_eq_true_iff, beq_iff_eq, ho]
  constructor
  · rintro (⟨hname, hdef⟩ | ⟨-, heq⟩)
    · have hblock : e.sourceBlock = e'.sourceBlock := by rw [← he, ← he', hname]
      rw [← ho]
      unfold Edge.source
      rw [hblock, hdef]
    · exact heq.symm
  · exact fun heq => .inr ⟨rfl, heq.symm⟩

/-- A record of the graph that says that the port is connected. -/
def recorded (s : State α β ι ω) (g : Graph.Graph ι ω) (o : ω) : Option (Edge ι ω) :=
  g.edges.find? fun e => decide (e.source = some o) && decide (s.edgeState e = .connected)

variable (c) in
/-- What the graph knows of the requests at a port gives the ring that all listed requests ask for: the size that a
    record of its own holds, and without one the requests of the graph itself and of the groups below it. -/
structure SeesRequests (s : State α β ι ω) (g : Graph.Graph ι ω) (o : ω) : Prop where
  recorded : ∀ e ∈ recorded s g o, c.ringSize (s.actualBufferSize e) = c.ringSize (largest (requests s.graph o))
  requested : RingSizes.recorded s g o = none →
    c.ringSize (largest (requests g o)) = c.ringSize (largest (requests s.graph o))

instance (s : State α β ι ω) (g : Graph.Graph ι ω) (o : ω) : Decidable (SeesRequests c s g o) :=
  decidable_of_iff ((∀ e ∈ recorded s g o, c.ringSize (s.actualBufferSize e) = c.ringSize (largest (requests s.graph o))) ∧
    (recorded s g o = none → c.ringSize (largest (requests g o)) = c.ringSize (largest (requests s.graph o))))
    ⟨fun h => ⟨h.1, h.2⟩, fun h => ⟨h.recorded, h.requested⟩⟩

omit [DecidableEq ι] [Fintype ι] [Fintype ω] in
theorem ringSize_calculateStreamBufferSize {blocks : Blocks ι ω} {s : State α β ι ω}
    {e : Edge ι ω} {o : ω} (hknown : Known blocks s.graph) (hg : g ∈ s.graph.subgraphs fun _ => true) (he : e ∈ g.edges)
    (ho : e.source = some o) (h : SeesRequests c s g o) :
    c.ringSize (s.calculateStreamBufferSize g e) = c.ringSize (largest (requests s.graph o)) := by
  have hsame (e' : Edge ι ω) (he' : e' ∈ s.graph.forEachEdgeAll) :
      e.hasSameSourcePort e' = decide (e'.source = some o) :=
    hasSameSourcePort_eq (hknown.edge e (mem_forEachEdgeAll hg he)) (hknown.edge e' he') ho
  have hfind : (g.edges.find? fun e' => e.hasSameSourcePort e' && decide (s.edgeState e' = .connected)) =
      recorded s g o := by
    refine List.find?_congr fun e' he' => ?_
    rw [hsame e' (mem_forEachEdgeAll hg he')]
  have hfilter : g.forEachEdgeAll.filter e.hasSameSourcePort =
      g.forEachEdgeAll.filter fun e' => decide (e'.source = some o) :=
    List.filter_congr fun e' he' => hsame e' (forEachEdgeAll_subset hg he')
  unfold State.calculateStreamBufferSize
  rw [hfind, hfilter]
  cases hrecorded : recorded s g o with
  | some e' => exact h.recorded e' hrecorded
  | none => exact h.requested hrecorded

theorem emplaceEdge_cases {s t : State α β ι ω} {sourceBlock destinationBlock : Nat}
    {sourcePort destinationPort : String} {minBufferSize : Option Nat}
    (h : s.emplaceEdge c g sourceBlock sourcePort destinationBlock destinationPort minBufferSize = some t) :
    ∃ source o i edit e, g.blocks.find? (·.uniqueName == sourceBlock) = some source ∧
      source.outputs.fromName sourcePort = some o ∧ e.sourceBlock = source ∧ e.source = some o ∧
      e.minBufferSize = some (minBufferSize.getD (if (c.outputInfo o).isArithmeticLike then 65536 else 64)) ∧
      t.graph = s.graph.editEdges g.uniqueName edit ∧ (∀ edges, ∀ e' ∈ edit edges, e' ∈ edges ∨ e' = e) ∧
      (∀ edges, e ∈ edit edges) ∧ SizesOpen (s.wiring.connect o i c.defaultBufferSize) t.wiring := by
  unfold State.emplaceEdge at h
  simp only [Option.bind_eq_bind, Option.bind_eq_some_iff] at h
  obtain ⟨source, hsource, destination, hdestination, o, ho, i, hi, h⟩ := h
  generalize hsize : minBufferSize.getD (if (c.outputInfo o).isArithmeticLike = true then 65536 else 64) = size at h
  split at h
  · cases h
  · cases h
    refine ⟨source, o, i, _, ⟨s.nEdges, source, .name sourcePort, destination, .name destinationPort, some size⟩,
      hsource, ho, rfl, ho, congrArg some hsize.symm, rfl, ?_, ?_, ?_⟩
    · intro edges e' he'
      obtain he' | he' := List.mem_append.mp he'
      · exact .inl (List.mem_of_mem_filter he')
      · exact .inr (List.mem_singleton.mp he')
    · exact fun edges => List.mem_append_right _ (List.mem_singleton_self _)
    · have hfirst (s' : State α β ι ω) (hs' : s'.wiring = s.wiring.connect o i c.defaultBufferSize) :
          SizesOpen (s.wiring.connect o i c.defaultBufferSize) (s'.sizeUnconnectedOptionalOutputs c source).wiring :=
        hs' ▸ sizesOpen_sizeUnconnectedOptionalOutputs c s' source
      exact (hfirst _ rfl).trans (sizesOpen_sizeUnconnectedOptionalOutputs c _ destination)

/-! ### Runs -/

variable (c) in
/-- A call gives the ports that it wires rings for all requests. What `connectPendingEdges()` wires, its graph sees the
    requests of; what `emplaceEdge()` wires holds the ring for them already, or gets it as the default one. -/
def Sizes (s : Sizing α β ι ω) : Call ι ω → Prop
  | .connectPendingEdge graph e => ∀ g ∈ findGraph s.state.graph graph, ∀ o ∈ e.source, ∀ i ∈ e.destination,
    s.state.edgeState e = .waitingToBeConnected → Joinable c o i → s.state.wiring.outputConnected o = false →
    SeesRequests c s.state g o
  | .emplaceEdge graph sourceBlock sourcePort destinationBlock destinationPort minBufferSize =>
    ∀ g ∈ findGraph s.state.graph graph, ∀ source ∈ g.blocks.find? (·.uniqueName == sourceBlock),
    ∀ o ∈ source.outputs.fromName sourcePort, s.state.wiring.outputConnected o = false →
    ∀ t ∈ s.state.emplaceEdge c g sourceBlock sourcePort destinationBlock destinationPort minBufferSize,
    (s.state.wiring.withRing o c.defaultBufferSize).bufferSize o = c.ringSize (largest (requests t.graph o))
  | _ => True

instance (s : Sizing α β ι ω) : ∀ call, Decidable (Sizes c s call)
  | .connectPendingEdge graph e => inferInstanceAs (Decidable (∀ g ∈ findGraph s.state.graph graph, ∀ o ∈ e.source,
    ∀ i ∈ e.destination, s.state.edgeState e = .waitingToBeConnected → Joinable c o i →
    s.state.wiring.outputConnected o = false → SeesRequests c s.state g o))
  | .emplaceEdge graph sourceBlock sourcePort destinationBlock destinationPort minBufferSize => inferInstanceAs (Decidable
    (∀ g ∈ findGraph s.state.graph graph, ∀ source ∈ g.blocks.find? (·.uniqueName == sourceBlock),
      ∀ o ∈ source.outputs.fromName sourcePort, s.state.wiring.outputConnected o = false →
      ∀ t ∈ s.state.emplaceEdge c g sourceBlock sourcePort destinationBlock destinationPort minBufferSize,
      (s.state.wiring.withRing o c.defaultBufferSize).bufferSize o = c.ringSize (largest (requests t.graph o))))
  | .addEdge .. | .connect .. | .sizeUnconnectedOptionalOutputs .. => .isTrue trivial

variable (c) in
/-- A wired port holds the ring for what was requested when it was wired. -/
structure Inv (blocks : Blocks ι ω) (s : Sizing α β ι ω) : Prop where
  known : Known blocks s.state.graph
  apart : Apart s.state.wiring
  sized : ∀ o, s.state.wiring.outputConnected o = true →
    s.state.wiring.bufferSize o = c.ringSize (largest (s.requested o))

variable {blocks : Blocks ι ω} {s : Sizing α β ι ω} {t : State α β ι ω}

omit [DecidableEq ι] [Fintype ω] in
theorem Inv.sizesOpen (h : Inv c blocks s) (hknown : Known blocks t.graph) (hopen : SizesOpen s.state.wiring t.wiring) :
    Inv c blocks (s.after t) where
  known := hknown
  apart := hopen.apart h.apart
  sized o ho := by
    have hbefore : s.state.wiring.outputConnected o = true := (hopen.connected o).symm.trans ho
    have hold : wiredAnew s.state t o = false := by
      unfold wiredAnew
      rw [hbefore]
      rfl
    show t.wiring.bufferSize o = c.ringSize (largest (if wiredAnew s.state t o = true then _ else _))
    rw [hold, if_neg Bool.false_ne_true, hopen.size o hbefore]
    exact h.sized o hbefore

omit [DecidableEq ι] [Fintype ω] in
/-- The wiring of one port, after open outputs were sized and before open outputs are. -/
theorem Inv.joins (h : Inv c blocks s) (hknown : Known blocks t.graph) {w w' : Wiring α β ι ω} {o : ω}
    (hfirst : SizesOpen s.state.wiring w) (hjoins : Joins w w' o) (hopen : SizesOpen w' t.wiring)
    (hsize : s.state.wiring.outputConnected o = false → w.bufferSize o = c.ringSize (largest (requests t.graph o))) :
    Inv c blocks (s.after t) where
  known := hknown
  apart := hopen.apart (hjoins.apart (hfirst.apart h.apart))
  sized o' ho' := by
    have hw' : w'.outputConnected o' = true := (hopen.connected o').symm.trans ho'
    show t.wiring.bufferSize o' = c.ringSize (largest (if wiredAnew s.state t o' = true then _ else _))
    rw [hopen.size o' hw', hjoins.size o']
    cases hbefore : s.state.wiring.outputConnected o' with
    | true =>
      have hold : wiredAnew s.state t o' = false := by
        unfold wiredAnew
        rw [hbefore]
        rfl
      rw [hold, if_neg Bool.false_ne_true, hfirst.size o' hbefore]
      exact h.sized o' hbefore
    | false =>
      have hnew : wiredAnew s.state t o' = true := by
        change t.wiring.outputConnected o' = true at ho'
        unfold wiredAnew
        rw [hbefore, ho']
        rfl
      have ho : o' = o := by
        by_contra hne
        have hlate := (hfirst.connected o').symm.trans (hjoins.connected o' hne hw')
        rw [hbefore] at hlate
        cases hlate
      rw [hnew, if_pos rfl, ho]
      exact hsize (ho ▸ hbefore)

omit [Fintype ι] [Fintype ω] [DecidableEq ι] in
theorem graph_connectPendingEdge [DecidableEq ι] [Fintype ι] (s : State α β ι ω) (g : Graph.Graph ι ω) (e : Edge ι ω) :
    (s.connectPendingEdge c g e).graph = s.graph := by
  unfold State.connectPendingEdge State.applyEdgeConnection
  split
  · split
    · split <;> rfl
    · rfl
  · rfl

omit [DecidableEq ι] [DecidableEq ω] [Fintype ι] [Fintype ω] in
theorem mem_of_findGraph {g sub : Graph.Graph ι ω} {name : Nat} (h : findGraph g name = some sub) :
    sub ∈ g.subgraphs fun _ => true := List.mem_of_find?_eq_some h

omit [Fintype ω] in
/-- What `emplaceEdge()` joins, and the ring that it joins it to. -/
theorem joins_emplaceEdge {w : Wiring α β ι ω} (ha : Apart w) (o : ω) (i : ι) (size : Nat) :
    SizesOpen w (w.withRing o size) ∧ Joins (w.withRing o size) (w.connect o i size) o := by
  have hring : ((w.withRing o size).current o).isSome = true := by
    unfold Wiring.withRing
    split
    · next k hk => exact Option.isSome_of_eq_some hk
    · exact Option.isSome_of_eq_some (update_self _ _ _)
  have hopen : SizesOpen w (w.withRing o size) := by
    unfold Wiring.withRing
    split
    · exact .refl _
    · next hnone =>
      refine sizesOpen_setRing (eq_false_of_ne_true fun hc => ?_) size
      obtain ⟨k, hk, -⟩ := outputConnected_iff.mp hc
      rw [hnone] at hk
      cases hk
  refine ⟨hopen, ?_⟩
  have hjoins := joins_connect (hopen.apart ha) hring i size
  obtain ⟨k, hk⟩ := Option.isSome_iff_exists.mp hring
  rwa [connect_of_current hk, ← show w.connect o i size = (w.withRing o size).setReader i k by
    unfold Wiring.connect
    simp only [hk]] at hjoins

omit [Fintype ω] in
theorem Inv.appendEdge (h : Inv c blocks s) (g : Graph.Graph ι ω) {e : Edge ι ω} {state : Graph.EdgeState}
    {actualBufferSize : Nat} (he : blocks.block e.sourceBlock.uniqueName = e.sourceBlock) :
    Inv c blocks (s.after (RingSizes.appendEdge g e state actualBufferSize s.state)) := by
  refine h.sizesOpen (h.known.editEdges g.uniqueName he fun edges e' he' => ?_) (.refl _)
  exact (List.mem_append.mp he').imp id List.mem_singleton.mp

theorem Inv.step (h : Inv c blocks s) {call : Call ι ω} (hok : Sizes c s call)
    (hg : findGraph s.state.graph call.graph = some g) (hrun : call.run c blocks g s.state = some t) :
    Inv c blocks (s.after t) := by
  have hsub := mem_of_findGraph hg
  cases call with
  | addEdge graph sourceBlock sourcePort destinationBlock destinationPort minBufferSize state actualBufferSize
  | connect graph sourceBlock sourcePort destinationBlock destinationPort minBufferSize =>
    obtain ⟨-, hrun⟩ := Option.ite_none_left_eq_some.mp hrun
    cases hrun
    exact h.appendEdge g (congrArg blocks.block (blocks.uniqueName_eq sourceBlock))
  | emplaceEdge graph sourceBlock sourcePort destinationBlock destinationPort minBufferSize =>
    obtain ⟨source, o, i, edit, e, hsource, ho, heblock, -, -, hgraph, hedit, -, hopen⟩ := emplaceEdge_cases hrun
    obtain ⟨hfirst, hjoins⟩ := joins_emplaceEdge h.apart o i c.defaultBufferSize
    have hknown : Known blocks t.graph := by
      rw [hgraph]
      refine h.known.editEdges _ ?_ hedit
      rw [heblock]
      exact h.known.block g hsub source (List.mem_of_find?_eq_some hsource)
    exact h.joins hknown hfirst hjoins hopen fun hnone => hok g hg source hsource o ho hnone t hrun
  | connectPendingEdge graph e =>
    obtain ⟨he, hrun⟩ := Option.ite_none_right_eq_some.mp hrun
    cases hrun
    have hgraph := graph_connectPendingEdge (c := c) s.state g e
    have hknown : Known blocks (s.state.connectPendingEdge c g e).graph := hgraph.symm ▸ h.known
    obtain hopen | ⟨o, i, hwait, ho, hi, hjoinable, ⟨hc, hjoins⟩ | ⟨hc, hjoins⟩⟩ := connectPendingEdge_cases h.apart
    · exact h.sizesOpen hknown hopen
    · exact h.joins hknown (.refl _) hjoins (.refl _) fun hnone => by rw [hc] at hnone; cases hnone
    · refine h.joins hknown (sizesOpen_setRing hc _) hjoins (.refl _) fun _ => ?_
      rw [bufferSize_setRing_self, hgraph]
      exact ringSize_calculateStreamBufferSize h.known hsub he ho (hok g hg o ho i hi hwait hjoinable hc)
  | sizeUnconnectedOptionalOutputs graph b =>
    obtain ⟨-, hrun⟩ := Option.ite_none_right_eq_some.mp hrun
    cases hrun
    exact h.sizesOpen h.known (sizesOpen_sizeUnconnectedOptionalOutputs c _ b)

theorem inv_of_reach (h : (system c blocks).Reach (Sizes c) s) : Inv c blocks s := by
  refine h.invariant (fun s hs => ?_) fun s call u hs hok hstep => ?_
  · obtain ⟨hknown, hnone, hapart⟩ := hs
    refine ⟨hknown, hapart, fun o ho => ?_⟩
    rw [hnone o] at ho
    cases ho
  · simp only [system, Option.bind_eq_bind, Option.bind_eq_some_iff] at hstep
    obtain ⟨g, hg, t, hrun, hu⟩ := hstep
    cases hu
    exact hs.step hok hg hrun

omit [DecidableEq ι] in
theorem graph_sizeUnconnectedOptionalOutputs (s : State α β ι ω) (b : Block ι ω) :
    (s.sizeUnconnectedOptionalOutputs c b).graph = s.graph := rfl

/-- In every run whose calls give the ports that they wire rings for all requests, a wired port holds at least what each
    edge listed then asks for, in whatever order and by whichever graph it was wired, and an edge that `emplaceEdge()`
    adds to an unconnected port gets what it asks for. -/
theorem ring_sizes (hring : ∀ n, n ≤ c.ringSize n) (h : (system c blocks).Reach (Sizes c) s) :
    (∀ o, s.state.wiring.outputConnected o = true →
      s.state.wiring.bufferSize o = c.ringSize (largest (s.requested o)) ∧
        ∀ n ∈ s.requested o, n ≤ s.state.wiring.bufferSize o) ∧
    (∀ (s' : Sizing α β ι ω) (o : ω), (system c blocks).Reach (Sizes c) s' →
      s.state.wiring.outputConnected o = true → s'.state.wiring.outputConnected o = true →
      (∀ n, n ∈ s.requested o ↔ n ∈ s'.requested o) → s.state.wiring.bufferSize o = s'.state.wiring.bufferSize o) ∧
    ∀ graph sourceBlock sourcePort destinationBlock destinationPort minBufferSize,
      Sizes c s (.emplaceEdge graph sourceBlock sourcePort destinationBlock destinationPort minBufferSize) →
      ∀ g ∈ findGraph s.state.graph graph, ∀ source ∈ g.blocks.find? (·.uniqueName == sourceBlock),
      ∀ o ∈ source.outputs.fromName sourcePort, s.state.wiring.outputConnected o = false →
      ∀ t ∈ s.state.emplaceEdge c g sourceBlock sourcePort destinationBlock destinationPort minBufferSize,
      minBufferSize.getD (if (c.outputInfo o).isArithmeticLike then 65536 else 64) ≤ t.wiring.bufferSize o := by
  have hinv := inv_of_reach h
  refine ⟨fun o ho => ⟨hinv.sized o ho, fun n hn => ?_⟩, fun s' o h' ho ho' hsame => ?_, ?_⟩
  · rw [hinv.sized o ho]
    exact (le_largest hn).trans (hring _)
  · rw [hinv.sized o ho, (inv_of_reach h').sized o ho', largest_congr hsame]
  · intro graph sourceBlock sourcePort destinationBlock destinationPort minBufferSize hok g hg source hsource o ho hnone
      t ht
    obtain ⟨source', o', i, edit, e, hsource', ho', -, hsourcePort, hminBufferSize, hgraph, -, hlisted, hopen⟩ :=
      emplaceEdge_cases ht
    cases hsource.symm.trans hsource'
    cases ho.symm.trans ho'
    have hjoins := (joins_emplaceEdge hinv.apart o i c.defaultBufferSize).2
    have hsize : t.wiring.bufferSize o = c.ringSize (largest (requests t.graph o)) := by
      rw [hopen.size o hjoins.self, hjoins.size o]
      exact hok g hg source hsource o ho hnone t ht
    rw [hsize]
    refine le_trans (le_largest (List.mem_filterMap.mpr ⟨e, List.mem_filter.mpr ⟨?_, ?_⟩, hminBufferSize⟩)) (hring _)
    · rw [hgraph]
      exact mem_editEdges (mem_of_findGraph hg) (hlisted g.edges)
    · exact decide_eq_true hsourcePort

end Calls

/-! ### Two graphs

A group exports the output of a block, and an edge leaves it in either graph. -/

section TwoGraphs

theorem neZero_inputs : NeZero 2 := ⟨by decide⟩

theorem neZero_outputs : NeZero 1 := ⟨by decide⟩

-- numerals for the ports
scoped instance someInputs : NeZero 2 := neZero_inputs
scoped instance someOutputs : NeZero 1 := neZero_outputs

/-- Block 1 has the output, blocks 2 and 3 have an input each, and the block 4 is the group. -/
def twoBlocks : Blocks (Fin 2) (Fin 1) where
  block name := ⟨name, if name = 2 then [.port "in" 0] else if name = 3 then [.port "in" 1] else [],
    if name = 1 ∨ name = 4 then [.port "out" 0] else [], [], 1, 1, 0, [], false⟩
  uniqueName_eq _ := rfl

/-- A ring has the size that is asked for, and the ring that nobody asked for has room for four samples. -/
def exactSizes : Config (Fin 2) (Fin 1) :=
  ⟨fun _ => ⟨"float", .stream, true, false, true⟩, fun _ => ⟨"float", .stream, true, false, true⟩, id, 4, id⟩

def twoGraphs : Sizing Nat Nat (Fin 2) (Fin 1) where
  state :=
    ⟨.mk 10 (.group (twoBlocks.block 4) .transparentBlockGroup
      (.mk 11 (.block (twoBlocks.block 1) (.block (twoBlocks.block 3) .nil)) [] [] [0])
      (.block (twoBlocks.block 2) .nil)) [] [] [], .empty, fun _ => .waitingToBeConnected, fun _ => 0, fun _ => .idle, 0⟩
  requested _ := []

/-- The edge inside the group asks for two samples, and the one outside for eight. -/
def listBoth : List (Call (Fin 2) (Fin 1)) :=
  [.connect 11 1 (.index 0 none) 3 (.index 0 none) (some 2), .connect 10 4 (.index 0 none) 2 (.index 0 none) (some 8)]

def inside : Edge (Fin 2) (Fin 1) :=
  ⟨0, twoBlocks.block 1, .index 0 none, twoBlocks.block 3, .index 0 none, some 2⟩

def outside : Edge (Fin 2) (Fin 1) :=
  ⟨1, twoBlocks.block 4, .index 0 none, twoBlocks.block 2, .index 0 none, some 8⟩

def outsideFirst : List (Call (Fin 2) (Fin 1)) :=
  listBoth ++ [.connectPendingEdge 10 outside, .connectPendingEdge 11 inside]

def insideFirst : List (Call (Fin 2) (Fin 1)) :=
  listBoth ++ [.connectPendingEdge 11 inside, .connectPendingEdge 10 outside]

theorem start_twoGraphs : (system exactSizes twoBlocks).start twoGraphs :=
  ⟨⟨by decide, by decide⟩, by decide, by decide⟩

/-- The outer graph connects first, and sees both requests. -/
def outsideWired : Sizing Nat Nat (Fin 2) (Fin 1) :=
  ((system exactSizes twoBlocks).run twoGraphs outsideFirst).get (by decide)

theorem outsideWired_sized : outsideWired.requested 0 = [8, 2] ∧
    outsideWired.state.wiring.bufferSize 0 = largest (outsideWired.requested 0) :=
  ⟨by decide, ((ring_sizes (fun _ => le_refl _)
    ((system exactSizes twoBlocks).reach_get outsideFirst start_twoGraphs (by decide) (by decide))).1 0 (by decide)).1⟩

/-- The group connects first, and its edge decides the size of the ring. An edge that `emplaceEdge()` adds leaves its source
    the ring that it has by default. -/
theorem ring_too_small :
    (∃ s : Sizing Nat Nat (Fin 2) (Fin 1), (system exactSizes twoBlocks).Reachable s ∧
      s.state.wiring.outputConnected 0 = true ∧ 8 ∈ s.requested 0 ∧ s.state.wiring.bufferSize 0 = 2) ∧
    ∃ s : Sizing Nat Nat (Fin 2) (Fin 1), (system exactSizes twoBlocks).Reachable s ∧
      s.state.wiring.outputConnected 0 = true ∧ s.requested 0 = [8] ∧ s.state.wiring.bufferSize 0 = 4 :=
  ⟨⟨_, (system exactSizes twoBlocks).reachable_get insideFirst start_twoGraphs (by decide), by decide, by decide,
      by decide⟩,
    ⟨_, (system exactSizes twoBlocks).reachable_get [.emplaceEdge 11 1 "out" 3 "in" (some 8)] start_twoGraphs
      (by decide), by decide, by decide, by decide⟩⟩

end TwoGraphs

end GnuRadio.RingSizes
