import GnuRadio.Graph.Replacement

/-! `replaceBlock()` throws before it changes anything, or puts the new block with the edges and the rings of the replaced
    one in its place. All pairs of ports are collected and checked first; from there on nothing can fail. -/

namespace GnuRadio.Graph

open Exchange (exchange keys origin)

variable {α β ι ω π ρ : Type}

theorem DynamicPorts.all_map (ports : DynamicPorts π) (f : π → ρ) :
    DynamicPorts.all (List.map (PortOrCollection.map f) ports) = ports.all.map f := by
  induction ports with
  | nil => rfl
  | cons entry ports ih =>
    have hentry : (entry.map f).ports = entry.ports.map f := by cases entry <;> rfl
    simp only [DynamicPorts.all, List.map_cons, List.flatMap_cons, List.map_append] at ih ⊢
    rw [hentry, ih]

namespace Wiring

/-! ### Exchanged handlers -/

theorem foldl_exchangeInputs [DecidableEq ι] (w : Wiring α β ι ω) (pairs : List (ι × ι)) :
    (pairs.foldl exchangeInputs w).rings = w.rings ∧ (pairs.foldl exchangeInputs w).current = w.current ∧
      (pairs.foldl exchangeInputs w).reader = w.reader ∘ origin pairs := by
  rw [← Exchange.exchange_eq]
  induction pairs generalizing w with
  | nil => exact ⟨rfl, rfl, rfl⟩
  | cons pair pairs ih => exact ih (w.exchangeInputs pair)

theorem foldl_exchangeOutputs [DecidableEq ω] (w : Wiring α β ι ω) (pairs : List (ω × ω)) :
    (pairs.foldl exchangeOutputs w).rings = w.rings ∧ (pairs.foldl exchangeOutputs w).reader = w.reader ∧
      (pairs.foldl exchangeOutputs w).current = w.current ∘ origin pairs := by
  rw [← Exchange.exchange_eq]
  induction pairs generalizing w with
  | nil => exact ⟨rfl, rfl, rfl⟩
  | cons pair pairs ih => exact ih (w.exchangeOutputs pair)

variable {w w' : Wiring α β ι ω}

theorem getElem?_of_extends (h : w.rings <+: w'.rings) {k : Nat} {R : Ring α β}
    (hR : w.rings[k]? = some R) : w'.rings[k]? = some R := by
  obtain ⟨rest, hrest⟩ := h
  rw [← hrest, List.getElem?_append_left (List.getElem?_eq_some_iff.mp hR).1, hR]

/-- What an input holds is what the reader it has got held. -/
theorem queued_congr {i j : ι} (hreader : w'.reader j = w.reader i)
    (hrings : w.rings <+: w'.rings) : w'.queued j = w.queued i := by
  unfold queued
  rw [hreader]
  cases hr : w.reader i with
  | none => rfl
  | some r =>
    obtain ⟨R, hR, -⟩ := w.reader_le i r hr
    show (w'.rings[r.ring]?.bind _) = (w.rings[r.ring]?.bind _)
    rw [hR, getElem?_of_extends hrings hR]

theorem bufferSize_congr {o o' : ω} (hcurrent : w'.current o' = w.current o)
    (hrings : w.rings <+: w'.rings) : w'.bufferSize o' = w.bufferSize o := by
  unfold bufferSize
  rw [hcurrent]
  cases hk : w.current o with
  | none => rfl
  | some k =>
    have hlt := w.current_lt o k hk
    show (w'.rings[k]?.map _).getD _ = (w.rings[k]?.map _).getD _
    rw [getElem?_of_extends hrings (List.getElem?_eq_getElem hlt), List.getElem?_eq_getElem hlt]

/-- An exchange of readers leaves every ring as many of them. -/
theorem ringReaders_perm [Fintype ι] (σ : Equiv.Perm ι) (h : w'.reader = w.reader ∘ σ) (k : Nat) :
    w'.ringReaders k = w.ringReaders k := by
  refine Finset.card_equiv σ fun i => ?_
  simp only [Finset.mem_filter, Finset.mem_univ, true_and, h, Function.comp_apply]

/-! ### Sized outputs -/

section Sizing
variable [Fintype ι] [Fintype ω] [DecidableEq ω] (c : Config ι ω) (target : Nat)

/-- An optional output that nobody reads and whose ring is smaller than the size that it is given. -/
def Undersized (w : Wiring α β ι ω) (o : ω) : Prop :=
  ¬ w.outputConnected o ∧ (c.outputInfo o).isSynchronous ∧ (c.outputInfo o).isOptional ∧ w.bufferSize o < target

instance (w : Wiring α β ι ω) (o : ω) : Decidable (w.Undersized c target o) :=
  inferInstanceAs (Decidable (_ ∧ _ ∧ _ ∧ _))

def sizeOne (w : Wiring α β ι ω) (o : ω) : Wiring α β ι ω :=
  if w.Undersized c target o then w.setRing o (c.ringSize target) else w

/-- The output has a ring that nobody has written or reads, of the size that it is given. -/
def NewRing (w w' : Wiring α β ι ω) (o : ω) : Prop :=
  ∃ k, w.rings.length ≤ k ∧ w'.current o = some k ∧ w'.rings[k]? = some ⟨c.ringSize target, [], []⟩

variable {c target} {w : Wiring α β ι ω}

variable (c target) in
omit [Fintype ω] in
theorem sizeOne_spec (w : Wiring α β ι ω) (o : ω) :
    (w.sizeOne c target o).reader = w.reader ∧ w.rings <+: (w.sizeOne c target o).rings ∧
      (∀ o', o' ≠ o → (w.sizeOne c target o).current o' = w.current o') ∧
      (w.Undersized c target o → NewRing c target w (w.sizeOne c target o) o) ∧
      (¬ w.Undersized c target o → (w.sizeOne c target o).current o = w.current o) := by
  unfold sizeOne
  by_cases h : w.Undersized c target o
  · rw [if_pos h]
    refine ⟨rfl, List.prefix_append _ _, fun o' hne => Function.update_of_ne hne _ _, fun _ => ?_, fun hn => absurd h hn⟩
    exact ⟨w.rings.length, le_refl _, Function.update_self _ _ _, List.getElem?_concat_length⟩
  · rw [if_neg h]
    exact ⟨rfl, List.prefix_refl _, fun _ _ => rfl, fun hu => absurd hu h, fun _ => rfl⟩

omit [Fintype ω] [DecidableEq ω] in
theorem undersized_congr {w' : Wiring α β ι ω} {o : ω} (hreader : w'.reader = w.reader)
    (hrings : w.rings <+: w'.rings) (hcurrent : w'.current o = w.current o) :
    w'.Undersized c target o ↔ w.Undersized c target o := by
  have hconnected : w'.outputConnected o = w.outputConnected o := by
    unfold outputConnected nReaders ringReaders
    rw [hcurrent, hreader]
  have hsize := bufferSize_congr hcurrent hrings
  unfold Undersized
  rw [hconnected, hsize]

variable (c target) in
omit [Fintype ω] in
/-- One pass over outputs that are listed once: each is judged by the rings as they were before. -/
theorem foldl_sizeOne_spec {os : List ω} (hnodup : os.Nodup) (w : Wiring α β ι ω) :
    (os.foldl (sizeOne c target) w).reader = w.reader ∧ w.rings <+: (os.foldl (sizeOne c target) w).rings ∧
      (∀ o ∉ os, (os.foldl (sizeOne c target) w).current o = w.current o) ∧
      (∀ o, w.Undersized c target o → o ∈ os → NewRing c target w (os.foldl (sizeOne c target) w) o) ∧
      (∀ o, ¬ w.Undersized c target o → (os.foldl (sizeOne c target) w).current o = w.current o) := by
  induction os generalizing w with
  | nil => exact ⟨rfl, List.prefix_refl _, fun _ _ => rfl, nofun, fun _ _ => rfl⟩
  | cons o os ih =>
    obtain ⟨ho, hos⟩ := List.nodup_cons.mp hnodup
    obtain ⟨hreader, hrings, hother, hnew, hkept⟩ := sizeOne_spec c target w o
    obtain ⟨ihreader, ihrings, ihother, ihnew, ihkept⟩ := ih hos (w.sizeOne c target o)
    have hsame {o' : ω} (h : (w.sizeOne c target o).current o' = w.current o') :
        (w.sizeOne c target o).Undersized c target o' ↔ w.Undersized c target o' := undersized_congr hreader hrings h
    rw [List.foldl_cons]
    refine ⟨ihreader.trans hreader, hrings.trans ihrings, fun o' hmem => ?_, fun o' hu hmem => ?_, fun o' hu => ?_⟩
    · obtain ⟨hne, hrest⟩ := List.ne_and_not_mem_of_not_mem_cons hmem
      exact (ihother o' hrest).trans (hother o' hne)
    · by_cases hne : o' = o
      · rw [hne] at hu ⊢
        obtain ⟨k, hk, hcurrent, hring⟩ := hnew hu
        exact ⟨k, hk, (ihother o ho).trans hcurrent, getElem?_of_extends ihrings hring⟩
      · have hrest : o' ∈ os := (List.mem_cons.mp hmem).resolve_left hne
        obtain ⟨k, hk, hcurrent, hring⟩ := ihnew o' ((hsame (hother o' hne)).mpr hu) hrest
        exact ⟨k, hrings.length_le.trans hk, hcurrent, hring⟩
    · have hc : (w.sizeOne c target o).current o' = w.current o' := by
        by_cases hne : o' = o
        · rw [hne] at hu ⊢
          exact hkept hu
        · exact hother o' hne
      exact (ihkept o' (fun h => hu ((hsame hc).mp h))).trans hc

end Sizing

end Wiring

end GnuRadio.Graph

namespace GnuRadio.Replacement

open Exchange (keys origin)
open Graph (Block Config DynamicPorts PortDefinition Wiring)

variable {α β ι ω π : Type}

/-! ### Pairs -/

/-- No port is in two pairs, and each is a port of its block. -/
structure Paired (replaced newBlock : DynamicPorts (DynamicPort π)) (pairs : List (PortPair π)) : Prop where
  apart : pairs.Pairwise fun a b => a.replacedPort ≠ b.replacedPort ∧ a.newPort ≠ b.newPort
  replacedPort : ∀ pair ∈ pairs, pair.replacedPort ∈ replaced.all
  newPort : ∀ pair ∈ pairs, pair.newPort ∈ newBlock.all

/-- The definition names a port of either block, and the two are a pair. -/
def Matches (replaced newBlock : DynamicPorts (DynamicPort π)) (pairs : List (PortPair π)) (definition : PortDefinition) :
    Prop :=
  ∃ p q, replaced.resolve definition = some p ∧ newBlock.resolve definition = some q ∧ ⟨p, q⟩ ∈ pairs

section Pairs
variable [DecidableEq π] {handlers : Handlers π} {replaced newBlock : DynamicPorts (DynamicPort π)}
variable {pairs pairs' : List (PortPair π)} {definition : PortDefinition}

omit [DecidableEq π] in
theorem Matches.mono (h : Matches replaced newBlock pairs definition) (hsub : pairs ⊆ pairs') :
    Matches replaced newBlock pairs' definition := by
  obtain ⟨p, q, hp, hq, hmem⟩ := h
  exact ⟨p, q, hp, hq, hsub hmem⟩

theorem pairPort_ok {q : DynamicPort π} (h : pairPort handlers replaced newBlock definition pairs = .ok (q, pairs'))
    (hpairs : Paired replaced newBlock pairs) :
    Paired replaced newBlock pairs' ∧ pairs ⊆ pairs' ∧ newBlock.resolve definition = some q ∧
      Matches replaced newBlock pairs' definition := by
  unfold pairPort at h
  split at h
  · next p q' hp hq =>
    split at h
    · cases h
    · split at h
      · cases h
      · next hconflict =>
        have hsame (pair : PortPair π) (hmem : pair ∈ pairs) : pair.replacedPort = p ↔ pair.newPort = q' := by
          by_contra hne
          refine hconflict (List.any_eq_true.mpr ⟨pair, hmem, bne_iff_ne.mpr fun hx => hne ?_⟩)
          exact decide_eq_decide.mp hx
        split at h
        · next hany =>
          cases h
          obtain ⟨pair, hmem, hpair⟩ := List.any_eq_true.mp hany
          have hfst : pair.replacedPort = p := of_decide_eq_true hpair
          have hsnd : pair.newPort = q := (hsame pair hmem).mp hfst
          exact ⟨hpairs, List.Subset.refl _, hq, p, q, hp, hq, hfst ▸ hsnd ▸ hmem⟩
        · next hany =>
          cases h
          have hnew (pair : PortPair π) (hmem : pair ∈ pairs) : pair.replacedPort ≠ p :=
            fun hx => hany (List.any_eq_true.mpr ⟨pair, hmem, decide_eq_true hx⟩)
          refine ⟨⟨?_, ?_, ?_⟩, List.subset_append_left _ _, hq, p, q, hp, hq, by simp⟩
          · refine List.pairwise_append.mpr ⟨hpairs.apart, List.pairwise_singleton _ _, fun pair hmem b hb => ?_⟩
            rw [List.mem_singleton.mp hb]
            exact ⟨hnew pair hmem, fun hx => hnew pair hmem ((hsame pair hmem).mpr hx)⟩
          · intro pair hmem
            obtain hmem | hmem := List.mem_append.mp hmem
            · exact hpairs.replacedPort pair hmem
            · rw [List.mem_singleton.mp hmem]
              exact DynamicPorts.mem_all_of_resolve hp
          · intro pair hmem
            obtain hmem | hmem := List.mem_append.mp hmem
            · exact hpairs.newPort pair hmem
            · rw [List.mem_singleton.mp hmem]
              exact DynamicPorts.mem_all_of_resolve hq
  · cases h

/-- The port that an end of an edge has found once the new block is in place. -/
def endPort (newBlock : DynamicPorts (DynamicPort π)) (ends : Bool) (definition : PortDefinition)
    (port : Option (DynamicPort π)) : Option (DynamicPort π) :=
  if ends then newBlock.resolve definition else port

theorem takeEnd_ok {ends : Bool} {port port' : Option (DynamicPort π)}
    (h : takeEnd handlers replaced newBlock ends definition port pairs = .ok (port', pairs'))
    (hpairs : Paired replaced newBlock pairs) :
    Paired replaced newBlock pairs' ∧ pairs ⊆ pairs' ∧ port' = endPort newBlock ends definition port ∧
      (ends = true → Matches replaced newBlock pairs' definition) := by
  unfold takeEnd at h
  unfold endPort
  cases ends with
  | false =>
    cases h
    exact ⟨hpairs, List.Subset.refl _, rfl, fun hf => (Bool.false_ne_true hf).elim⟩
  | true =>
    simp only [if_true] at h ⊢
    split at h
    · cases h
    · next q _ hok =>
      cases h
      obtain ⟨hpaired, hsub, hq, hmatches⟩ := pairPort_ok hok hpairs
      exact ⟨hpaired, hsub, hq.symm, fun _ => hmatches⟩

end Pairs

/-! ### Edges -/

/-- The edge with the new block where it named the replaced one. -/
def Edge.substitute (replaced newBlock : BlockModel ι ω) (e : Edge ι ω) : Edge ι ω :=
  { e with
    sourceBlock := if e.isFrom replaced then newBlock else e.sourceBlock
    destinationBlock := if e.isInto replaced then newBlock else e.destinationBlock
    sourcePort := endPort newBlock.outputs (e.isFrom replaced) e.sourcePortDefinition e.sourcePort
    destinationPort := endPort newBlock.inputs (e.isInto replaced) e.destinationPortDefinition e.destinationPort }

/-- The entries for the edges of the replaced block. -/
def entries (replaced newBlock : BlockModel ι ω) : List (Edge ι ω) → Nat → List (EdgePorts ι ω)
  | [], _ => []
  | e :: edges, index =>
    if !e.isFrom replaced && !e.isInto replaced then entries replaced newBlock edges (index + 1)
    else
      ⟨index, endPort newBlock.outputs (e.isFrom replaced) e.sourcePortDefinition e.sourcePort,
        endPort newBlock.inputs (e.isInto replaced) e.destinationPortDefinition e.destinationPort⟩ ::
          entries replaced newBlock edges (index + 1)

/-- The ports of the edges are paired. -/
structure AllMatch (replaced newBlock : BlockModel ι ω) (edges : List (Edge ι ω)) (taken : Taken ι ω) : Prop where
  inputs : ∀ e ∈ edges, e.isInto replaced = true →
    Matches replaced.inputs newBlock.inputs taken.inputs e.destinationPortDefinition
  outputs : ∀ e ∈ edges, e.isFrom replaced = true →
    Matches replaced.outputs newBlock.outputs taken.outputs e.sourcePortDefinition

/-- The pairs of both directions. -/
structure BothPaired (replaced newBlock : BlockModel ι ω) (taken : Taken ι ω) : Prop where
  inputs : Paired replaced.inputs newBlock.inputs taken.inputs
  outputs : Paired replaced.outputs newBlock.outputs taken.outputs

section Edges
variable [DecidableEq ι] [DecidableEq ω] {inputHandlers : Handlers ι} {outputHandlers : Handlers ω}
variable {replaced newBlock : BlockModel ι ω} {taken taken' : Taken ι ω}

theorem takeEdge_ok {e : Edge ι ω} {index : Nat}
    (h : takeEdge inputHandlers outputHandlers replaced newBlock e index taken = .ok taken')
    (hpaired : BothPaired replaced newBlock taken) :
    BothPaired replaced newBlock taken' ∧ taken.inputs ⊆ taken'.inputs ∧ taken.outputs ⊆ taken'.outputs ∧
      AllMatch replaced newBlock [e] taken' ∧
      taken'.takenOver = taken.takenOver ++ entries replaced newBlock [e] index := by
  unfold takeEdge at h
  unfold entries
  by_cases htouches : (!e.isFrom replaced && !e.isInto replaced) = true
  · rw [if_pos htouches] at h ⊢
    cases h
    simp only [Bool.and_eq_true, Bool.not_eq_true'] at htouches
    obtain ⟨hfrom, hinto⟩ := htouches
    refine ⟨hpaired, List.Subset.refl _, List.Subset.refl _, ⟨?_, ?_⟩, (List.append_nil _).symm⟩
    · intro e' he hi
      rw [List.mem_singleton.mp he, hinto] at hi
      cases hi
    · intro e' he hf
      rw [List.mem_singleton.mp he, hfrom] at hf
      cases hf
  · rw [if_neg htouches] at h ⊢
    split at h
    · cases h
    · next source outputs hsource =>
      split at h
      · cases h
      · next destination inputs hdestination =>
        cases h
        obtain ⟨hout, hsubout, rfl, hmout⟩ := takeEnd_ok hsource hpaired.outputs
        obtain ⟨hin, hsubin, rfl, hmin⟩ := takeEnd_ok hdestination hpaired.inputs
        refine ⟨⟨hin, hout⟩, hsubin, hsubout, ⟨?_, ?_⟩, rfl⟩
        · intro e' he hi
          rw [List.mem_singleton.mp he] at hi ⊢
          exact hmin hi
        · intro e' he hf
          rw [List.mem_singleton.mp he] at hf ⊢
          exact hmout hf

theorem takeEdges_ok {edges : List (Edge ι ω)} {index : Nat}
    (h : takeEdges inputHandlers outputHandlers replaced newBlock edges index taken = .ok taken')
    (hpaired : BothPaired replaced newBlock taken) :
    BothPaired replaced newBlock taken' ∧ taken.inputs ⊆ taken'.inputs ∧ taken.outputs ⊆ taken'.outputs ∧
      AllMatch replaced newBlock edges taken' ∧
      taken'.takenOver = taken.takenOver ++ entries replaced newBlock edges index := by
  induction edges generalizing index taken with
  | nil =>
    cases h
    refine ⟨hpaired, List.Subset.refl _, List.Subset.refl _, ⟨?_, ?_⟩, (List.append_nil _).symm⟩
    · exact fun e he => (List.not_mem_nil he).elim
    · exact fun e he => (List.not_mem_nil he).elim
  | cons e edges ih =>
    unfold takeEdges at h
    split at h
    · cases h
    · next mid hmid =>
      obtain ⟨hpaired₁, hin₁, hout₁, hmatch₁, hover₁⟩ := takeEdge_ok hmid hpaired
      obtain ⟨hpaired₂, hin₂, hout₂, hmatch₂, hover₂⟩ := ih h hpaired₁
      refine ⟨hpaired₂, List.Subset.trans hin₁ hin₂, List.Subset.trans hout₁ hout₂, ⟨?_, ?_⟩, ?_⟩
      · intro e' he hi
        obtain rfl | he := List.mem_cons.mp he
        · exact (hmatch₁.inputs _ (List.mem_singleton_self _) hi).mono hin₂
        · exact hmatch₂.inputs e' he hi
      · intro e' he hf
        obtain rfl | he := List.mem_cons.mp he
        · exact (hmatch₁.outputs _ (List.mem_singleton_self _) hf).mono hout₂
        · exact hmatch₂.outputs e' he hf
      · rw [hover₂, hover₁, List.append_assoc]
        congr 1
        by_cases htouches : (!e.isFrom replaced && !e.isInto replaced) = true
        · simp only [entries, if_pos htouches, List.nil_append]
        · simp only [entries, if_neg htouches, List.cons_append, List.nil_append]

omit [DecidableEq ι] [DecidableEq ω] in
theorem rewrite_eq_substitute (e : Edge ι ω) (index : Nat) :
    Edge.rewrite replaced newBlock
      ⟨index, endPort newBlock.outputs (e.isFrom replaced) e.sourcePortDefinition e.sourcePort,
        endPort newBlock.inputs (e.isInto replaced) e.destinationPortDefinition e.destinationPort⟩ e =
      e.substitute replaced newBlock := by
  have hinto (port : Option (DynamicPort ω)) :
      ({ e with
        sourceBlock := newBlock
        sourcePort := port } : Edge ι ω).isInto replaced = e.isInto replaced := rfl
  unfold Edge.rewrite Edge.substitute
  cases hf : e.isFrom replaced with
  | false =>
    cases hi : e.isInto replaced with
    | false | true => simp [endPort, hi]
  | true =>
    cases hi : e.isInto replaced with
    | false | true => simp [endPort, hinto, hi]

omit [DecidableEq ι] [DecidableEq ω] in
/-- The loop over the entries rewrites each edge of the replaced block once. -/
theorem rewriteEdges_entries (before edges : List (Edge ι ω)) :
    rewriteEdges replaced newBlock (entries replaced newBlock edges before.length) (before ++ edges) =
      before ++ edges.map (Edge.substitute replaced newBlock) := by
  induction edges generalizing before with
  | nil => rfl
  | cons e edges ih =>
    have hnext := ih (before ++ [e.substitute replaced newBlock])
    rw [List.length_append, List.length_singleton, List.append_assoc, List.append_assoc] at hnext
    rw [List.map_cons]
    by_cases htouches : (!e.isFrom replaced && !e.isInto replaced) = true
    · have hsame : e.substitute replaced newBlock = e := by
        simp only [Bool.and_eq_true, Bool.not_eq_true'] at htouches
        simp [Edge.substitute, endPort, htouches.1, htouches.2]
      rw [hsame] at hnext ⊢
      simp only [entries, if_pos htouches]
      exact hnext
    · simp only [entries, if_neg htouches]
      unfold rewriteEdges at hnext ⊢
      rw [List.foldl_cons]
      have hmodify (f : Edge ι ω → Edge ι ω) :
          (before ++ e :: edges).modify before.length f = before ++ f e :: edges :=
        List.modifyTailIdx_add (List.modifyHead f) 0 before (e :: edges)
      rw [hmodify, rewrite_eq_substitute]
      exact hnext

end Edges

/-! ### Handlers -/

/-- No port takes part in two exchanges. -/
theorem nodup_keys {replaced newBlock : DynamicPorts (DynamicPort π)} {pairs : List (PortPair π)}
    (h : Paired replaced newBlock pairs) (hreplaced : (replaced.all.map DynamicPort.port).Nodup)
    (hnew : (newBlock.all.map DynamicPort.port).Nodup)
    (happart : ∀ p ∈ replaced.all, ∀ q ∈ newBlock.all, p.port ≠ q.port) :
    (keys (pairs.map PortPair.ports)).Nodup := by
  unfold keys
  rw [List.flatMap_map, List.nodup_flatMap]
  constructor
  · intro pair hmem
    have hne := happart _ (h.replacedPort pair hmem) _ (h.newPort pair hmem)
    exact List.nodup_cons.mpr ⟨fun hx => hne (List.mem_singleton.mp hx), List.nodup_singleton _⟩
  · refine h.apart.imp_of_mem fun {a b} ha hb hne => ?_
    have hfst : a.replacedPort.port ≠ b.replacedPort.port := fun hx =>
      hne.1 (List.inj_on_of_nodup_map hreplaced (h.replacedPort a ha) (h.replacedPort b hb) hx)
    have hsnd : a.newPort.port ≠ b.newPort.port := fun hx =>
      hne.2 (List.inj_on_of_nodup_map hnew (h.newPort a ha) (h.newPort b hb) hx)
    have hab := happart _ (h.replacedPort a ha) _ (h.newPort b hb)
    have hba := happart _ (h.replacedPort b hb) _ (h.newPort a ha)
    change List.Disjoint _ _
    simp only [PortPair.ports, List.disjoint_cons_left, List.mem_cons, List.not_mem_nil, or_false,
      not_or, List.disjoint_nil_left, and_true]
    exact ⟨⟨hfst, hab⟩, hba.symm, hsnd⟩

section ExchangeAll
variable [DecidableEq ι] [DecidableEq ω] (taken : Taken ι ω) (w : Wiring α β ι ω)

theorem exchangeAll_rings : (exchangeAll taken w).rings = w.rings :=
  (Wiring.foldl_exchangeOutputs _ _).1.trans (Wiring.foldl_exchangeInputs _ _).1

theorem exchangeAll_reader : (exchangeAll taken w).reader = w.reader ∘ origin (taken.inputs.map PortPair.ports) :=
  (Wiring.foldl_exchangeOutputs _ _).2.1.trans (Wiring.foldl_exchangeInputs _ _).2.2

theorem exchangeAll_current : (exchangeAll taken w).current = w.current ∘ origin (taken.outputs.map PortPair.ports) := by
  rw [exchangeAll, (Wiring.foldl_exchangeOutputs _ _).2.2, (Wiring.foldl_exchangeInputs _ _).2.1]

/-- An output that took another's ring has as many readers as that one had. -/
theorem exchangeAll_outputConnected [Fintype ι] {o o' : ω} (h : (exchangeAll taken w).current o' = w.current o) :
    (exchangeAll taken w).outputConnected o' = w.outputConnected o := by
  have hreaders : (exchangeAll taken w).ringReaders = w.ringReaders :=
    funext (Wiring.ringReaders_perm _ (exchangeAll_reader taken w))
  unfold Wiring.outputConnected Wiring.nReaders
  rw [h, hreaders]

end ExchangeAll

/-! ### The new block -/

/-- A new block lists each of its ports once, and shares none with the blocks of the graph. -/
structure Created (blocks : List (BlockModel ι ω)) (newBlock : BlockModel ι ω) : Prop where
  ownPorts : OwnPorts newBlock
  inputs : ∀ b ∈ blocks, ∀ p ∈ b.inputs.all, ∀ q ∈ newBlock.inputs.all, p.port ≠ q.port
  outputs : ∀ b ∈ blocks, ∀ p ∈ b.outputs.all, ∀ q ∈ newBlock.outputs.all, p.port ≠ q.port

/-- The new block is where the replaced one was: in the list of blocks, in the edges, and at the rings. `Held` is what
    the output `q` has in place of the output `p`. -/
structure Substituted (Held : Wiring α β ι ω → DynamicPort ω → Wiring α β ι ω → DynamicPort ω → Prop)
    (replaced newBlock : BlockModel ι ω) (s s' : Flow α β ι ω) : Prop where
  blocks : ∃ before after, s.blocks = before ++ replaced :: after ∧ s'.blocks = before ++ newBlock :: after
  exportedPorts : s'.exportedPorts = s.exportedPorts
  edges : s'.edges = s.edges.map (Edge.substitute replaced newBlock)
  inputs : ∀ e ∈ s.edges, e.isInto replaced = true → ∃ p q,
    replaced.inputs.resolve e.destinationPortDefinition = some p ∧
      newBlock.inputs.resolve e.destinationPortDefinition = some q ∧
      s'.wiring.reader q.port = s.wiring.reader p.port ∧ s'.wiring.queued q.port = s.wiring.queued p.port
  outputs : ∀ e ∈ s.edges, e.isFrom replaced = true → ∃ p q,
    replaced.outputs.resolve e.sourcePortDefinition = some p ∧
      newBlock.outputs.resolve e.sourcePortDefinition = some q ∧ Held s.wiring p s'.wiring q
  otherInputs : ∀ i, (∀ p ∈ replaced.inputs.all, p.port ≠ i) → (∀ q ∈ newBlock.inputs.all, q.port ≠ i) →
    s'.wiring.reader i = s.wiring.reader i ∧ s'.wiring.queued i = s.wiring.queued i
  otherOutputs : ∀ o, (∀ p ∈ replaced.outputs.all, p.port ≠ o) → (∀ q ∈ newBlock.outputs.all, q.port ≠ o) →
    s'.wiring.current o = s.wiring.current o
  rings : s.wiring.rings <+: s'.wiring.rings

/-- A refused replacement leaves the graph as it was; another has put the new block in the place of the named one. -/
def AllOrNothing (Held : Wiring α β ι ω → DynamicPort ω → Wiring α β ι ω → DynamicPort ω → Prop) (uniqueName : Nat)
    (created : Except Error (BlockModel ι ω)) (s : Flow α β ι ω) :
    Except Error (BlockModel ι ω × BlockModel ι ω) × Flow α β ι ω → Prop
  | (.error _, s') => s' = s
  | (.ok (replaced, newBlock), s') =>
    replaced.uniqueName = uniqueName ∧ created = .ok newBlock ∧ Substituted Held replaced newBlock s s'

/-- The output `q` has the ring that the output `p` had. -/
def HasRing (w : Wiring α β ι ω) (p : DynamicPort ω) (w' : Wiring α β ι ω) (q : DynamicPort ω) : Prop :=
  w'.current q.port = w.current p.port

/-- An optional output gets a new ring where nobody read the one it took over and that one was smaller than `target`. -/
def HasRingOrNew [Fintype ι] (c : Config ι ω) (target : Nat) (w : Wiring α β ι ω) (p : DynamicPort ω)
    (w' : Wiring α β ι ω) (q : DynamicPort ω) : Prop :=
  if ¬ w.outputConnected p.port ∧ (c.outputInfo q.port).isSynchronous ∧ (c.outputInfo q.port).isOptional ∧
      w.bufferSize p.port < target then
    Wiring.NewRing c target w w' q.port
  else HasRing w p w' q

section ReplaceBlock
variable [DecidableEq ι] [DecidableEq ω] [Fintype ι] [Fintype ω]
variable (inputHandlers : Handlers ι) (outputHandlers : Handlers ω) (c : Config ι ω)

/-- The size for the unconnected optional outputs of a block. -/
def targetSize (w : Wiring α β ι ω) (b : Block ι ω) : Nat :=
  let maxConnectedSize := b.outputs.all.foldl (fun n o =>
    if w.outputConnected o ∧ (c.outputInfo o).isSynchronous ∧ (c.outputInfo o).portType = .stream then
      max n (w.bufferSize o) else n) 0
  if 0 < maxConnectedSize then maxConnectedSize else (around w).largestOutputChunk c b

omit [DecidableEq ι] in
theorem sizeUnconnectedOptionalOutputs_eq (w : Wiring α β ι ω) (b : BlockModel ι ω) :
    sizeUnconnectedOptionalOutputs c w (bare b) =
      (b.outputs.all.map DynamicPort.port).foldl (Wiring.sizeOne c (targetSize c w (bare b))) w := by
  rw [← DynamicPorts.all_map]
  rfl

omit [DecidableEq ι] [DecidableEq ω] [Fintype ι] [Fintype ω] in
theorem set_findIdx {l before after : List (BlockModel ι ω)} {found : BlockModel ι ω} (b : BlockModel ι ω)
    {p : BlockModel ι ω → Bool} (h : l = before ++ found :: after) (hfound : p found = true)
    (hbefore : ∀ b ∈ before, p b = false) : l.set (l.findIdx p) b = before ++ b :: after := by
  subst h
  induction before with
  | nil => simp [List.findIdx_cons, hfound]
  | cons first before ih =>
    have hrest := ih fun b hb => hbefore b (.tail _ hb)
    simp only [List.cons_append, List.findIdx_cons, hbefore first (.head _), cond_false, List.set_cons_succ]
    rw [hrest]

variable {inputHandlers outputHandlers c} {s : Flow α β ι ω} {replaced newBlock : BlockModel ι ω} {taken : Taken ι ω}

/-- Once all pairs are checked, the new block is put in place. -/
theorem substituted_of_taken {before after : List (BlockModel ι ω)} (hblocks : s.blocks = before ++ replaced :: after)
    (hown : OwnPorts replaced) (hcreated : Created s.blocks newBlock)
    (hok : takeEdges inputHandlers outputHandlers replaced newBlock s.edges 0 ⟨[], [], []⟩ = .ok taken) :
    Substituted (HasRingOrNew c (targetSize c (exchangeAll taken s.wiring) (bare newBlock))) replaced newBlock s
      { s with
        blocks := before ++ newBlock :: after
        edges := rewriteEdges replaced newBlock taken.takenOver s.edges
        wiring := sizeUnconnectedOptionalOutputs c (exchangeAll taken s.wiring) (bare newBlock) } := by
  have hmem : replaced ∈ s.blocks := by rw [hblocks]; simp
  have hstart : BothPaired replaced newBlock (⟨[], [], []⟩ : Taken ι ω) :=
    ⟨⟨List.Pairwise.nil, nofun, nofun⟩, ⟨List.Pairwise.nil, nofun, nofun⟩⟩
  obtain ⟨hpaired, -, -, hmatch, hover⟩ := takeEdges_ok hok hstart
  have hin := nodup_keys hpaired.inputs hown.1 hcreated.ownPorts.1 (hcreated.inputs replaced hmem)
  have hout := nodup_keys hpaired.outputs hown.2 hcreated.ownPorts.2 (hcreated.outputs replaced hmem)
  rw [sizeUnconnectedOptionalOutputs_eq]
  generalize htarget : targetSize c (exchangeAll taken s.wiring) (bare newBlock) = target
  obtain ⟨hreader, hrings, hother, hnew, hkept⟩ :=
    Wiring.foldl_sizeOne_spec c target hcreated.ownPorts.2 (exchangeAll taken s.wiring)
  rw [exchangeAll_rings] at hrings
  rw [exchangeAll_reader] at hreader
  have hnotin {π : Type} {replaced newBlock : DynamicPorts (DynamicPort π)} {pairs : List (PortPair π)} {k : π}
      (h : Paired replaced newBlock pairs) (hp : ∀ p ∈ replaced.all, p.port ≠ k) (hq : ∀ q ∈ newBlock.all, q.port ≠ k) :
      k ∉ keys (pairs.map PortPair.ports) := by
    intro hk
    obtain ⟨_, hports, hk⟩ := List.mem_flatMap.mp hk
    obtain ⟨pair, hpair, rfl⟩ := List.mem_map.mp hports
    obtain hk | hk := List.mem_pair.mp hk
    · exact hp _ (h.replacedPort pair hpair) hk.symm
    · exact hq _ (h.newPort pair hpair) hk.symm
  refine ⟨⟨before, after, hblocks, rfl⟩, rfl, ?_, ?_, ?_, ?_, ?_, hrings⟩
  · show rewriteEdges replaced newBlock taken.takenOver s.edges = _
    rw [hover]
    exact rewriteEdges_entries [] s.edges
  · intro e he hinto
    obtain ⟨p, q, hp, hq, hpair⟩ := hmatch.inputs e he hinto
    have hread := (congrFun hreader q.port).trans
      (congrArg s.wiring.reader (Exchange.origin_pair hin (List.mem_map_of_mem hpair)).2)
    exact ⟨p, q, hp, hq, hread, Wiring.queued_congr hread hrings⟩
  · intro e he hfrom
    obtain ⟨p, q, hp, hq, hpair⟩ := hmatch.outputs e he hfrom
    have hcurrent : (exchangeAll taken s.wiring).current q.port = s.wiring.current p.port := by
      rw [exchangeAll_current]
      exact congrArg s.wiring.current (Exchange.origin_pair hout (List.mem_map_of_mem hpair)).2
    have hundersized : (exchangeAll taken s.wiring).Undersized c target q.port ↔ ¬ s.wiring.outputConnected p.port ∧
        (c.outputInfo q.port).isSynchronous ∧ (c.outputInfo q.port).isOptional ∧ s.wiring.bufferSize p.port < target := by
      have hsize : (exchangeAll taken s.wiring).bufferSize q.port = s.wiring.bufferSize p.port :=
        Wiring.bufferSize_congr hcurrent (exchangeAll_rings taken s.wiring ▸ List.prefix_refl _)
      unfold Wiring.Undersized
      rw [exchangeAll_outputConnected taken s.wiring hcurrent, hsize]
    refine ⟨p, q, hp, hq, ?_⟩
    unfold HasRingOrNew
    split
    · next hcond =>
      have hq' := List.mem_map_of_mem (f := DynamicPort.port) (hpaired.outputs.newPort _ hpair)
      obtain ⟨k, hk, hring⟩ := hnew q.port (hundersized.mpr hcond) hq'
      exact ⟨k, exchangeAll_rings taken s.wiring ▸ hk, hring⟩
    · next hcond => exact (hkept q.port (fun hu => hcond (hundersized.mp hu))).trans hcurrent
  · intro i hp hq
    have hread := (congrFun hreader i).trans
      (congrArg s.wiring.reader (Exchange.origin_of_notMem (hnotin hpaired.inputs hp hq)))
    exact ⟨hread, Wiring.queued_congr hread hrings⟩
  · intro o hp hq
    have hnotmem : o ∉ newBlock.outputs.all.map DynamicPort.port := by
      intro ho
      obtain ⟨q, hmem, hport⟩ := List.mem_map.mp ho
      exact hq q hmem hport
    refine (hother o hnotmem).trans ?_
    rw [exchangeAll_current]
    exact congrArg s.wiring.current (Exchange.origin_of_notMem (hnotin hpaired.outputs hp hq))

/-- A replacement is refused and changes nothing, or the new block has the place, the edges and the rings of the named
    one. -/
theorem replaceBlock_allOrNothing (inputHandlers : Handlers ι) (outputHandlers : Handlers ω) (c : Config ι ω)
    (s : Flow α β ι ω) (uniqueName : Nat) (created : Except Error (BlockModel ι ω))
    (hown : ∀ b ∈ s.blocks, b.uniqueName = uniqueName → OwnPorts b)
    (hcreated : ∀ newBlock, created = .ok newBlock → Created s.blocks newBlock) :
    ∃ target, AllOrNothing (HasRingOrNew c target) uniqueName created s
      (s.replaceBlock inputHandlers outputHandlers c uniqueName created) := by
  unfold Flow.replaceBlock
  split
  · exact ⟨0, rfl⟩
  · next replaced hfind =>
    obtain ⟨hfound, before, after, hblocks, hbefore⟩ := List.find?_eq_some_iff_append.mp hfind
    have hname : replaced.uniqueName = uniqueName := eq_of_beq hfound
    by_cases hexports : (s.exportedPorts.any (· == uniqueName)) = true
    · rw [if_pos hexports]
      exact ⟨0, rfl⟩
    · rw [if_neg hexports]
      cases created with
      | error error => exact ⟨0, rfl⟩
      | ok newBlock =>
        dsimp only
        split
        · exact ⟨0, rfl⟩
        · next taken hok =>
          have hset := set_findIdx newBlock hblocks hfound fun b hb => Bool.not_eq_true' _ ▸ hbefore b hb
          refine ⟨targetSize c (exchangeAll taken s.wiring) (bare newBlock), hname, rfl, ?_⟩
          have hmem : replaced ∈ s.blocks := List.mem_of_find?_eq_some hfind
          rw [hset]
          exact substituted_of_taken hblocks (hown replaced hmem hname) (hcreated newBlock rfl) hok

end ReplaceBlock

/-! ### Replacements -/

/-- All ports are of one type, and nothing keeps them from an exchange. -/
def freeHandlers : Handlers (Fin 4) := ⟨fun _ => some ⟨0, "float", 4, 4⟩, fun _ => false⟩

def stageConfig (isOptional : Bool) : Config (Fin 4) (Fin 4) :=
  ⟨fun _ => ⟨"float", .stream, true, false, true⟩, fun _ => ⟨"float", .stream, true, isOptional, true⟩, id, 4, id⟩

/-- A block whose ports have the addresses of its inputs and outputs. -/
def stageBlock (uniqueName : Nat) (inputs outputs : List (Nat × Fin 4)) (outputChunkSize : Nat) :
    BlockModel (Fin 4) (Fin 4) :=
  ⟨uniqueName, inputs.map fun (address, p) => .port "in" ⟨address, p⟩,
    outputs.map fun (address, p) => .port "out" ⟨address, p⟩, [], 1, outputChunkSize, 0, [], false⟩

def sinkBlock : BlockModel (Fin 4) (Fin 4) := stageBlock 1 [(0, 0)] [] 1

def edgeToSink (source : BlockModel (Fin 4) (Fin 4)) (sourcePort : Nat) (state : Graph.EdgeState) :
    Edge (Fin 4) (Fin 4) :=
  ⟨source, .index sourcePort none, sinkBlock, .index 0 none, none, 4, state, none, none⟩

/-- One sample is in the ring of the output 0. -/
def oneRing : Wiring Nat Nat (Fin 4) (Fin 4) := (Wiring.empty.setRing 0 4).publish 0 [1] []

/-- A stage with the edges that leave it at these places, and a sink. -/
def stageFlow (stage : BlockModel (Fin 4) (Fin 4)) (sourcePorts : List Nat) (state : Graph.EdgeState)
    (wiring : Wiring Nat Nat (Fin 4) (Fin 4)) : Flow Nat Nat (Fin 4) (Fin 4) :=
  ⟨[stage, sinkBlock], sourcePorts.map (edgeToSink stage · state), [], wiring⟩

/-- Two edges leave one output, and the sink has a sample to read. -/
theorem connectedStage_allOrNothing : ∃ target, AllOrNothing (HasRingOrNew (stageConfig true) target) 0
    (.ok (stageBlock 2 [(4, 1)] [(5, 1)] 8))
    (stageFlow (stageBlock 0 [(2, 2)] [(3, 0)] 1) [0, 0] .connected ((oneRing.setReader 0 0).publish 0 [2] []))
    ((stageFlow (stageBlock 0 [(2, 2)] [(3, 0)] 1) [0, 0] .connected
      ((oneRing.setReader 0 0).publish 0 [2] [])).replaceBlock freeHandlers freeHandlers (stageConfig true) 0
        (.ok (stageBlock 2 [(4, 1)] [(5, 1)] 8))) :=
  replaceBlock_allOrNothing _ _ _ _ _ _ (by decide) (by
    intro newBlock h
    cases h
    exact ⟨by decide, by decide, by decide⟩)

/-- The optional output of the stage has a ring that nobody reads. The new block may ask for eight samples in one call, so
    that its output gets a ring of that size. -/
theorem not_allOrNothing : ¬ ∀ (inputHandlers outputHandlers : Handlers (Fin 4)) (c : Config (Fin 4) (Fin 4))
    (s : Flow Nat Nat (Fin 4) (Fin 4)) (uniqueName : Nat) (created : Except Error (BlockModel (Fin 4) (Fin 4))),
    (∀ b ∈ s.blocks, b.uniqueName = uniqueName → OwnPorts b) →
    (∀ newBlock, created = .ok newBlock → Created s.blocks newBlock) →
    AllOrNothing HasRing uniqueName created s (s.replaceBlock inputHandlers outputHandlers c uniqueName created) := by
  intro h
  obtain ⟨-, -, hsub⟩ := h freeHandlers freeHandlers (stageConfig true)
    (stageFlow (stageBlock 0 [(2, 2)] [(3, 0)] 1) [0] .errorConnecting oneRing) 0
    (.ok (stageBlock 2 [(4, 1)] [(5, 1)] 8)) (by decide) (by
      intro newBlock h
      cases h
      exact ⟨by decide, by decide, by decide⟩)
  obtain ⟨p, q, hp, hq, hring⟩ := hsub.outputs _ (.head _) (by decide)
  cases hp
  cases hq
  unfold HasRing at hring
  exact absurd hring (by decide)

end GnuRadio.Replacement
