import GnuRadio.Graph.Components
import Mathlib.Algebra.BigOperators.Group.List.Basic
import Mathlib.Data.List.Sort

/-! `weaklyConnectedComponents()` partitions a graph: its blocks, its edges between them, and the paths along these
    edges. A path through a block outside the graph joins nothing. -/

namespace GnuRadio.Graph

open Components (Joined)

variable {ι ω : Type} {g : Graph ι ω} {a b : Block ι ω} {e : Edge ι ω} {i j cid : Nat}

/-! ### Edges as they are compared -/

theorem Edge.same_iff {e other : Edge ι ω} : e.same other = true ↔
    e.sourceBlock.uniqueName = other.sourceBlock.uniqueName ∧
      e.destinationBlock.uniqueName = other.destinationBlock.uniqueName ∧
      e.sourcePortDefinition = other.sourcePortDefinition ∧
      e.destinationPortDefinition = other.destinationPortDefinition := by
  simp [Edge.same, and_assoc]

theorem Edge.same_refl (e : Edge ι ω) : e.same e = true := Edge.same_iff.mpr ⟨rfl, rfl, rfl, rfl⟩

theorem Edge.same_symm {e other : Edge ι ω} (h : e.same other = true) : other.same e = true := by
  obtain ⟨h₁, h₂, h₃, h₄⟩ := Edge.same_iff.mp h
  exact Edge.same_iff.mpr ⟨h₁.symm, h₂.symm, h₃.symm, h₄.symm⟩

theorem Edge.same_trans {e f h : Edge ι ω} (hef : e.same f = true) (hfh : f.same h = true) : e.same h = true := by
  obtain ⟨h₁, h₂, h₃, h₄⟩ := Edge.same_iff.mp hef
  obtain ⟨k₁, k₂, k₃, k₄⟩ := Edge.same_iff.mp hfh
  exact Edge.same_iff.mpr ⟨h₁.trans k₁, h₂.trans k₂, h₃.trans k₃, h₄.trans k₄⟩

/-! ### What a component has -/

namespace Component

def holds (c : Component ι ω) (b : Block ι ω) : Bool := c.blocks.any fun x => x.uniqueName == b.uniqueName

/-- How many of its edges equal an edge. -/
def copies (c : Component ι ω) (e : Edge ι ω) : Nat := c.edges.countP fun x => x.same e

variable {c : Component ι ω} {blocks : List (Block ι ω)} {edges : List (Edge ι ω)}

theorem holds_iff : c.holds b = true ↔ ∃ x ∈ c.blocks, x.uniqueName = b.uniqueName := by
  simp [holds]

theorem foldl_addBlock : blocks.foldl addBlock c = { c with blocks := c.blocks ++ blocks } := by
  induction blocks generalizing c with
  | nil => simp
  | cons x blocks ih => simp [ih, addBlock]

theorem blocks_foldl_addEdge : (edges.foldl addEdge c).blocks = c.blocks := by
  induction edges generalizing c with
  | nil => rfl
  | cons x edges ih =>
    rw [List.foldl_cons, ih, addEdge]
    split <;> rfl

theorem mem_addEdge {x : Edge ι ω} (h : x ∈ (c.addEdge e).edges) : x ∈ c.edges ∨ x = e := by
  unfold addEdge at h
  split at h
  · exact .inl h
  · simpa using h

theorem mem_foldl_addEdge (h : e ∈ (edges.foldl addEdge c).edges) : e ∈ c.edges ∨ e ∈ edges := by
  induction edges generalizing c with
  | nil => exact .inl h
  | cons x edges ih =>
    rcases ih h with h | h
    · rcases mem_addEdge h with h | rfl
      · exact .inl h
      · exact .inr (.head _)
    · exact .inr (List.mem_cons_of_mem x h)

theorem copies_eq_zero : c.copies e = 0 ↔ c.containsEdge e = false := by
  simp [copies, containsEdge, List.countP_eq_zero]

/-- An edge that is added is there once, when no edge is there twice. -/
theorem copies_addEdge (hc : ∀ e, c.copies e ≤ 1) (x : Edge ι ω) :
    (c.addEdge x).copies e = if x.same e then 1 else c.copies e := by
  unfold addEdge
  by_cases hx : c.containsEdge x = true
  · rw [if_pos hx]
    split
    · next hsame =>
      obtain ⟨y, hy, hyx⟩ := List.any_eq_true.mp hx
      have hpos : 0 < c.copies e := List.countP_pos_iff.mpr ⟨y, hy, Edge.same_trans hyx hsame⟩
      exact Nat.le_antisymm (hc e) hpos
    · rfl
  · rw [if_neg hx]
    have hcopies : ({ c with edges := c.edges ++ [x] } : Component ι ω).copies e =
        c.copies e + if x.same e then 1 else 0 := by
      simp [copies, List.countP_append, List.countP_singleton]
    rw [hcopies]
    split
    · next hsame =>
      have hzero : c.copies e = 0 := by
        rw [copies_eq_zero, Bool.eq_false_iff]
        intro he
        obtain ⟨y, hy, hye⟩ := List.any_eq_true.mp he
        exact hx (List.any_eq_true.mpr ⟨y, hy, Edge.same_trans hye (Edge.same_symm hsame)⟩)
      rw [hzero]
    · rfl

theorem copies_foldl_addEdge (hc : ∀ e, c.copies e ≤ 1) :
    (edges.foldl addEdge c).copies e = if edges.any (·.same e) then 1 else c.copies e := by
  induction edges generalizing c with
  | nil => rfl
  | cons x edges ih =>
    have hstep (f : Edge ι ω) : (c.addEdge x).copies f ≤ 1 := by
      rw [copies_addEdge hc]
      split
      · exact Nat.le_refl 1
      · exact hc f
    rw [List.foldl_cons, ih hstep, copies_addEdge hc, List.any_cons]
    cases x.same e <;> cases edges.any (·.same e) <;> rfl

end Component

/-! ### Places -/

theorem indexOf_eq_some (h : indexOf g b = some i) : ∃ x, g.blocks[i]? = some x ∧ x.uniqueName = b.uniqueName := by
  obtain ⟨hi, hname, -⟩ := List.findIdx?_eq_some_iff_getElem.mp h
  exact ⟨g.blocks[i], List.getElem?_eq_getElem hi, by simpa using hname⟩

theorem indexOf_lt (h : indexOf g b = some i) : i < g.blocks.length :=
  (List.findIdx?_eq_some_iff_getElem.mp h).1

theorem indexOf_congr (h : a.uniqueName = b.uniqueName) : indexOf g a = indexOf g b := by
  unfold indexOf
  rw [h]

theorem exists_indexOf (h : ∃ x ∈ g.blocks, x.uniqueName = b.uniqueName) : ∃ i, indexOf g b = some i := by
  rw [← Option.isSome_iff_exists, indexOf, List.findIdx?_isSome]
  simpa using h

theorem mem_adjacencyList : j ∈ adjacencyList g i ↔ ∃ e ∈ g.edges,
    indexOf g e.sourceBlock = some i ∧ indexOf g e.destinationBlock = some j ∨
      indexOf g e.sourceBlock = some j ∧ indexOf g e.destinationBlock = some i := by
  unfold adjacencyList
  rw [List.mem_flatMap]
  refine exists_congr fun e => and_congr_right fun _ => ?_
  cases hs : indexOf g e.sourceBlock with
  | none => simp
  | some s =>
    cases hd : indexOf g e.destinationBlock with
    | none => simp
    | some d =>
      simp only [List.mem_append, Option.some.injEq]
      by_cases hsi : s = i <;> by_cases hdi : d = i <;> simp [hsi, hdi, eq_comm]

theorem adjacencyList_symm (i j : Nat) (h : j ∈ adjacencyList g i) : i ∈ adjacencyList g j := by
  obtain ⟨e, he, h⟩ := mem_adjacencyList.mp h
  exact mem_adjacencyList.mpr ⟨e, he, h.symm⟩

theorem adjacencyList_closed (i : Nat) (_ : i ∈ List.range g.blocks.length) (j : Nat) (h : j ∈ adjacencyList g i) :
    j ∈ List.range g.blocks.length := by
  obtain ⟨e, -, ⟨-, h⟩ | ⟨h, -⟩⟩ := mem_adjacencyList.mp h
  · exact List.mem_range.mpr (indexOf_lt h)
  · exact List.mem_range.mpr (indexOf_lt h)

/-- Only the first place of a block has neighbours. -/
theorem indexOf_of_mem_adjacencyList (h : j ∈ adjacencyList g i) (hb : g.blocks[i]? = some b) :
    indexOf g b = some i := by
  have hfirst {a : Block ι ω} (ha : indexOf g a = some i) : indexOf g b = some i := by
    obtain ⟨x, hx, hname⟩ := indexOf_eq_some ha
    cases hb.symm.trans hx
    rw [indexOf_congr hname, ha]
  obtain ⟨e, -, ⟨h, -⟩ | ⟨-, h⟩⟩ := mem_adjacencyList.mp h
  · exact hfirst h
  · exact hfirst h

theorem indexOf_of_joined (h : Joined (adjacencyList g) i j) (hij : i ≠ j) (hb : g.blocks[i]? = some b) :
    indexOf g b = some i := by
  rcases h.cases_head with rfl | ⟨k, hk, -⟩
  · exact absurd rfl hij
  · exact indexOf_of_mem_adjacencyList hk hb

/-- Two places that are joined have the same block only when they are one. -/
theorem eq_of_joined (h : Joined (adjacencyList g) i j) (ha : g.blocks[i]? = some a) (hb : g.blocks[j]? = some b)
    (hname : a.uniqueName = b.uniqueName) : i = j := by
  by_contra hij
  have hi := indexOf_of_joined h hij ha
  have hj := indexOf_of_joined (h.symm adjacencyList_symm) (Ne.symm hij) hb
  rw [indexOf_congr hname, hj] at hi
  exact hij (Option.some.inj hi).symm

/-! ### Paths -/

/-- Both ends of an edge are blocks of the graph. -/
def Graph.isInside (g : Graph ι ω) (e : Edge ι ω) : Bool :=
  (indexOf g e.sourceBlock).isSome && (indexOf g e.destinationBlock).isSome

/-- A path along some edges, each taken in either direction, from one block to another. -/
def JoinedBy (edges : List (Edge ι ω)) (a b : Nat) : Prop :=
  Relation.ReflTransGen (fun x y => ∃ e ∈ edges,
    e.sourceBlock.uniqueName = x ∧ e.destinationBlock.uniqueName = y ∨
      e.sourceBlock.uniqueName = y ∧ e.destinationBlock.uniqueName = x) a b

theorem joinedBy_of_joined (h : Joined (adjacencyList g) i j) (ha : g.blocks[i]? = some a)
    (hb : g.blocks[j]? = some b) : JoinedBy (g.edges.filter g.isInside) a.uniqueName b.uniqueName := by
  induction h generalizing b with
  | refl =>
    cases ha.symm.trans hb
    exact .refl
  | @tail k j _ hstep ih =>
    obtain ⟨e, he, hends⟩ := mem_adjacencyList.mp hstep
    have hinside : e ∈ g.edges.filter g.isInside := by
      refine List.mem_filter.mpr ⟨he, ?_⟩
      rcases hends with ⟨hs, hd⟩ | ⟨hs, hd⟩ <;> simp [Graph.isInside, hs, hd]
    have hname {x : Block ι ω} (hx : indexOf g x = some j) : x.uniqueName = b.uniqueName := by
      obtain ⟨y, hy, hyx⟩ := indexOf_eq_some hx
      cases hb.symm.trans hy
      exact hyx.symm
    rcases hends with ⟨hs, hd⟩ | ⟨hs, hd⟩
    · obtain ⟨x, hx, hxs⟩ := indexOf_eq_some hs
      exact (ih hx).tail ⟨e, hinside, .inl ⟨hxs.symm, hname hd⟩⟩
    · obtain ⟨x, hx, hxd⟩ := indexOf_eq_some hd
      exact (ih hx).tail ⟨e, hinside, .inr ⟨hname hs, hxd.symm⟩⟩

theorem joined_of_joinedBy {x y : Nat} (h : JoinedBy (g.edges.filter g.isInside) x y)
    (ha : a.uniqueName = x) (hb : b.uniqueName = y) (hi : indexOf g a = some i) :
    ∃ j, indexOf g b = some j ∧ Joined (adjacencyList g) i j := by
  induction h generalizing b with
  | refl => exact ⟨i, (indexOf_congr (hb.trans ha.symm)).trans hi, .refl⟩
  | tail _ hstep ih =>
    obtain ⟨e, he, hends⟩ := hstep
    obtain ⟨he, hinside⟩ := List.mem_filter.mp he
    obtain ⟨hs, hd⟩ := Bool.and_eq_true_iff.mp hinside
    obtain ⟨s, hs⟩ := Option.isSome_iff_exists.mp hs
    obtain ⟨d, hd⟩ := Option.isSome_iff_exists.mp hd
    rcases hends with ⟨hx, hy⟩ | ⟨hy, hx⟩
    · obtain ⟨k, hk, hjoined⟩ := ih hx
      cases hk.symm.trans hs
      refine ⟨d, (indexOf_congr (hb.trans hy.symm)).trans hd, hjoined.tail ?_⟩
      exact mem_adjacencyList.mpr ⟨e, he, .inl ⟨hs, hd⟩⟩
    · obtain ⟨k, hk, hjoined⟩ := ih hx
      cases hk.symm.trans hd
      refine ⟨s, (indexOf_congr (hb.trans hy.symm)).trans hs, hjoined.tail ?_⟩
      exact mem_adjacencyList.mpr ⟨e, he, .inr ⟨hs, hd⟩⟩

/-! ### The components by their numbers -/

theorem compLabels_sound : Components.Sound (adjacencyList g) (List.range g.blocks.length) (compLabels g) :=
  Components.labelled_sound adjacencyList_closed adjacencyList_symm

theorem mem_comp : i ∈ comp g cid ↔ (compLabels g).label i = some cid := by
  rw [compLabels_sound.label, comp]
  cases (compLabels g).components[cid]? <;> simp

theorem lt_of_mem_comp (h : i ∈ comp g cid) : i < g.blocks.length := by
  have hmem : i ∈ (compLabels g).components.flatten := by
    rw [compLabels_sound.mem_iff, mem_comp.mp h]
    exact Option.some_ne_none cid
  exact List.mem_range.mp (compLabels_sound.vertices i hmem)

theorem joined_of_mem_comp (hi : i ∈ comp g cid) (hj : j ∈ comp g cid) : Joined (adjacencyList g) i j := by
  have hlt := List.mem_range.mpr (lt_of_mem_comp hi)
  refine (Components.label_eq_iff adjacencyList_closed adjacencyList_symm hlt).mp ?_
  exact (mem_comp.mp hi).trans (mem_comp.mp hj).symm

theorem mem_comp_of_joined (hi : i ∈ comp g cid) (h : Joined (adjacencyList g) i j) : j ∈ comp g cid := by
  have hlt := List.mem_range.mpr (lt_of_mem_comp hi)
  exact mem_comp.mpr (((Components.label_eq_iff adjacencyList_closed adjacencyList_symm hlt).mpr h).symm.trans
    (mem_comp.mp hi))

theorem exists_comp (hi : i < g.blocks.length) : ∃ cid, i ∈ comp g cid := by
  have hlabel := Components.label_labelled adjacencyList_closed adjacencyList_symm (List.mem_range.mpr hi)
  obtain ⟨cid, hcid⟩ := Option.ne_none_iff_exists'.mp hlabel
  exact ⟨cid, mem_comp.mpr hcid⟩

theorem nodup_comp : (comp g cid).Nodup := by
  unfold comp
  cases hc : (compLabels g).components[cid]? with
  | none => exact List.nodup_nil
  | some component => exact (List.nodup_flatten.mp compLabels_sound.nodup).1 component (List.mem_of_getElem? hc)

/-- The blocks of the component with a number. -/
def compBlocks (g : Graph ι ω) (cid : Nat) : List (Block ι ω) := (comp g cid).filterMap (g.blocks[·]?)

theorem mem_compBlocks : b ∈ compBlocks g cid ↔ ∃ i ∈ comp g cid, g.blocks[i]? = some b := List.mem_filterMap

theorem length_compBlocks : (compBlocks g cid).length = (comp g cid).length := by
  rw [compBlocks, List.length_filterMap_eq_countP, List.countP_eq_length]
  intro i hi
  rw [List.getElem?_eq_getElem (lt_of_mem_comp hi)]
  rfl

/-- No two blocks of a component are one. -/
theorem nodup_names_compBlocks : ((compBlocks g cid).map Block.uniqueName).Nodup := by
  rw [List.Nodup, List.pairwise_map, compBlocks, List.pairwise_filterMap]
  refine nodup_comp.pairwise_of_forall_ne fun i hi j hj hij a ha b hb hname => hij ?_
  exact eq_of_joined (joined_of_mem_comp hi hj) ha hb hname

theorem countP_compBlocks (b : Block ι ω) : (compBlocks g cid).countP (fun x => x.uniqueName == b.uniqueName) =
    if (compBlocks g cid).any (fun x => x.uniqueName == b.uniqueName) then 1 else 0 := by
  have hnodup : ((compBlocks g cid).map Block.uniqueName).Nodup := nodup_names_compBlocks
  have hcount := hnodup.count (a := b.uniqueName)
  rw [List.count, List.countP_map] at hcount
  simpa [Function.comp_def] using hcount

theorem map_range_getElem? {α : Type} (l : List α) : (List.range l.length).map (l[·]?) = l.map some := by
  refine List.ext_getElem (by simp) fun i hi _ => ?_
  rw [List.length_map, List.length_range] at hi
  simp [hi]

theorem flatMap_compBlocks :
    (List.range (compLabels g).components.length).flatMap (compBlocks g) =
      (compLabels g).components.flatten.filterMap (g.blocks[·]?) := by
  have hmap := congrArg (List.flatMap fun c : Option (List Nat) => (c.getD []).filterMap (g.blocks[·]?))
    (map_range_getElem? (compLabels g).components)
  rw [List.flatMap_map, List.flatMap_map] at hmap
  rw [List.filterMap_flatten, ← List.flatMap_def]
  exact hmap

theorem componentOrder_perm (r : RangesSort) :
    (componentOrder g r).Perm (List.range (compLabels g).components.length) := r.perm _ _

/-- Each block is in the components as often as the graph lists it. -/
theorem blocks_perm (r : RangesSort) : ((componentOrder g r).flatMap (compBlocks g)).Perm g.blocks := by
  refine ((componentOrder_perm r).flatMap_right _).trans ?_
  rw [flatMap_compBlocks]
  refine ((Components.components_perm adjacencyList_closed adjacencyList_symm List.nodup_range).filterMap _).trans ?_
  have hmap := congrArg (List.filterMap id) (map_range_getElem? g.blocks)
  rw [List.filterMap_map, List.filterMap_map, Function.id_comp, Function.id_comp, List.filterMap_some] at hmap
  rw [hmap]

/-! ### The edges -/

theorem edgeRank_eq_some (r : RangesSort) {rank : Nat} (h : edgeRank g r e = some rank) :
    ∃ s d cid, indexOf g e.sourceBlock = some s ∧ indexOf g e.destinationBlock = some d ∧ s ∈ comp g cid ∧
      d ∈ comp g cid ∧ (componentOrder g r)[rank]? = some cid := by
  simp only [edgeRank, Option.bind_eq_bind, Option.bind_eq_some_iff, Option.ite_none_right_eq_some,
    Option.some.injEq] at h
  obtain ⟨s, hs, d, hd, cid, hcs, cid', hcd, rfl, rfl⟩ := h
  refine ⟨s, d, cid, hs, hd, mem_comp.mpr hcs, mem_comp.mpr hcd, List.getElem?_idxOf ?_⟩
  obtain ⟨component, hc, -⟩ := (compLabels_sound.label s cid).mp hcs
  exact (componentOrder_perm r).mem_iff.mpr (List.mem_range.mpr (List.getElem?_eq_some_iff.mp hc).1)

/-- Each edge between blocks of the graph has a place. -/
theorem exists_edgeRank (r : RangesSort) (he : e ∈ g.edges) (hinside : g.isInside e = true) :
    ∃ rank, edgeRank g r e = some rank := by
  obtain ⟨hs, hd⟩ := Bool.and_eq_true_iff.mp hinside
  obtain ⟨s, hs⟩ := Option.isSome_iff_exists.mp hs
  obtain ⟨d, hd⟩ := Option.isSome_iff_exists.mp hd
  obtain ⟨cid, hcid⟩ := exists_comp (indexOf_lt hs)
  have hjoined : Joined (adjacencyList g) s d := .single (mem_adjacencyList.mpr ⟨e, he, .inl ⟨hs, hd⟩⟩)
  have hcidD := mem_comp_of_joined hcid hjoined
  exact ⟨_, by simp [edgeRank, hs, hd, mem_comp.mp hcid, mem_comp.mp hcidD]; rfl⟩

theorem edgeRank_congr (r : RangesSort) {x : Edge ι ω} (h : x.same e = true) : edgeRank g r x = edgeRank g r e := by
  obtain ⟨hs, hd, -, -⟩ := Edge.same_iff.mp h
  unfold edgeRank
  rw [indexOf_congr hs, indexOf_congr hd]

theorem getElem?_foldl_addToComponent (r : RangesSort) (edges : List (Edge ι ω)) (result : List (Component ι ω))
    (rank : Nat) : (edges.foldl (addToComponent g r) result)[rank]? =
      result[rank]?.map fun c => (edges.filter fun e => decide (edgeRank g r e = some rank)).foldl Component.addEdge c := by
  induction edges generalizing result with
  | nil => simp
  | cons e edges ih =>
    rw [List.foldl_cons, ih, addToComponent]
    cases hrank : edgeRank g r e with
    | none => simp [hrank]
    | some k =>
      rw [List.getElem?_modify]
      by_cases hk : k = rank
      · cases result[rank]? <;> simp [hrank, hk]
      · cases result[rank]? <;> simp [hrank, hk]

/-- The component at a place of the result. -/
theorem getElem?_weaklyConnectedComponents (r : RangesSort) (rank : Nat) :
    (weaklyConnectedComponents g r)[rank]? = (componentOrder g r)[rank]?.map fun cid =>
      (g.edges.filter fun e => decide (edgeRank g r e = some rank)).foldl Component.addEdge
        ⟨compBlocks g cid, []⟩ := by
  rw [weaklyConnectedComponents, getElem?_foldl_addToComponent, List.getElem?_map, Option.map_map]
  refine congrArg (fun f => (componentOrder g r)[rank]?.map f) (funext fun cid => ?_)
  rw [Function.comp_apply, Component.foldl_addBlock]
  rfl

theorem blocks_weaklyConnectedComponents (r : RangesSort) :
    (weaklyConnectedComponents g r).map Component.blocks = (componentOrder g r).map (compBlocks g) := by
  refine List.ext_getElem? fun rank => ?_
  rw [List.getElem?_map, List.getElem?_map, getElem?_weaklyConnectedComponents, Option.map_map]
  refine congrArg (fun f => (componentOrder g r)[rank]?.map f) (funext fun cid => ?_)
  rw [Function.comp_apply, Component.blocks_foldl_addEdge]

/-! ### The partition -/

/-- The blocks of `g`, each in as many components as `times` says, its edges between them, and the paths along some
    edges. -/
structure Partitions (edges : List (Edge ι ω)) (times : Block ι ω → Nat) (g : Graph ι ω)
    (components : List (Component ι ω)) : Prop where
  blocks : (components.flatMap Component.blocks).Perm g.blocks
  times : ∀ b ∈ g.blocks, (components.countP fun c => c.holds b) = times b
  joined : ∀ a ∈ g.blocks, ∀ b ∈ g.blocks,
    (∃ c ∈ components, c.holds a = true ∧ c.holds b = true) ↔ JoinedBy edges a.uniqueName b.uniqueName
  inside : ∀ e ∈ g.edges, g.isInside e = true → ∃ (rank : Nat) (c : Component ι ω), components[rank]? = some c ∧
    c.holds e.sourceBlock = true ∧ c.holds e.destinationBlock = true ∧ c.copies e = 1 ∧
    ∀ (other : Nat) (d : Component ι ω), components[other]? = some d → other ≠ rank → d.copies e = 0
  edges : ∀ c ∈ components, ∀ e ∈ c.edges,
    e ∈ g.edges ∧ c.holds e.sourceBlock = true ∧ c.holds e.destinationBlock = true
  sorted : components.Pairwise fun c d => d.blocks.length ≤ c.blocks.length

/-- How often the graph lists a block. -/
def listedTimes (g : Graph ι ω) (b : Block ι ω) : Nat := g.blocks.countP fun x => x.uniqueName == b.uniqueName

theorem sum_map_ite {α : Type} (p : α → Bool) (l : List α) : (l.map fun x => if p x then 1 else 0).sum = l.countP p := by
  induction l with
  | nil => rfl
  | cons x l ih => rw [List.map_cons, List.sum_cons, ih, List.countP_cons, Nat.add_comm]

section Partition
variable (r : RangesSort) {c : Component ι ω}

theorem exists_component (hc : c ∈ weaklyConnectedComponents g r) :
    ∃ rank cid, (componentOrder g r)[rank]? = some cid ∧ c.blocks = compBlocks g cid ∧
      c = (g.edges.filter fun e => decide (edgeRank g r e = some rank)).foldl Component.addEdge
        ⟨compBlocks g cid, []⟩ := by
  obtain ⟨rank, hrank⟩ := List.mem_iff_getElem?.mp hc
  rw [getElem?_weaklyConnectedComponents, Option.map_eq_some_iff] at hrank
  obtain ⟨cid, hcid, rfl⟩ := hrank
  exact ⟨rank, cid, hcid, Component.blocks_foldl_addEdge, rfl⟩

theorem holds_iff_compBlocks (hblocks : c.blocks = compBlocks g cid) :
    c.holds b = true ↔ ∃ i ∈ comp g cid, ∃ x, g.blocks[i]? = some x ∧ x.uniqueName = b.uniqueName := by
  rw [Component.holds_iff, hblocks]
  constructor
  · rintro ⟨x, hx, hname⟩
    obtain ⟨i, hi, hx⟩ := mem_compBlocks.mp hx
    exact ⟨i, hi, x, hx, hname⟩
  · rintro ⟨i, hi, x, hx, hname⟩
    exact ⟨x, mem_compBlocks.mpr ⟨i, hi, hx⟩, hname⟩

theorem holds_of_indexOf (hblocks : c.blocks = compBlocks g cid) (hi : indexOf g b = some i) (hc : i ∈ comp g cid) :
    c.holds b = true := by
  obtain ⟨x, hx, hname⟩ := indexOf_eq_some hi
  exact (holds_iff_compBlocks hblocks).mpr ⟨i, hc, x, hx, hname⟩

theorem flatMap_blocks_perm : ((weaklyConnectedComponents g r).flatMap Component.blocks).Perm g.blocks := by
  rw [List.flatMap_def, blocks_weaklyConnectedComponents, ← List.flatMap_def]
  exact blocks_perm r

/-- The components that hold a block are as many as the graph lists it. -/
theorem countP_holds (b : Block ι ω) :
    ((weaklyConnectedComponents g r).countP fun c => c.holds b) = listedTimes g b := by
  have honce (c : Component ι ω) (hc : c ∈ weaklyConnectedComponents g r) :
      (c.blocks.countP fun x => x.uniqueName == b.uniqueName) = if c.holds b then 1 else 0 := by
    obtain ⟨rank, cid, -, hblocks, -⟩ := exists_component r hc
    rw [Component.holds, hblocks]
    exact countP_compBlocks b
  have hcount : listedTimes g b =
      ((weaklyConnectedComponents g r).map fun c => c.blocks.countP fun x => x.uniqueName == b.uniqueName).sum := by
    rw [listedTimes, ← (flatMap_blocks_perm r).countP_eq, List.countP_flatMap]
    rfl
  rw [hcount, List.map_congr_left honce, sum_map_ite]

theorem joined_iff (ha : a ∈ g.blocks) :
    (∃ c ∈ weaklyConnectedComponents g r, c.holds a = true ∧ c.holds b = true) ↔
      JoinedBy (g.edges.filter g.isInside) a.uniqueName b.uniqueName := by
  constructor
  · rintro ⟨c, hc, ha, hb⟩
    obtain ⟨rank, cid, -, hblocks, -⟩ := exists_component r hc
    obtain ⟨i, hi, x, hx, hxa⟩ := (holds_iff_compBlocks hblocks).mp ha
    obtain ⟨j, hj, y, hy, hyb⟩ := (holds_iff_compBlocks hblocks).mp hb
    have hpath := joinedBy_of_joined (joined_of_mem_comp hi hj) hx hy
    rwa [hxa, hyb] at hpath
  · intro h
    obtain ⟨i, hi⟩ := exists_indexOf ⟨a, ha, rfl⟩
    obtain ⟨j, hj, hjoined⟩ := joined_of_joinedBy h rfl rfl hi
    obtain ⟨cid, hcid⟩ := exists_comp (indexOf_lt hi)
    have hcomp : compBlocks g cid ∈ (weaklyConnectedComponents g r).map Component.blocks := by
      rw [blocks_weaklyConnectedComponents]
      refine List.mem_map_of_mem ((componentOrder_perm r).mem_iff.mpr (List.mem_range.mpr ?_))
      obtain ⟨component, hc, -⟩ := (compLabels_sound.label i cid).mp (mem_comp.mp hcid)
      exact (List.getElem?_eq_some_iff.mp hc).1
    obtain ⟨c, hc, hblocks⟩ := List.mem_map.mp hcomp
    exact ⟨c, hc, holds_of_indexOf hblocks hi hcid, holds_of_indexOf hblocks hj (mem_comp_of_joined hcid hjoined)⟩

theorem copies_component (rank : Nat) (cid : Nat) (e : Edge ι ω) :
    ((g.edges.filter fun e => decide (edgeRank g r e = some rank)).foldl Component.addEdge
      (⟨compBlocks g cid, []⟩ : Component ι ω)).copies e =
      if (g.edges.filter fun e => decide (edgeRank g r e = some rank)).any (·.same e) then 1 else 0 :=
  Component.copies_foldl_addEdge fun _ => Nat.zero_le 1

/-- An edge between blocks of the graph is in one component, once. -/
theorem inside_component (he : e ∈ g.edges) (hinside : g.isInside e = true) :
    ∃ (rank : Nat) (c : Component ι ω), (weaklyConnectedComponents g r)[rank]? = some c ∧
      c.holds e.sourceBlock = true ∧ c.holds e.destinationBlock = true ∧ c.copies e = 1 ∧
      ∀ (other : Nat) (d : Component ι ω), (weaklyConnectedComponents g r)[other]? = some d → other ≠ rank →
        d.copies e = 0 := by
  obtain ⟨rank, hrank⟩ := exists_edgeRank r he hinside
  obtain ⟨s, d, cid, hs, hd, hcs, hcd, hcid⟩ := edgeRank_eq_some r hrank
  refine ⟨rank, _, by rw [getElem?_weaklyConnectedComponents, hcid]; rfl, ?_, ?_, ?_, ?_⟩
  · exact holds_of_indexOf Component.blocks_foldl_addEdge hs hcs
  · exact holds_of_indexOf Component.blocks_foldl_addEdge hd hcd
  · rw [copies_component, if_pos]
    exact List.any_eq_true.mpr ⟨e, List.mem_filter.mpr ⟨he, decide_eq_true hrank⟩, e.same_refl⟩
  · intro other c hc hne
    rw [getElem?_weaklyConnectedComponents, Option.map_eq_some_iff] at hc
    obtain ⟨cid', -, rfl⟩ := hc
    rw [copies_component, if_neg]
    intro hany
    obtain ⟨x, hx, hsame⟩ := List.any_eq_true.mp hany
    have hother := of_decide_eq_true (List.mem_filter.mp hx).2
    rw [edgeRank_congr r hsame, hrank] at hother
    exact hne (Option.some.inj hother).symm

theorem edges_component (hc : c ∈ weaklyConnectedComponents g r) (he : e ∈ c.edges) :
    e ∈ g.edges ∧ c.holds e.sourceBlock = true ∧ c.holds e.destinationBlock = true := by
  obtain ⟨rank, cid, hcid, hblocks, rfl⟩ := exists_component r hc
  obtain ⟨he, hrank⟩ := List.mem_filter.mp ((Component.mem_foldl_addEdge he).resolve_left List.not_mem_nil)
  obtain ⟨s, d, cid', hs, hd, hcs, hcd, hcid'⟩ := edgeRank_eq_some r (of_decide_eq_true hrank)
  cases hcid.symm.trans hcid'
  exact ⟨he, holds_of_indexOf hblocks hs hcs, holds_of_indexOf hblocks hd hcd⟩

theorem sorted_components :
    (weaklyConnectedComponents g r).Pairwise fun c d => d.blocks.length ≤ c.blocks.length := by
  have hsorted := r.sorted (fun cid => (comp g cid).length) (List.range (compLabels g).components.length)
  have hblocks : ((weaklyConnectedComponents g r).map Component.blocks).Pairwise fun c d => d.length ≤ c.length := by
    rw [blocks_weaklyConnectedComponents, List.pairwise_map]
    simp only [length_compBlocks]
    exact hsorted
  exact List.pairwise_map.mp hblocks

/-- Each block is in as many components as the graph lists it, which is one where it lists no block twice. Two blocks
    are in one component exactly when edges between blocks of the graph join them, and each of these edges is in the
    component of its ends. -/
theorem weaklyConnectedComponents_partitions (g : Graph ι ω) :
    Partitions (g.edges.filter g.isInside) (listedTimes g) g (weaklyConnectedComponents g r) where
  blocks := flatMap_blocks_perm r
  times b _ := countP_holds r b
  joined _ ha _ _ := joined_iff r ha
  inside _ he hinside := inside_component r he hinside
  edges _ hc _ he := edges_component r hc he
  sorted := sorted_components r

end Partition

/-! ### A block outside the graph -/

def loneBlock (uniqueName : Nat) : Block Nat Nat := ⟨uniqueName, [], [], [], 1, 1, 0, [], false⟩

def loneEdge (source destination : Nat) : Edge Nat Nat :=
  ⟨0, loneBlock source, .index 0 none, loneBlock destination, .index 0 none, none⟩

/-- Edges from the block 0 to a block that the graph does not have, and from there to the block 1. -/
def throughOutside : Graph Nat Nat :=
  .mk 9 (.block (loneBlock 0) (.block (loneBlock 1) .nil)) [loneEdge 0 2, loneEdge 2 1] [] []

def listedTwice : Graph Nat Nat := .mk 9 (.block (loneBlock 0) (.block (loneBlock 0) .nil)) [] [] []

def largestFirst : RangesSort where
  sort size order := order.insertionSort fun a b => size b ≤ size a
  perm _ order := List.perm_insertionSort _ order
  sorted size order := List.pairwise_insertionSort (fun a b => size b ≤ size a) order

/-- The block outside the graph joins nothing, and a block that is listed twice is in two components. -/
theorem components_through_outside :
    ¬ Partitions throughOutside.edges (fun _ => 1) throughOutside
        (weaklyConnectedComponents throughOutside largestFirst) ∧
      ¬ Partitions (listedTwice.edges.filter listedTwice.isInside) (fun _ => 1) listedTwice
        (weaklyConnectedComponents listedTwice largestFirst) := by
  refine ⟨fun h => ?_, fun h => ?_⟩
  · have hpath : JoinedBy throughOutside.edges 0 1 :=
      .tail (.single ⟨loneEdge 0 2, .head _, .inl ⟨rfl, rfl⟩⟩)
        ⟨loneEdge 2 1, .tail _ (.head _), .inl ⟨rfl, rfl⟩⟩
    have hone := (h.joined (loneBlock 0) (by decide) (loneBlock 1) (by decide)).mpr hpath
    revert hone
    decide
  · have htwo := h.times (loneBlock 0) (by decide)
    revert htwo
    decide

end GnuRadio.Graph
