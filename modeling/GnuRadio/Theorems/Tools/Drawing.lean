import GnuRadio.Tools.Drawing
import GnuRadio.Theorems.Tools.BlockNames
import Mathlib.Tactic.Linarith

/-! The drawing of a graph level is a layering. -/

namespace GnuRadio.GraphDoc

open Function

open Layering (Path Kept)
open Yaml (Bytes)

/-! ### What the drawing shows -/

/-- An end of a connection that no block answers to. -/
def Unresolved (level : Level) (name : Bytes) : Prop :=
  (∃ c ∈ level.connections, c.sourceBlock = name ∨ c.destinationBlock = name) ∧
    ∀ position, (blockNames level.blocks).find name ≠ .ok position

/-- The node of a name, when the unresolved ends stand behind the blocks. -/
def nodeOf (blocks : List Block) (ends : List Bytes) (name : Bytes) : Nat :=
  match (blockNames blocks).find name with
  | .ok position => position
  | .error _ => blocks.length + ends.idxOf name

def edgeOf (blocks : List Block) (ends : List Bytes) (c : Connection) : Edge :=
  ⟨nodeOf blocks ends c.sourceBlock, nodeOf blocks ends c.destinationBlock, c.sourcePort, c.destinationPort⟩

variable {level : Level} {blocks : List Block} {ends : List Bytes} {s : Ends} {name : Bytes}

/-- The nodes are the blocks and the unresolved ends found so far. -/
structure Shows (blocks : List Block) (ends : List Bytes) (s : Ends) : Prop where
  nodup : ends.Nodup
  unresolved : ∀ name ∈ ends, ∀ position, (blockNames blocks).find name ≠ .ok position
  nodes : s.nodes = blocks.map blockLabel ++ ends.map endLabel
  index : ∀ name, s.unresolvedIndex name = if name ∈ ends then some (blocks.length + ends.idxOf name) else none

/-- A block or an end found so far answers to the name. -/
def Held (blocks : List Block) (ends : List Bytes) (name : Bytes) : Prop :=
  (∃ position, (blockNames blocks).find name = .ok position) ∨ name ∈ ends

theorem Held.append (h : Held blocks ends name) (more : List Bytes) : Held blocks (ends ++ more) name :=
  h.imp_right (List.mem_append_left _)

/-- Further ends leave the nodes of the names that are held. -/
theorem Held.nodeOf_append (h : Held blocks ends name) (more : List Bytes) :
    nodeOf blocks (ends ++ more) name = nodeOf blocks ends name := by
  unfold nodeOf
  cases hfind : (blockNames blocks).find name with
  | ok position => rfl
  | error reason =>
    obtain ⟨position, hposition⟩ | hmem := h
    · rw [hfind] at hposition
      cases hposition
    · rw [List.idxOf_append_of_mem hmem]

theorem Shows.indexOf (h : Shows blocks ends s) (name : Bytes) :
    ∃ more, Shows blocks (ends ++ more) (indexOf (blockNames blocks) s name).2 ∧ (∀ other ∈ more, other = name) ∧
      Held blocks (ends ++ more) name ∧ (GraphDoc.indexOf (blockNames blocks) s name).1 = nodeOf blocks (ends ++ more) name := by
  unfold GraphDoc.indexOf nodeOf
  cases hfind : (blockNames blocks).find name with
  | ok position => exact ⟨[], by simpa using h, nofun, .inl ⟨position, hfind⟩, rfl⟩
  | error reason =>
    by_cases hmem : name ∈ ends
    · rw [h.index, if_pos hmem]
      exact ⟨[], by simpa using h, nofun, .inr (by simpa using hmem), by simp⟩
    · rw [h.index, if_neg hmem]
      have hlength : s.nodes.length = blocks.length + ends.length := by simp [h.nodes]
      refine ⟨[name], ⟨?_, ?_, ?_, fun other => ?_⟩, by simp, .inr (by simp), ?_⟩
      · exact List.nodup_append.mpr ⟨h.nodup, by simp, fun a ha b hb => by
          rw [List.mem_singleton.mp hb]
          rintro rfl
          exact hmem ha⟩
      · intro other hother position
        obtain hother | hother := List.mem_append.mp hother
        · exact h.unresolved other hother position
        · rw [List.mem_singleton.mp hother, hfind]
          exact nofun
      · simp [h.nodes]
      · by_cases hother : other = name
        · subst hother
          simp [hlength, List.idxOf_append_of_notMem hmem]
        · simp only [update_of_ne hother, h.index, List.mem_append, List.mem_singleton, hother, or_false]
          split
          · rename_i hin
            rw [List.idxOf_append_of_mem hin]
          · rfl
      · simp [hlength, List.idxOf_append_of_notMem hmem]

/-- What the loop over the connections has when some of them are taken in. -/
structure Holds (blocks : List Block) (connections : List Connection) (ends : List Bytes) (t : List Edge × Ends) : Prop where
  shows : Shows blocks ends t.2
  named : ∀ name ∈ ends, ∃ c ∈ connections, c.sourceBlock = name ∨ c.destinationBlock = name
  held : ∀ c ∈ connections, Held blocks ends c.sourceBlock ∧ Held blocks ends c.destinationBlock
  edges : t.1 = connections.map (edgeOf blocks ends)

theorem Holds.addEdge {connections : List Connection} {t : List Edge × Ends} (h : Holds blocks connections ends t)
    (c : Connection) : ∃ ends', Holds blocks (connections ++ [c]) ends' (addEdge (blockNames blocks) t c) := by
  obtain ⟨more, hshows, hmore, hsource, hfrom⟩ := h.shows.indexOf c.sourceBlock
  obtain ⟨last, hshows', hlast, hdestination, hto⟩ := hshows.indexOf c.destinationBlock
  refine ⟨ends ++ more ++ last, hshows', fun name hname => ?_, fun d hd => ?_, ?_⟩
  · obtain hname | hname := List.mem_append.mp hname
    · obtain hname | hname := List.mem_append.mp hname
      · obtain ⟨d, hd, hnamed⟩ := h.named name hname
        exact ⟨d, List.mem_append_left _ hd, hnamed⟩
      · exact ⟨c, by simp, .inl (hmore name hname).symm⟩
    · exact ⟨c, by simp, .inr (hlast name hname).symm⟩
  · obtain hd | hd := List.mem_append.mp hd
    · obtain ⟨hs, ht⟩ := h.held d hd
      exact ⟨(hs.append more).append last, (ht.append more).append last⟩
    · rw [List.mem_singleton.mp hd]
      exact ⟨hsource.append last, hdestination⟩
  · have hold : connections.map (edgeOf blocks (ends ++ more ++ last)) = connections.map (edgeOf blocks ends) := by
      refine List.map_congr_left fun d hd => ?_
      obtain ⟨hs, ht⟩ := h.held d hd
      simp only [edgeOf, (hs.append more).nodeOf_append, hs.nodeOf_append, (ht.append more).nodeOf_append, ht.nodeOf_append]
    rw [List.map_append, hold, ← h.edges]
    simp only [GraphDoc.addEdge, hfrom, hto, List.map_cons, List.map_nil, edgeOf, hsource.nodeOf_append]

theorem holds_edgesAndNodes (level : Level) :
    ∃ ends, Holds level.blocks level.connections ends (edgesAndNodes level) := by
  have hrun : ∀ (connections before : List Connection) (ends : List Bytes) (t : List Edge × Ends),
      Holds level.blocks before ends t →
        ∃ ends', Holds level.blocks (before ++ connections) ends' (connections.foldl (addEdge (blockNames level.blocks)) t) := by
    intro connections
    induction connections with
    | nil => exact fun before ends t h => ⟨ends, by simpa using h⟩
    | cons c connections ih =>
      intro before ends t h
      obtain ⟨ends', h'⟩ := h.addEdge c
      simpa using ih _ ends' _ h'
  exact hrun level.connections [] [] _ ⟨⟨.nil, nofun, by simp, fun _ => rfl⟩, nofun, nofun, rfl⟩

theorem Held.nodeOf_lt (h : Held blocks ends name) : nodeOf blocks ends name < blocks.length + ends.length := by
  unfold nodeOf
  split
  · have := (find_lt ‹_›).trans_eq (List.length_map _)
    omega
  · rename_i hfind
    obtain ⟨position, hposition⟩ | hmem := h
    · rw [hfind] at hposition
      cases hposition
    · have := List.idxOf_lt_length_of_mem hmem
      omega

/-! ### Places -/

/-- The boxes do not touch. -/
def Apart (x y width x' y' width' : Rat) : Prop :=
  x + width < x' ∨ x' + width' < x ∨ y + kNodeHeight < y' ∨ y' + kNodeHeight < y

def Place.Apart (p q : Place) : Prop := GraphDoc.Apart p.x p.y p.width q.x q.y q.width

instance : Std.Symm Place.Apart where
  symm p q h := by
    obtain h | h | h | h := h
    · exact .inr (.inl h)
    · exact .inl h
    · exact .inr (.inr (.inr h))
    · exact .inr (.inr (.inl h))

variable {left width top tallest : Rat} {nodes : List Label} {column : List Nat} {columns : List (List Nat × Rat)} {p : Place}

theorem mem_placeColumn (hp : p ∈ placeColumn left width top column) : p.x = left ∧ p.width = width ∧ top ≤ p.y := by
  induction column generalizing top with
  | nil => cases hp
  | cons i column ih =>
    obtain rfl | hp := List.mem_cons.mp hp
    · exact ⟨rfl, rfl, le_rfl⟩
    · obtain ⟨hx, hw, hy⟩ := ih hp
      refine ⟨hx, hw, le_trans ?_ hy⟩
      have : (0 : Rat) ≤ kNodeHeight + kNodeGap := by norm_num [kNodeHeight, kNodeGap]
      linarith

theorem pairwise_placeColumn : (placeColumn left width top column).Pairwise Place.Apart := by
  induction column generalizing top with
  | nil => exact .nil
  | cons i column ih =>
    refine List.pairwise_cons.mpr ⟨fun p hp => .inr (.inr (.inl ?_)), ih⟩
    have hy := (mem_placeColumn hp).2.2
    have : (0 : Rat) < kNodeGap := by decide
    dsimp only
    linarith

theorem mem_placeColumns (hcolumns : ∀ c ∈ columns, 0 ≤ c.2) (hp : p ∈ placeColumns tallest left columns) : left ≤ p.x := by
  induction columns generalizing left with
  | nil => cases hp
  | cons c columns ih =>
    obtain hp | hp := List.mem_append.mp hp
    · exact (mem_placeColumn hp).1.ge
    · have hc := hcolumns c (.head _)
      have hx := ih (fun d hd => hcolumns d (.tail _ hd)) hp
      have : (0 : Rat) < kRankGap := by decide
      linarith

theorem pairwise_placeColumns (hcolumns : ∀ c ∈ columns, 0 ≤ c.2) :
    (placeColumns tallest left columns).Pairwise Place.Apart := by
  induction columns generalizing left with
  | nil => exact .nil
  | cons c columns ih =>
    have hrest := fun d (hd : d ∈ columns) => hcolumns d (.tail _ hd)
    refine List.pairwise_append.mpr ⟨pairwise_placeColumn, ih hrest, fun p hp q hq => .inl ?_⟩
    obtain ⟨hx, hw, -⟩ := mem_placeColumn hp
    have hq := mem_placeColumns hrest hq
    have : (0 : Rat) < kRankGap := by decide
    rw [hx, hw]
    linarith

theorem exists_placeColumn {i : Nat} (hi : i ∈ column) : ∃ p ∈ placeColumn left width top column, p.node = i := by
  induction column generalizing top with
  | nil => cases hi
  | cons j column ih =>
    obtain rfl | hi := List.mem_cons.mp hi
    · exact ⟨_, .head _, rfl⟩
    · obtain ⟨p, hp, hnode⟩ := ih hi
      exact ⟨p, .tail _ hp, hnode⟩

theorem exists_placeColumns {i : Nat} {c : List Nat × Rat} (hc : c ∈ columns) (hi : i ∈ c.1) :
    ∃ p ∈ placeColumns tallest left columns, p.node = i := by
  induction columns generalizing left with
  | nil => cases hc
  | cons d columns ih =>
    obtain rfl | hc := List.mem_cons.mp hc
    · obtain ⟨p, hp, hnode⟩ := exists_placeColumn hi
      exact ⟨p, List.mem_append_left _ hp, hnode⟩
    · obtain ⟨p, hp, hnode⟩ := ih hc
      exact ⟨p, List.mem_append_right _ hp, hnode⟩

theorem columnWidth_nonneg (nodes : List Label) (column : List Nat) : 0 ≤ columnWidth nodes column := by
  have hrun : ∀ (column : List Nat) (width : Rat), width ≤ column.foldl (fun width i => (nodes[i]?).elim width fun node =>
      max width (max (node.name.length * kNameCharWidth) (node.type.length * kTypeCharWidth) + 2 * kNodePadding)) width := by
    intro column
    induction column with
    | nil => exact fun _ => le_rfl
    | cons i column ih =>
      intro width
      refine le_trans ?_ (ih _)
      dsimp only
      cases nodes[i]? with
      | none => exact le_refl width
      | some node => exact le_max_left width _
  exact le_trans (by decide) (hrun column kNodeMinWidth)

theorem lt_rankCount {nodeCount i : Nat} {rank : Nat → Nat} (hi : i < nodeCount) : rank i < rankCount nodeCount rank := by
  have hrun : ∀ (l : List Nat) (count : Nat), count ≤ l.foldl (fun count i => max count (rank i + 1)) count ∧
      ∀ i ∈ l, rank i < l.foldl (fun count i => max count (rank i + 1)) count := by
    intro l
    induction l with
    | nil => exact fun _ => ⟨le_rfl, nofun⟩
    | cons j l ih =>
      intro count
      obtain ⟨hle, hlt⟩ := ih (max count (rank j + 1))
      rw [List.foldl_cons]
      refine ⟨(le_max_left ..).trans hle, fun i hi => ?_⟩
      obtain rfl | hi := List.mem_cons.mp hi
      · exact (le_max_right count (rank i + 1)).trans hle
      · exact hlt i hi
  exact (hrun _ 0).2 i (List.mem_range.mpr hi)

theorem exists_place {nodeCount i : Nat} {rank : Nat → Nat} (nodes : List Label) (hi : i < nodeCount) :
    ∃ p ∈ placeColumns tallest left ((List.range (rankCount nodeCount rank)).map fun r =>
      (GraphDoc.column nodeCount rank r, columnWidth nodes (GraphDoc.column nodeCount rank r))), p.node = i :=
  exists_placeColumns (List.mem_map_of_mem (List.mem_range.mpr (lt_rankCount hi)))
    (List.mem_filter.mpr ⟨List.mem_range.mpr hi, by simp⟩)

theorem toLabel_placedNodes (nodes : List Label) (places : List Place) :
    (placedNodes nodes places).map Node.toLabel = nodes := by
  rw [placedNodes, List.map_map]
  refine (List.map_congr_left fun e _ => ?_).trans (List.zipIdx_map_fst 0 nodes)
  obtain ⟨label, i⟩ := e
  rw [Function.comp_apply]
  dsimp only
  split <;> rfl

/-- A node that has a place is drawn there. -/
theorem placedNodes_getElem? {places : List Place} {i : Nat} {node : Node} (h : (placedNodes nodes places)[i]? = some node)
    (hplace : ∃ p ∈ places, p.node = i) :
    ∃ p ∈ places, p.node = i ∧ node.x = p.x ∧ node.y = p.y ∧ node.width = p.width := by
  rw [placedNodes, List.getElem?_map, List.getElem?_zipIdx, Option.map_map, Option.map_eq_some_iff] at h
  obtain ⟨label, -, rfl⟩ := h
  obtain ⟨q, hq, hnode⟩ := hplace
  dsimp only [Function.comp_apply]
  rw [Nat.zero_add]
  cases hfind : places.find? (·.node = i) with
  | none => exact absurd hnode (by simpa using List.find?_eq_none.mp hfind q hq)
  | some p => exact ⟨p, List.mem_of_find?_eq_some hfind, by simpa using List.find?_some hfind, rfl, rfl, rfl⟩

/-! ### The drawing -/

namespace Drawing

/-- An edge that the ranking keeps. -/
def Keeps (d : Drawing) (v w : Nat) : Prop :=
  ∃ e edge, d.edges[e]? = some edge ∧ d.closesCycle e = false ∧ edge.fromNode = v ∧ edge.toNode = w

def Joins (d : Drawing) (v w : Nat) : Prop := ∃ edge ∈ d.edges, edge.fromNode = v ∧ edge.toNode = w

/-- The drawing is a layering of the level. -/
structure Layered (level : Level) (d : Drawing) : Prop where
  shown : ∃ ends : List Bytes, ends.Nodup ∧ (∀ name, name ∈ ends ↔ Unresolved level name) ∧
    d.nodes.map Node.toLabel = level.blocks.map blockLabel ++ ends.map endLabel ∧
    d.edges = level.connections.map (edgeOf level.blocks ends)
  closing : ∀ e edge, d.edges[e]? = some edge → d.closesCycle e = true →
    Relation.ReflTransGen d.Keeps edge.toNode edge.fromNode
  keepsAll : (∀ v, ¬ Relation.TransGen d.Joins v v) → ∀ e < d.edges.length, d.closesCycle e = false
  acyclic : ∀ v, ¬ Relation.TransGen d.Keeps v v
  rising : ∀ v w, d.Keeps v w → d.rank v < d.rank w
  longest : ∀ v, IsGreatest {k | ∃ u, Path d.Keeps k u v} (d.rank v)
  apart : ∀ (i j : Nat) (a b : Node), i ≠ j → d.nodes[i]? = some a → d.nodes[j]? = some b →
    Apart a.x a.y a.width b.x b.y b.width

end Drawing

variable {edges : List Edge}

theorem mem_outgoing {v e : Nat} : e ∈ outgoing edges v ↔ ∃ edge, edges[e]? = some edge ∧ edge.fromNode = v := by
  simp only [outgoing, List.mem_filter, List.mem_range, Option.any_eq_true, decide_eq_true_eq]
  refine ⟨And.right, fun h => ⟨?_, h⟩⟩
  obtain ⟨edge, he, -⟩ := h
  exact (List.getElem?_eq_some_iff.mp he).1

theorem mem_ranked {closesCycle : Nat → Bool} {v w : Nat} : (v, w) ∈ ranked edges closesCycle ↔
    ∃ e edge, edges[e]? = some edge ∧ closesCycle e = false ∧ edge.fromNode = v ∧ edge.toNode = w := by
  simp only [ranked, List.mem_map, List.mem_filter, Prod.exists, List.mem_zipIdx_iff_getElem?, Bool.not_eq_true', Prod.mk.injEq]
  constructor
  · rintro ⟨edge, e, ⟨he, hc⟩, hv, hw⟩
    exact ⟨e, edge, he, hc, hv, hw⟩
  · rintro ⟨e, edge, he, hc, hv, hw⟩
    exact ⟨edge, e, ⟨he, hc⟩, hv, hw⟩

theorem target_eq {e : Nat} {edge : Edge} (h : edges[e]? = some edge) : target edges e = edge.toNode := by
  rw [target, h]
  rfl

theorem kept_iff {closesCycle : Nat → Bool} {v w : Nat} :
    Kept (outgoing edges) (target edges) closesCycle v w ↔ (v, w) ∈ ranked edges closesCycle := by
  rw [mem_ranked]
  constructor
  · rintro ⟨e, he, hc, rfl⟩
    obtain ⟨edge, he, hv⟩ := mem_outgoing.mp he
    exact ⟨e, edge, he, hc, hv, (target_eq he).symm⟩
  · rintro ⟨e, edge, he, hc, hv, rfl⟩
    exact ⟨e, mem_outgoing.mpr ⟨edge, he, hv⟩, hc, target_eq he⟩

theorem kept_keeps (d : Drawing) : Kept (outgoing d.edges) (target d.edges) d.closesCycle = d.Keeps := by
  funext v w
  exact propext (kept_iff.trans mem_ranked)

/-- The walk over the edges of a level. -/
theorem closesCycle_outgoing {n : Nat} (h : ∀ edge ∈ edges, edge.fromNode < n ∧ edge.toNode < n) :
    ∃ closes, Layering.closesCycle (outgoing edges) (target edges) (List.range n) = some closes ∧
      (∀ v, ∀ e ∈ outgoing edges v, closes e = true →
        Relation.ReflTransGen (Kept (outgoing edges) (target edges) closes) (target edges e) v) ∧
      ∃ l, Layering.Ordered (Kept (outgoing edges) (target edges) closes) l ∧ ∀ v, v ∈ l ↔ v ∈ List.range n := by
  refine Layering.closesCycle_spec (fun v => List.nodup_range.filter _) (fun v w e hv hw => ?_) (fun v e he => ?_)
    fun v e he => ?_
  · obtain ⟨edge, he, rfl⟩ := mem_outgoing.mp hv
    obtain ⟨edge', he', rfl⟩ := mem_outgoing.mp hw
    rw [he] at he'
    cases he'
    rfl
  · obtain ⟨edge, hedge, rfl⟩ := mem_outgoing.mp he
    exact List.mem_range.mpr (h edge (List.mem_of_getElem? hedge)).1
  · obtain ⟨edge, hedge, rfl⟩ := mem_outgoing.mp he
    rw [target_eq hedge]
    exact List.mem_range.mpr (h edge (List.mem_of_getElem? hedge)).2

/-- Every path of kept edges is shorter than the number of nodes. -/
theorem path_le {d : Drawing} {n k u v : Nat} {l : List Nat} (hl : Layering.Ordered d.Keeps l)
    (hmem : ∀ v, v ∈ l ↔ v ∈ List.range n) (hbound : ∀ edge ∈ d.edges, edge.fromNode < n ∧ edge.toNode < n)
    (hp : Path d.Keeps k u v) : k ≤ n := by
  cases k with
  | zero => exact Nat.zero_le n
  | succ k =>
    have hu : u < n := by
      obtain ⟨w, e, edge, he, -, rfl, -⟩ := hp.head
      exact (hbound edge (List.mem_of_getElem? he)).1
    have hlt := hl.path_lt ((hmem u).mpr (List.mem_range.mpr hu)) hp
    have hle := (List.subperm_of_subset hl.nodup fun v hv => (hmem v).mp hv).length_le
    rw [List.length_range] at hle
    omega

theorem svgOf_layered (level : Level) : ∃ d, svgOf level = some d ∧ d.Layered level := by
  obtain ⟨ends, hshows, hnamed, hheld, hedges⟩ := holds_edgesAndNodes level
  rcases hs : edgesAndNodes level with ⟨edges, s⟩
  rw [hs] at hshows hedges
  dsimp only at hshows hedges
  have hlength : s.nodes.length = level.blocks.length + ends.length := by simp [hshows.nodes]
  have hbound : ∀ edge ∈ edges, edge.fromNode < s.nodes.length ∧ edge.toNode < s.nodes.length := by
    intro edge he
    rw [hedges] at he
    obtain ⟨c, hc, rfl⟩ := List.mem_map.mp he
    rw [hlength]
    exact ⟨(hheld c hc).1.nodeOf_lt, (hheld c hc).2.nodeOf_lt⟩
  obtain ⟨closes, hcloses, hclosing, l, hl, hmem⟩ := closesCycle_outgoing hbound
  obtain ⟨d, hd, hdedges, hdcloses, hdrank, places, hdnodes, hplaces, hplace⟩ : ∃ d, svgOf level = some d ∧ d.edges = edges ∧
      d.closesCycle = closes ∧ d.rank = Layering.passes (ranked edges closes) s.nodes.length (fun _ => 0) ∧
      ∃ places, d.nodes = placedNodes s.nodes places ∧ places.Pairwise Place.Apart ∧
        ∀ i < s.nodes.length, ∃ p ∈ places, p.node = i := by
    refine ⟨_, by rw [svgOf, hs]; dsimp only; rw [hcloses]; rfl, rfl, rfl, rfl, _, rfl, ?_, fun i hi => exists_place _ hi⟩
    refine pairwise_placeColumns fun c hc => ?_
    obtain ⟨r, -, rfl⟩ := List.mem_map.mp hc
    exact columnWidth_nonneg ..
  subst hdedges hdcloses
  rw [kept_keeps] at hclosing hl
  have hrank : ∀ v, IsGreatest {k | ∃ u, Path d.Keeps k u v} (d.rank v) := by
    intro v
    rw [hdrank]
    exact Layering.passes_isGreatest (fun v w => by rw [← kept_keeps]; exact kept_iff)
      (fun k u v hp => path_le hl hmem hbound hp) v
  have hclosed : ∀ e edge, d.edges[e]? = some edge → d.closesCycle e = true →
      Relation.ReflTransGen d.Keeps edge.toNode edge.fromNode := by
    intro e edge he hc
    rw [← target_eq he]
    exact hclosing _ e (mem_outgoing.mpr ⟨edge, he, rfl⟩) hc
  refine ⟨d, hd, ⟨ends, hshows.nodup, fun name => ?_, ?_, hedges⟩, hclosed, fun hno e he => ?_, fun v hv => ?_, fun v w hvw => ?_,
    hrank, fun i j a b hij ha hb => ?_⟩
  · constructor
    · exact fun hname => ⟨hnamed name hname, hshows.unresolved name hname⟩
    · rintro ⟨⟨c, hc, hnamed⟩, hfind⟩
      have hheld' : Held level.blocks ends name := by
        obtain rfl | rfl := hnamed
        · exact (hheld c hc).1
        · exact (hheld c hc).2
      exact hheld'.resolve_left fun ⟨position, hposition⟩ => hfind position hposition
  · rw [hdnodes, toLabel_placedNodes, hshows.nodes]
  · refine Bool.eq_false_iff.mpr fun hc => hno (d.edges[e]).fromNode ?_
    have he' : d.edges[e]? = some d.edges[e] := List.getElem?_eq_getElem he
    refine .head' ⟨_, List.getElem_mem he, rfl, rfl⟩ ((Relation.ReflTransGen.mono (fun v w hvw => ?_) _ _ (hclosed e _ he' hc)))
    obtain ⟨e, edge, he, -, hv, hw⟩ := hvw
    exact ⟨edge, List.mem_of_getElem? he, hv, hw⟩
  · obtain ⟨w, hw, -⟩ := Relation.TransGen.head'_iff.mp hv
    obtain ⟨e, edge, he, -, rfl, -⟩ := hw
    exact hl.acyclic ((hmem _).mpr (List.mem_range.mpr (hbound edge (List.mem_of_getElem? he)).1)) hv
  · obtain ⟨⟨u, hu⟩, -⟩ := hrank v
    exact (hrank w).2 ⟨u, hu.snoc hvw⟩
  · have hi : i < s.nodes.length ∧ j < s.nodes.length := by
      have hlen : d.nodes.length = s.nodes.length := by rw [hdnodes, placedNodes]; simp
      exact ⟨hlen ▸ (List.getElem?_eq_some_iff.mp ha).1, hlen ▸ (List.getElem?_eq_some_iff.mp hb).1⟩
    rw [hdnodes] at ha hb
    obtain ⟨p, hp, rfl, hx, hy, hw⟩ := placedNodes_getElem? ha (hplace i hi.1)
    obtain ⟨q, hq, rfl, hx', hy', hw'⟩ := placedNodes_getElem? hb (hplace j hi.2)
    rw [hx, hy, hw, hx', hy', hw']
    exact hplaces.forall hp hq (by rintro rfl; exact hij rfl)

end GnuRadio.GraphDoc
