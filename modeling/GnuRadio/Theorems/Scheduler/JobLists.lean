import GnuRadio.Library.Intervals
import GnuRadio.Scheduler.Adoption
import GnuRadio.Theorems.Graph.FeedbackLoops

/-! The job lists of a scheduler hold the blocks of the flattened graph, and share the working ones evenly. -/

namespace GnuRadio.JobLists

open Graph (Config Edge Members adjacent flatten)

/-! ### Batches -/

section Batches
variable {α : Type} {works : α → Bool} {nBatches nWorking : Nat}

theorem batchIndex_lt (hn : 0 < nBatches) (hworking : 0 < nWorking) (k : Nat) :
    batchIndex nBatches nWorking k < nBatches :=
  Slices.index_lt hn (by omega : min k (nWorking - 1) < nWorking)

theorem batchIndex_mono {k l : Nat} (h : k ≤ l) : batchIndex nBatches nWorking k ≤ batchIndex nBatches nWorking l :=
  Slices.index_mono (min_le_min_right _ h)

/-- A block joins the last list that is not empty, or a later one. -/
theorem flatten_modify {lists : List (List α)} {i : Nat} (hi : i < lists.length)
    (hlater : ∀ list ∈ lists.drop (i + 1), list = []) (x : α) :
    (lists.modify i fun list => list ++ [x]).flatten = lists.flatten ++ [x] := by
  induction lists generalizing i with
  | nil => exact absurd hi (Nat.not_lt_zero i)
  | cons list lists ih =>
    cases i with
    | zero =>
      have hnil : lists.flatten = [] := List.flatten_eq_nil_iff.mpr hlater
      rw [List.modify_zero_cons, List.flatten_cons, List.flatten_cons, hnil, List.append_nil, List.append_nil]
    | succ i =>
      rw [List.modify_succ_cons, List.flatten_cons, List.flatten_cons, ih (Nat.lt_of_succ_lt_succ hi) hlater,
        List.append_assoc]

/-- The working blocks of a list. -/
def nWorkingIn (works : α → Bool) (lists : List (List α)) (j : Nat) : Nat := ((lists[j]?).getD []).countP works

theorem nWorkingIn_modify {lists : List (List α)} {i : Nat} (hi : i < lists.length) (x : α) (j : Nat) :
    nWorkingIn works (lists.modify i fun list => list ++ [x]) j =
      nWorkingIn works lists j + if works x ∧ i = j then 1 else 0 := by
  unfold nWorkingIn
  rw [List.getElem?_modify]
  by_cases hij : i = j
  · subst hij
    cases hx : works x <;> simp [hi, List.countP_append, hx]
  · simp [hij]

/-- The loop never indexes outside the lists, keeps the order of the blocks, and puts the working blocks into slices. -/
theorem batchFrom_spec (works : α → Bool) (hn : 0 < nBatches) (hworking : 0 < nWorking) (blocks : List α) (k : Nat)
    (result : List (List α)) (hlength : result.length = nBatches)
    (hlater : ∀ list ∈ result.drop (batchIndex nBatches nWorking k + 1), list = []) :
    ∃ lists, batchFrom works nBatches nWorking blocks k result = some lists ∧ lists.length = nBatches ∧
      lists.flatten = result.flatten ++ blocks ∧ ∀ j, nWorkingIn works lists j = nWorkingIn works result j +
        (List.range' k (blocks.countP works)).countP fun k => decide (batchIndex nBatches nWorking k = j) := by
  induction blocks generalizing k result with
  | nil => exact ⟨result, rfl, hlength, (List.append_nil _).symm, fun j => rfl⟩
  | cons block blocks ih =>
    have hindex : batchIndex nBatches nWorking k < result.length := hlength ▸ batchIndex_lt hn hworking k
    set next := if works block then k + 1 else k with hnext
    have hle : batchIndex nBatches nWorking k ≤ batchIndex nBatches nWorking next :=
      batchIndex_mono (by rw [hnext]; split <;> omega)
    have hlater' : ∀ list ∈ (result.modify (batchIndex nBatches nWorking k) fun list => list ++ [block]).drop
        (batchIndex nBatches nWorking next + 1), list = [] := fun list hm => by
      rw [List.drop_modify_of_lt _ _ _ _ (by omega)] at hm
      exact hlater list (List.drop_subset_drop_left result (by omega) hm)
    obtain ⟨lists, hlists, hlen, hflatten, hcount⟩ := ih next _ (by rw [List.length_modify, hlength]) hlater'
    refine ⟨lists, ?_, hlen, ?_, fun j => ?_⟩
    · rw [batchFrom, if_pos hindex]
      exact hlists
    · rw [hflatten, flatten_modify hindex hlater, List.append_assoc]
      rfl
    · rw [hcount, nWorkingIn_modify hindex, List.countP_cons]
      cases hblock : works block with
      | true =>
        have hk : next = k + 1 := by rw [hnext, if_pos hblock]
        rw [hk, if_pos rfl, List.range'_succ, List.countP_cons]
        by_cases hj : batchIndex nBatches nWorking k = j
        · simp [hj]
          omega
        · simp [hj]
      | false =>
        have hk : next = k := by rw [hnext, if_neg (by simp [hblock])]
        rw [hk]
        simp

/-- Slices of a list: one after the other they are the list, and the working blocks are shared evenly. -/
structure EvenSlices (works : α → Bool) (blocks : List α) (n : Nat) (lists : List (List α)) : Prop where
  length : lists.length = n
  flatten : lists.flatten = blocks
  even : ∀ list ∈ lists, ∀ list' ∈ lists, list.countP works ≤ list'.countP works + 1
  working : n ≤ blocks.countP works → ∀ list ∈ lists, 0 < list.countP works

theorem batchBlocks_spec (works : α → Bool) (blocks : List α) (hn : 0 < nBatches) :
    ∃ lists, batchBlocks works blocks nBatches = some lists ∧ EvenSlices works blocks nBatches lists := by
  set total := blocks.countP works with htotal
  obtain ⟨lists, hlists, hlength, hflatten, hcount⟩ := batchFrom_spec works hn
    (lt_max_of_lt_right Nat.one_pos : 0 < max total 1) blocks 0 (List.replicate nBatches [])
    List.length_replicate fun list hm => List.eq_of_mem_replicate (List.mem_of_mem_drop hm)
  have hsize (j : Nat) (hj : j < nBatches) : nWorkingIn works lists j = Slices.size total nBatches j := by
    have hzero : nWorkingIn works (List.replicate nBatches []) j = 0 := by simp [nWorkingIn, hj]
    rw [hcount, hzero, Nat.zero_add, ← List.range_eq_range', ← Slices.countP_index hn hj]
    refine List.countP_congr fun k hk => ?_
    have hk : k < total := List.mem_range.mp hk
    have hmax : max total 1 = total := by omega
    have hmin : min k (total - 1) = k := by omega
    have hindex : batchIndex nBatches (max total 1) k = Slices.index total nBatches k := by
      rw [hmax]
      unfold batchIndex Slices.index
      rw [hmin]
    rw [hindex]
  have hat : ∀ list ∈ lists, total / nBatches ≤ list.countP works ∧ list.countP works ≤ total / nBatches + 1 :=
    fun list hm => by
    obtain ⟨j, hj, rfl⟩ := List.mem_iff_getElem.mp hm
    have hj' : j < nBatches := hlength ▸ hj
    have hlist : (lists[j]).countP works = Slices.size total nBatches j := by
      rw [← hsize j hj']
      simp [nWorkingIn, hj]
    rw [hlist]
    exact Slices.le_size hn total j
  refine ⟨lists, ?_, hlength, by simpa using hflatten, fun list hm list' hm' => ?_, fun hle list hm => ?_⟩
  · rw [batchBlocks, if_neg hn.ne']
    exact hlists
  · exact (hat list hm).2.trans (Nat.succ_le_succ (hat list' hm').1)
  · exact lt_of_lt_of_le (Nat.div_pos hle hn) (hat list hm).1

end Batches

/-! ### Orders -/

variable {ι ω : Type}

/-- Each of the blocks is listed, none more often than it is a block. -/
structure ListsAll (blocks blockList : List Nat) : Prop where
  mem : ∀ name, name ∈ blockList ↔ name ∈ blocks
  count : ∀ name, blockList.count name ≤ blocks.count name

/-- A traversal lists a block when it visits it, once. -/
structure Visits (names : List Nat) (t : Traversal) : Prop where
  nodup : t.blockList.Nodup
  visited : ∀ name, name ∈ t.visited ↔ name ∈ t.blockList
  mem : ∀ name ∈ t.blockList, name ∈ names

section Traversals
variable {names : List Nat} {t : Traversal}

theorem Visits.complete (h : Visits names t) : ListsAll names (t.complete names) where
  mem name := by
    unfold Traversal.complete
    rw [List.mem_append, List.mem_filter, decide_eq_true_eq, h.visited]
    by_cases hm : name ∈ t.blockList
    · exact iff_of_true (.inl hm) (h.mem name hm)
    · simp [hm]
  count name := by
    unfold Traversal.complete
    rw [List.count_append]
    by_cases hm : name ∈ t.blockList
    · have hrest : (names.filter fun n => decide (n ∉ t.visited)).count name = 0 :=
        List.count_eq_zero.mpr fun hf => of_decide_eq_true (List.mem_filter.mp hf).2 ((h.visited name).mpr hm)
      have hpos : 0 < names.count name := List.count_pos_iff.mpr (h.mem name hm)
      have hone : t.blockList.count name = 1 := List.count_eq_one_of_mem h.nodup hm
      omega
    · rw [List.count_eq_zero.mpr hm, Nat.zero_add]
      exact (List.filter_sublist).count_le name

/-- A visit to a block that was not visited. -/
theorem Visits.visit (h : Visits names t) {name : Nat} (hname : name ∈ names) (hv : name ∉ t.visited) :
    Visits names (t.visit name) ∧ (t.visit name).blockList = t.blockList ++ [name] ∧
      (t.visit name).visited = name :: t.visited ∧ (t.visit name).queue = t.queue ∧
      (t.visit name).reached = t.reached := by
  have hlist : name ∉ t.blockList := fun hm => hv ((h.visited name).mpr hm)
  unfold Traversal.visit
  rw [if_neg hv]
  refine ⟨⟨?_, fun n => ?_, fun n hn => ?_⟩, rfl, rfl, rfl, rfl⟩
  · exact List.nodup_append'.mpr ⟨h.nodup, List.nodup_singleton _, List.disjoint_singleton.mpr hlist⟩
  · rw [List.mem_cons, List.mem_append, List.mem_singleton, h.visited, or_comm]
  · obtain hn | hn := List.mem_append.mp hn
    · exact h.mem n hn
    · rwa [List.mem_singleton.mp hn]

theorem Visits.length_le (h : Visits names t) : t.blockList.length ≤ names.length :=
  (h.nodup.subperm h.mem).length_le

section BreadthFirst

/-- The queue holds the blocks that were reached and not visited. -/
structure Queued (names : List Nat) (t : Traversal) : Prop where
  visits : Visits names t
  nodup : (t.blockList ++ t.queue).Nodup
  reached : ∀ name, name ∈ t.reached ↔ name ∈ t.blockList ++ t.queue
  mem : ∀ name ∈ t.queue, name ∈ names

theorem Queued.reach (h : Queued names t) {name : Nat} (hname : name ∈ names) :
    Queued names (t.reach name) ∧ (t.reach name).blockList = t.blockList := by
  unfold Traversal.reach
  split
  · exact ⟨h, rfl⟩
  · next hr =>
    have hnew : name ∉ t.blockList ++ t.queue := fun hm => hr ((h.reached name).mpr hm)
    refine ⟨⟨⟨h.visits.nodup, h.visits.visited, h.visits.mem⟩, ?_, fun n => ?_, fun n hn => ?_⟩, rfl⟩
    · rw [← List.append_assoc]
      exact List.nodup_append'.mpr ⟨h.nodup, List.nodup_singleton _, List.disjoint_singleton.mpr hnew⟩
    · rw [List.mem_cons, h.reached, ← List.append_assoc, List.mem_append (t := [name]), List.mem_singleton, or_comm]
    · obtain hn | hn := List.mem_append.mp hn
      · exact h.mem n hn
      · rwa [List.mem_singleton.mp hn]

theorem Queued.reachAll (h : Queued names t) (ns : List Nat) (hns : ∀ name ∈ ns, name ∈ names) :
    Queued names (ns.foldl Traversal.reach t) ∧ (ns.foldl Traversal.reach t).blockList = t.blockList := by
  induction ns generalizing t with
  | nil => exact ⟨h, rfl⟩
  | cons name ns ih =>
    rw [List.forall_mem_cons] at hns
    obtain ⟨hnext, hsame⟩ := h.reach hns.1
    obtain ⟨hall, hlist⟩ := ih hnext hns.2
    exact ⟨hall, hlist.trans hsame⟩

theorem Queued.pop (h : Queued names t) {current : Nat} {queue : List Nat} (hqueue : t.queue = current :: queue) :
    Queued names ({ t with queue := queue }.visit current) ∧
      ({ t with queue := queue }.visit current).blockList = t.blockList ++ [current] := by
  have hsplit : t.blockList ++ t.queue = (t.blockList ++ [current]) ++ queue := by
    rw [hqueue, List.append_assoc]
    rfl
  have hnodup := h.nodup
  rw [hsplit] at hnodup
  have hfresh : current ∉ t.blockList := fun hm =>
    (List.nodup_append'.mp (List.nodup_append'.mp hnodup).1).2.2 hm (.head _)
  have hcurrent : current ∈ names := h.mem current (hqueue ▸ (.head _))
  have hvisits : Visits names { t with queue := queue } := ⟨h.visits.nodup, h.visits.visited, h.visits.mem⟩
  obtain ⟨hv, hlist, -, hq, hr⟩ := hvisits.visit hcurrent fun hm => hfresh ((h.visits.visited current).mp hm)
  refine ⟨⟨hv, ?_, fun name => ?_, fun name hm => ?_⟩, hlist⟩
  · rw [hlist, hq]
    exact hnodup
  · rw [hlist, hq, hr, ← hsplit]
    exact h.reached name
  · rw [hq] at hm
    exact h.mem name (hqueue ▸ List.mem_cons_of_mem current hm)

/-- The loop ends with an empty queue: each round visits another block. -/
theorem Queued.breadthFirst {edgesOf : Nat → List (Edge ι ω)}
    (hclosed : ∀ b, ∀ e ∈ edgesOf b, e.destinationBlock.uniqueName ∈ names) (fuel : Nat) (h : Queued names t)
    (hfuel : names.length ≤ t.blockList.length + fuel) :
    ∃ t', t.breadthFirst edgesOf fuel = some t' ∧ Visits names t' ∧ t'.queue = [] := by
  have hroom {current : Nat} {queue : List Nat} (hqueue : t.queue = current :: queue) :
      t.blockList.length < names.length := by
    have hle := (h.pop hqueue).1.visits.length_le
    rw [(h.pop hqueue).2, List.length_append] at hle
    exact hle
  induction fuel generalizing t with
  | zero =>
    cases hqueue : t.queue with
    | nil => exact ⟨t, if_pos hqueue, h.visits, hqueue⟩
    | cons current queue => exact absurd (hroom hqueue) (by omega)
  | succ fuel ih =>
    unfold Traversal.breadthFirst
    cases hqueue : t.queue with
    | nil => exact ⟨t, rfl, h.visits, hqueue⟩
    | cons current queue =>
      obtain ⟨hpop, hlist⟩ := h.pop hqueue
      obtain ⟨hnext, hsame⟩ := hpop.reachAll ((edgesOf current).map fun e => e.destinationBlock.uniqueName)
        (List.forall_mem_map.mpr (hclosed current))
      rw [List.foldl_map] at hnext hsame
      refine ih hnext ?_ fun {next queue'} hqueue' => ?_
      · rw [hsame, hlist, List.length_append]
        simp only [List.length_singleton]
        omega
      · have hle := (hnext.pop hqueue').1.visits.length_le
        rw [(hnext.pop hqueue').2, List.length_append] at hle
        exact hle

end BreadthFirst

section DepthFirst

/-- The blocks that were not visited. -/
def nLeft (names : List Nat) (t : Traversal) : Nat := (names.filter fun name => decide (name ∉ t.visited)).length

theorem nLeft_le {t' : Traversal} (h : ∀ name ∈ t.visited, name ∈ t'.visited) : nLeft names t' ≤ nLeft names t :=
  Pointwise.length_filter_le (fun name hn hm => hn (h name hm)) names

theorem nLeft_lt {t' : Traversal} (h : ∀ name ∈ t.visited, name ∈ t'.visited) {name : Nat} (hname : name ∈ names)
    (hv : name ∉ t.visited) (hv' : name ∈ t'.visited) : nLeft names t' < nLeft names t :=
  Pointwise.length_filter_lt (fun name hn hm => hn (h name hm)) hname hv (not_not.mpr hv')

/-- A traversal that visits more blocks. -/
def Visited (names : List Nat) (t t' : Traversal) : Prop :=
  Visits names t' ∧ ∀ name ∈ t.visited, name ∈ t'.visited

theorem Visits.depthFirst {edgesOf : Nat → List (Edge ι ω)}
    (hclosed : ∀ b, ∀ e ∈ edgesOf b, e.destinationBlock.uniqueName ∈ names) (fuel : Nat) {node : Nat}
    (h : Visits names t) (hnode : node ∈ names) (hfuel : nLeft names t < fuel) :
    ∃ t', t.depthFirst edgesOf fuel node = some t' ∧ Visited names t t' := by
  induction fuel generalizing node t with
  | zero => exact absurd hfuel (Nat.not_lt_zero _)
  | succ fuel ih =>
    unfold Traversal.depthFirst
    split
    · exact ⟨t, rfl, h, fun _ hm => hm⟩
    · next hv =>
      have hfold (es : List (Edge ι ω)) (hes : ∀ e ∈ es, e.destinationBlock.uniqueName ∈ names) (t : Traversal)
          (h : Visits names t) (hfuel : nLeft names t < fuel) : ∃ t',
          es.foldlM (fun t e => t.depthFirst edgesOf fuel e.destinationBlock.uniqueName) t = some t' ∧
            Visited names t t' := by
        induction es generalizing t with
        | nil => exact ⟨t, rfl, h, fun _ hm => hm⟩
        | cons e es ihes =>
          rw [List.forall_mem_cons] at hes
          obtain ⟨t₁, hfirst, h₁, hmono₁⟩ := ih h hes.1 hfuel
          obtain ⟨t₂, hrest, h₂, hmono₂⟩ := ihes hes.2 t₁ h₁ (lt_of_le_of_lt (nLeft_le hmono₁) hfuel)
          refine ⟨t₂, ?_, h₂, fun name hm => hmono₂ name (hmono₁ name hm)⟩
          rw [List.foldlM_cons, hfirst]
          exact hrest
      obtain ⟨hvisit, -, hvisited, -⟩ := h.visit hnode hv
      have hmono : ∀ name ∈ t.visited, name ∈ (t.visit node).visited := fun name hm => by
        rw [hvisited]
        exact List.mem_cons_of_mem node hm
      have hless : nLeft names (t.visit node) < nLeft names t :=
        nLeft_lt hmono hnode hv (by rw [hvisited]; exact .head _)
      obtain ⟨t', hall, h', hmono'⟩ := hfold (edgesOf node) (hclosed node) _ hvisit (by omega)
      exact ⟨t', hall, h', fun name hm => hmono' name (hmono name hm)⟩

theorem Visits.depthFirstAll {edgesOf : Nat → List (Edge ι ω)}
    (hclosed : ∀ b, ∀ e ∈ edgesOf b, e.destinationBlock.uniqueName ∈ names) (nodes : List Nat)
    (hnodes : ∀ node ∈ nodes, node ∈ names) (h : Visits names t) :
    ∃ t', nodes.foldlM (fun t src => t.depthFirst edgesOf (names.length + 1) src) t = some t' ∧ Visits names t' := by
  induction nodes generalizing t with
  | nil => exact ⟨t, rfl, h⟩
  | cons node nodes ih =>
    rw [List.forall_mem_cons] at hnodes
    obtain ⟨t₁, hfirst, h₁, -⟩ := h.depthFirst hclosed (names.length + 1) hnodes.1
      (Nat.lt_succ_of_le (List.length_filter_le _ _))
    obtain ⟨t₂, hrest, h₂⟩ := ih hnodes.2 h₁
    refine ⟨t₂, ?_, h₂⟩
    rw [List.foldlM_cons, hfirst]
    exact hrest

end DepthFirst

end Traversals

/-! ### Schedulers -/

section Schedulers
variable [DecidableEq ω]

omit [DecidableEq ω] in
theorem mem_flatBlocks_of_mem_flatten {g : Graph.Graph ι ω} {e : Edge ι ω} (h : e ∈ flatten g) :
    e.sourceBlock.uniqueName ∈ flatBlocks g ∧ e.destinationBlock.uniqueName ∈ flatBlocks g := by
  have hlisted := Graph.isListed_of_mem_flatten h
  rw [Graph.isListed, Bool.and_eq_true, List.any_eq_true, List.any_eq_true] at hlisted
  obtain ⟨⟨b, hb, hsource⟩, d, hd, hdestination⟩ := hlisted
  exact ⟨List.mem_map.mpr ⟨b, hb, eq_of_beq hsource⟩, List.mem_map.mpr ⟨d, hd, eq_of_beq hdestination⟩⟩

theorem mem_flatBlocks_of_adjacent (c : Config ι ω) (g : Graph.Graph ι ω) (b : Nat) :
    ∀ e ∈ adjacent c (flatten g) b, e.destinationBlock.uniqueName ∈ flatBlocks g := fun _ he =>
  (mem_flatBlocks_of_mem_flatten (Graph.mem_of_mem_adjacent he)).2

omit [DecidableEq ω] in
theorem mem_flatBlocks_of_source (order : BlockOrder) (g : Graph.Graph ι ω) :
    ∀ name ∈ findSourceBlocks order (flatten g), name ∈ flatBlocks g := fun name hm => by
  unfold findSourceBlocks at hm
  rw [(order.perm _).mem_iff] at hm
  obtain ⟨e, he, rfl⟩ := List.mem_map.mp (List.mem_dedup.mp (List.mem_of_mem_filter hm))
  exact (mem_flatBlocks_of_mem_flatten he).1

theorem breadthFirstBlocks_lists (c : Config ι ω) (order : BlockOrder) (g : Graph.Graph ι ω) :
    ∃ blockList, breadthFirstBlocks c order g = some blockList ∧ ListsAll (flatBlocks g) blockList := by
  have hstart : Queued (flatBlocks g) ⟨[], [], [], []⟩ :=
    ⟨⟨List.nodup_nil, fun _ => Iff.rfl, nofun⟩, List.nodup_nil, fun _ => Iff.rfl,
      nofun⟩
  obtain ⟨hqueued, hlist⟩ := hstart.reachAll _ (mem_flatBlocks_of_source order g)
  obtain ⟨t, ht, hvisits, -⟩ := hqueued.breadthFirst (mem_flatBlocks_of_adjacent c g) (flatBlocks g).length (by omega)
  refine ⟨_, ?_, hvisits.complete⟩
  unfold breadthFirstBlocks
  dsimp only
  rw [ht]
  rfl

theorem depthFirstBlocks_lists (c : Config ι ω) (order : BlockOrder) (g : Graph.Graph ι ω) :
    ∃ blockList, depthFirstBlocks c order g = some blockList ∧ ListsAll (flatBlocks g) blockList := by
  have hstart : Visits (flatBlocks g) ⟨[], [], [], []⟩ :=
    ⟨List.nodup_nil, fun _ => Iff.rfl, nofun⟩
  obtain ⟨t, ht, hvisits⟩ := hstart.depthFirstAll (mem_flatBlocks_of_adjacent c g) _ (mem_flatBlocks_of_source order g)
  refine ⟨_, ?_, hvisits.complete⟩
  unfold depthFirstBlocks
  rw [ht]
  rfl

/-- The job lists of a scheduler: together they are its block list, which lists every block, and they share the working
    blocks evenly. -/
def Partitions (g : Graph.Graph ι ω) (n : Nat) (jobLists : Option (List (List Nat))) : Prop :=
  ∃ blockList lists, jobLists = some lists ∧ ListsAll (flatBlocks g) blockList ∧
    EvenSlices (worksOnItsOwn g) blockList n lists

/-- For every graph and every number of batches: the job lists of `Simple` are the blocks of the flattened graph in their
    order, and those of the other two hold the same blocks, none more often than the flattened graph lists it. The slices
    of any list of blocks are that list, and share the blocks that work evenly. -/
theorem jobLists_partition (c : Config ι ω) (order : BlockOrder) (g : Graph.Graph ι ω) {n : Nat} (hn : 0 < n) :
    (∃ lists, simple g n = some lists ∧ EvenSlices (worksOnItsOwn g) (flatBlocks g) n lists) ∧
      Partitions g n (breadthFirst c order g n) ∧
      Partitions g n (depthFirst c order g n) ∧
      ∀ (works : Nat → Bool) (blocks : List Nat), ∃ lists, batchBlocks works blocks n = some lists ∧
        EvenSlices works blocks n lists := by
  refine ⟨batchBlocks_spec _ _ hn, ?_, ?_, fun works blocks => batchBlocks_spec works blocks hn⟩
  · obtain ⟨blockList, hblocks, hall⟩ := breadthFirstBlocks_lists c order g
    obtain ⟨lists, hlists, heven⟩ := batchBlocks_spec (worksOnItsOwn g) blockList hn
    refine ⟨blockList, lists, ?_, hall, heven⟩
    rw [breadthFirst, hblocks]
    exact hlists
  · obtain ⟨blockList, hblocks, hall⟩ := depthFirstBlocks_lists c order g
    obtain ⟨lists, hlists, heven⟩ := batchBlocks_spec (worksOnItsOwn g) blockList hn
    refine ⟨blockList, lists, ?_, hall, heven⟩
    rw [depthFirst, hblocks]
    exact hlists

end Schedulers

/-! A source into a chain of two, a cycle of two, and a group with a block of its own. -/

section Example

theorem neZero_ports : NeZero 1 := ⟨by decide⟩

-- the numeral for a port
scoped instance somePorts : NeZero 1 := neZero_ports

def mixedBlock (uniqueName : Nat) : Graph.Block (Fin 1) (Fin 1) :=
  ⟨uniqueName, [.port "in" 0], [.port "out" 0], [0], 1, 1, 0, [1], false⟩

def mixedEdge (number source destination : Nat) : Edge (Fin 1) (Fin 1) :=
  ⟨number, mixedBlock source, .index 0 none, mixedBlock destination, .index 0 none, none⟩

def mixedConfig : Config (Fin 1) (Fin 1) :=
  ⟨fun _ => ⟨"float", .stream, true, false, true⟩, fun _ => ⟨"float", .stream, true, false, true⟩, id, 65536, id⟩

def mixedGraph : Graph.Graph (Fin 1) (Fin 1) :=
  .mk 9 (.group (mixedBlock 5) .transparentBlockGroup (.mk 5 (.block (mixedBlock 6) .nil) [] [] [])
    (.block (mixedBlock 3) (.block (mixedBlock 4) (.block (mixedBlock 2) (.block (mixedBlock 1)
      (.block (mixedBlock 0) .nil))))))
    [mixedEdge 0 0 1, mixedEdge 1 1 2, mixedEdge 2 3 4, mixedEdge 3 4 3] [] []

def byName : BlockOrder := ⟨id, fun _ => .refl _⟩

theorem mixedGraph_partition :
    ((∃ lists, simple mixedGraph 2 = some lists ∧
        EvenSlices (worksOnItsOwn mixedGraph) (flatBlocks mixedGraph) 2 lists) ∧
      Partitions mixedGraph 2 (breadthFirst mixedConfig byName mixedGraph 2) ∧
      Partitions mixedGraph 2 (depthFirst mixedConfig byName mixedGraph 2) ∧
      ∀ (works : Nat → Bool) (blocks : List Nat), ∃ lists, batchBlocks works blocks 2 = some lists ∧
        EvenSlices works blocks 2 lists) ∧
      breadthFirst mixedConfig byName mixedGraph 2 = some [[0, 1, 2], [5, 3, 4, 6]] :=
  ⟨jobLists_partition mixedConfig byName mixedGraph (by decide), by decide⟩

/-- `addBlock()` does not refuse a block that the graph holds: the block is in the job lists twice. -/
theorem not_exactly_once : ¬ ∀ (g : Graph.Graph (Fin 1) (Fin 1)) (n : Nat), 0 < n → ∀ lists, simple g n = some lists →
    ∀ name ∈ flatBlocks g, lists.flatten.count name = 1 := by
  intro h
  have htwice := h (.mk 9 (.block (mixedBlock 0) (.block (mixedBlock 0) .nil)) [] [] []) 1 (by decide) [[0, 0]]
    (by decide) 0 (by decide)
  exact absurd htwice (by decide)

end Example

end GnuRadio.JobLists
