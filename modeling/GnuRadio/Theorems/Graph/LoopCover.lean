import GnuRadio.Library.Components
import GnuRadio.Theorems.Graph.FeedbackLoops
import GnuRadio.Theorems.Graph.PortIndices

/-! The loops that the search finds are closed walks, no edge closes two of them, and without the closing edges no cycle is
    left that a way leads to from a block of the graph. -/

namespace GnuRadio.Graph

open Walks (Walk Next)

variable {ι ω : Type}

/-- The blocks at the ends of an edge. -/
abbrev Edge.start (e : Edge ι ω) : Nat := e.sourceBlock.uniqueName

abbrev Edge.stop (e : Edge ι ω) : Nat := e.destinationBlock.uniqueName

/-- The last edge of each loop. -/
def closings (loops : List (List (Edge ι ω))) : List (Edge ι ω) := loops.filterMap List.getLast?

theorem closings_concat (loops : List (List (Edge ι ω))) {loop : List (Edge ι ω)} {e : Edge ι ω}
    (h : loop.getLast? = some e) : closings (loops ++ [loop]) = closings loops ++ [e] := by
  rw [closings, closings, List.filterMap_append, List.filterMap_cons, h, List.filterMap_nil]

/-- A block changes its colour. -/
def Search.mark (found : Search ι ω) (name : Nat) (colour : VisitState) : Search ι ω :=
  { found with visited := Function.update found.visited name colour }

@[simp] theorem mark_self (found : Search ι ω) (name : Nat) (colour : VisitState) :
    (found.mark name colour).visited name = colour := Function.update_self _ _ _

theorem mark_of_ne (found : Search ι ω) {name v : Nat} (colour : VisitState) (h : v ≠ name) :
    (found.mark name colour).visited v = found.visited v := Function.update_of_ne h _ _

@[simp] theorem mark_loops (found : Search ι ω) (name : Nat) (colour : VisitState) :
    (found.mark name colour).loops = found.loops := rfl

/-- The closing edges that leave a block. -/
def closingsFrom (found : Search ι ω) (v : Nat) : List (Edge ι ω) :=
  (closings found.loops).filter fun e => e.start = v

/-- The edges that stay when the closing edges of the loops found are removed. -/
def Stays (edgesOf : Nat → List (Edge ι ω)) (found : Search ι ω) (e : Edge ι ω) : Prop :=
  e ∈ edgesOf e.start ∧ e ∉ closings found.loops

/-- From the block, the edges that stay lead nowhere for ever. -/
def Ends (edgesOf : Nat → List (Edge ι ω)) (found : Search ι ω) (v : Nat) : Prop :=
  Acc (Next Edge.start Edge.stop (Stays edgesOf found)) v

/-- What the search knows when `path` leads to the block that it visits. -/
structure Explored (edgesOf : Nat → List (Edge ι ω)) (path : List Nat) (found : Search ι ω) : Prop where
  gray : ∀ v, found.visited v = .gray ↔ v ∈ path
  closed : ∀ loop ∈ found.loops, loop ≠ [] ∧ ∃ b, Walk Edge.start Edge.stop b loop b
  once : ∀ v, (closingsFrom found v).Sublist (edgesOf v)
  fresh : ∀ v, found.visited v = .unvisited → closingsFrom found v = []
  ends : ∀ v, found.visited v = .black → Ends edgesOf found v
  followed : ∀ v, found.visited v = .black → ∀ e ∈ edgesOf v, found.visited e.stop ≠ .unvisited

/-- What a later state of the search keeps of an earlier one, when edges of one visited block are followed. -/
structure Extends (current : Nat) (found found' : Search ι ω) : Prop where
  further : Further found.visited found'.visited
  black : ∀ v, found.visited v = .black → found'.visited v = .black
  closings : ∀ e ∈ closings found.loops, e ∈ Graph.closings found'.loops
  same : ∀ v, v ≠ current → found.visited v ≠ .unvisited → closingsFrom found' v = closingsFrom found v

theorem Extends.refl (current : Nat) (found : Search ι ω) : Extends current found found :=
  ⟨fun _ h => h, fun _ h => h, fun _ h => h, fun _ _ _ => rfl⟩

theorem Extends.trans {current : Nat} {found found' found'' : Search ι ω} (h : Extends current found found')
    (h' : Extends current found' found'') : Extends current found found'' where
  further := h.further.trans h'.further
  black v hv := h'.black v (h.black v hv)
  closings e he := h'.closings e (h.closings e he)
  same v hc hv := (h'.same v hc fun hu => hv (h.further v hu)).trans (h.same v hc hv)

/-- A block that was not visited before makes no difference. -/
theorem Extends.visited {current next : Nat} {found found' : Search ι ω} (h : Extends next found found')
    (hnext : found.visited next = .unvisited) : Extends current found found' :=
  ⟨h.further, h.black, h.closings, fun v _ hv => h.same v (fun hc => hv (hc ▸ hnext)) hv⟩

section Search
variable {edgesOf : Nat → List (Edge ι ω)} {path : List Nat} {found found' : Search ι ω} {v : Nat}

theorem Ends.extends (h : Ends edgesOf found v) (hc : ∀ e ∈ closings found.loops, e ∈ closings found'.loops) :
    Ends edgesOf found' v :=
  Next.acc_mono (fun e he => ⟨he.1, fun hm => he.2 (hc e hm)⟩) h

/-- Where the search stands among the edges of the block that ends the path: `followed` are those it has followed. -/
structure Visiting (edgesOf : Nat → List (Edge ι ω)) (path : List Nat) (current : Nat) (followed : List (Edge ι ω))
    (found : Search ι ω) : Prop where
  explored : Explored edgesOf (path ++ [current]) found
  once : (closingsFrom found current).Sublist followed
  done : ∀ e ∈ followed, found.visited e.stop ≠ .unvisited ∧
    (e ∈ closings found.loops ∨ found.visited e.stop = .black)

variable {current : Nat} {followed : List (Edge ι ω)}

theorem Visiting.gray (h : Visiting edgesOf path current followed found) :
    found.visited current = .gray := (h.explored.gray current).mpr (by simp)

theorem Visiting.enter (h : Explored edgesOf path found) (hv : found.visited current = .unvisited) :
    Visiting edgesOf path current [] (found.mark current .gray) where
  explored :=
    { gray := fun v => by
        by_cases hc : v = current
        · simp [hc]
        · simp [mark_of_ne _ _ hc, h.gray v, hc]
      closed := h.closed
      once := h.once
      fresh := fun v hu => h.fresh v (further_update _ _ (by decide) v hu)
      ends := fun v hb => by
        by_cases hc : v = current
        · simp [hc] at hb
        · rw [mark_of_ne _ _ hc] at hb
          exact h.ends v hb
      followed := fun v hb e he hu => by
        by_cases hc : v = current
        · simp [hc] at hb
        · rw [mark_of_ne _ _ hc] at hb
          exact h.followed v hb e he (further_update _ _ (by decide) _ hu) }
  once := by
    have hnil : closingsFrom found current = [] := h.fresh current hv
    exact hnil ▸ List.nil_sublist _
  done e he := nomatch he

theorem enter_extends (hv : found.visited current = .unvisited) :
    Extends current found (found.mark current .gray) where
  further := further_update _ _ (by decide)
  black v hb := by
    have hc : v ≠ current := fun hc => by simp [hc, hv] at hb
    rwa [mark_of_ne _ _ hc]
  closings _ h := h
  same _ _ _ := rfl

/-- A block whose edges have all been followed is left. -/
theorem Visiting.leave (h : Visiting edgesOf path current (edgesOf current) found)
    (hpath : current ∉ path) :
    Explored edgesOf path (found.mark current .black) where
  gray v := by
    by_cases hc : v = current
    · simp [hc, hpath]
    · simp [mark_of_ne _ _ hc, h.explored.gray v, hc]
  closed := h.explored.closed
  once := h.explored.once
  fresh v hu := h.explored.fresh v (further_update _ _ (by decide) v hu)
  ends v hb := by
    by_cases hc : v = current
    · subst hc
      refine Acc.intro v fun w ⟨e, ⟨he, hstays⟩, hs, hd⟩ => ?_
      rw [hs] at he
      obtain hclosing | hblack := (h.done e he).2
      · exact absurd hclosing hstays
      · exact hd ▸ h.explored.ends _ hblack
    · rw [mark_of_ne _ _ hc] at hb
      exact h.explored.ends v hb
  followed v hb e he hu := by
    have hu' := further_update _ _ (by decide) _ hu
    by_cases hc : v = current
    · exact (h.done e (hc ▸ he)).1 hu'
    · rw [mark_of_ne _ _ hc] at hb
      exact h.explored.followed v hb e he hu'

theorem Visiting.leave_extends
    (h : Visiting edgesOf path current followed found) :
    Extends current found (found.mark current .black) where
  further := further_update _ _ (by decide)
  black v hb := by
    have hc : v ≠ current := fun hc => by simp [hc, h.gray] at hb
    rwa [mark_of_ne _ _ hc]
  closings _ hm := hm
  same _ _ _ := rfl

/-- The edges followed so far lead to `current` through the blocks of the path. -/
structure Leads (pathEdges : List (Edge ι ω)) (path : List Nat) (current : Nat) : Prop where
  sources : pathEdges.map Edge.start = path
  walk : ∃ a, Walk Edge.start Edge.stop a pathEdges current

variable {e : Edge ι ω} {pathEdges : List (Edge ι ω)}

theorem Leads.follow (h : Leads pathEdges path current)
    (he : e.start = current) : Leads (pathEdges ++ [e]) (path ++ [current]) e.stop where
  sources := by rw [List.map_append, h.sources, List.map_singleton, he]
  walk := by
    obtain ⟨a, ha⟩ := h.walk
    exact ⟨a, ha.concat he⟩

/-- An edge back to a block of the path cuts out a closed walk, which it ends. -/
theorem Leads.closed {current next : Nat} (h : Leads pathEdges path current) (he : e.start = current) (hnext : next ∈ path ++ [current]) :
    Walk Edge.start Edge.stop next ((pathEdges ++ [e]).drop ((path ++ [current]).idxOf next)) e.stop ∧
      ((pathEdges ++ [e]).drop ((path ++ [current]).idxOf next)).getLast? = some e := by
  have hleads := h.follow he
  have hlt : (path ++ [current]).idxOf next < (path ++ [current]).length := List.idxOf_lt_length_of_mem hnext
  have hat : ((pathEdges ++ [e]).map Edge.start)[(path ++ [current]).idxOf next]? = some next := by
    rw [hleads.sources, List.getElem?_eq_getElem hlt, List.getElem_idxOf hlt]
  have hlength : (path ++ [current]).length = (pathEdges ++ [e]).length := by
    rw [← hleads.sources, List.length_map]
  obtain ⟨a, ha⟩ := hleads.walk
  refine ⟨ha.drop hat, ?_⟩
  rw [List.getLast?_drop, if_neg (by omega), List.getLast?_concat]

theorem Visiting.loop {pathEdges followed : List (Edge ι ω)}
    (h : Visiting edgesOf path current followed found) (hleads : Leads pathEdges path current)
    (he : e.start = current) (hsub : (followed ++ [e]).Sublist (edgesOf current))
    (hgray : found.visited e.stop = .gray) :
    let found' := { found with
      loops := found.loops ++ [(pathEdges ++ [e]).drop ((path ++ [current]).idxOf e.stop)] }
    Visiting edgesOf path current (followed ++ [e]) found' ∧ Extends current found found' := by
  intro found'
  obtain ⟨hwalk, hlast⟩ := hleads.closed he ((h.explored.gray _).mp hgray)
  have hclosings : closings found'.loops = closings found.loops ++ [e] := closings_concat _ hlast
  have hfrom (v : Nat) : closingsFrom found' v = closingsFrom found v ++ if e.start = v then [e] else [] := by
    unfold closingsFrom
    rw [hclosings, List.filter_append, List.filter_singleton]
    simp
  have hother (v : Nat) (hv : v ≠ current) : closingsFrom found' v = closingsFrom found v := by
    rw [hfrom, if_neg fun hs => hv (hs.symm.trans he), List.append_nil]
  have honce : (closingsFrom found' current).Sublist (followed ++ [e]) := by
    rw [hfrom, if_pos he]
    exact h.once.append_right [e]
  have hmono : ∀ x ∈ closings found.loops, x ∈ closings found'.loops := fun x hx => by
    rw [hclosings]
    exact List.mem_append_left _ hx
  refine ⟨⟨⟨h.explored.gray, fun loop hloop => ?_, fun v => ?_, fun v hv => ?_, fun v hv => ?_, h.explored.followed⟩,
    honce, fun x hx => ?_⟩, ⟨fun _ hv => hv, fun _ hv => hv, hmono, fun v hc _ => hother v hc⟩⟩
  · obtain hloop | hloop := List.mem_append.mp hloop
    · exact h.explored.closed loop hloop
    · rw [List.mem_singleton.mp hloop]
      refine ⟨fun hnil => ?_, e.stop, hwalk⟩
      rw [hnil] at hlast
      cases hlast
  · by_cases hv : v = current
    · exact hv ▸ honce.trans hsub
    · exact hother v hv ▸ h.explored.once v
  · have hne : v ≠ current := fun hc => by
      have hu : found.visited v = .unvisited := hv
      rw [hc, h.gray] at hu
      cases hu
    exact (hother v hne).trans (h.explored.fresh v hv)
  · exact (h.explored.ends v hv).extends hmono
  · obtain hx | hx := List.mem_append.mp hx
    · obtain ⟨hvisited, hclosing | hblack⟩ := h.done x hx
      · exact ⟨hvisited, .inl (hmono x hclosing)⟩
      · exact ⟨hvisited, .inr hblack⟩
    · rw [List.mem_singleton.mp hx]
      refine ⟨fun hu => ?_, .inl ?_⟩
      · cases hgray.symm.trans hu
      · rw [hclosings]
        simp

/-- Where the search goes on at an unvisited block, it returns with that block done. -/
structure Searched (edgesOf : Nat → List (Edge ι ω)) (path : List Nat) (current : Nat) (found found' : Search ι ω) :
    Prop where
  explored : Explored edgesOf path found'
  black : found'.visited current = .black
  extends_ : Extends current found found'

theorem Visiting.searched
    (h : Visiting edgesOf path current followed found) (hs : Searched edgesOf (path ++ [current]) e.stop found found')
    (hfresh : found.visited e.stop = .unvisited) :
    Visiting edgesOf path current (followed ++ [e]) found' where
  explored := hs.explored
  once := by
    have hne : current ≠ e.stop := fun hc => by
      rw [← hc, h.gray] at hfresh
      cases hfresh
    have hvisited : found.visited current ≠ .unvisited := by rw [h.gray]; decide
    rw [hs.extends_.same current hne hvisited]
    exact h.once.trans (List.sublist_append_left _ _)
  done x hx := by
    obtain hx | hx := List.mem_append.mp hx
    · obtain ⟨hvisited, hclosing | hblack⟩ := h.done x hx
      · exact ⟨fun hu => hvisited (hs.extends_.further _ hu), .inl (hs.extends_.closings x hclosing)⟩
      · exact ⟨fun hu => hvisited (hs.extends_.further _ hu), .inr (hs.extends_.black _ hblack)⟩
    · rw [List.mem_singleton.mp hx, hs.black]
      exact ⟨by decide, .inr rfl⟩

theorem Visiting.skip
    (h : Visiting edgesOf path current followed found) (hblack : found.visited e.stop = .black) :
    Visiting edgesOf path current (followed ++ [e]) found where
  explored := h.explored
  once := h.once.trans (List.sublist_append_left _ _)
  done x hx := by
    obtain hx | hx := List.mem_append.mp hx
    · exact h.done x hx
    · rw [List.mem_singleton.mp hx, hblack]
      exact ⟨by decide, .inr rfl⟩

/-- One edge. -/
theorem Visiting.follow {pathEdges followed : List (Edge ι ω)}
    {search : Nat → List Nat → List (Edge ι ω) → Search ι ω → Search ι ω}
    (h : Visiting edgesOf path current followed found) (hleads : Leads pathEdges path current)
    (he : e.start = current) (hsub : (followed ++ [e]).Sublist (edgesOf current))
    (hsearch : found.visited e.stop = .unvisited → Searched edgesOf (path ++ [current]) e.stop found
      (search e.stop (path ++ [current]) (pathEdges ++ [e]) found)) :
    Visiting edgesOf path current (followed ++ [e]) (follow search (path ++ [current]) pathEdges found e) ∧
      Extends current found (follow search (path ++ [current]) pathEdges found e) := by
  unfold Graph.follow
  dsimp only
  split
  · next hgray =>
    rw [if_pos ((h.explored.gray _).mp hgray)]
    exact h.loop hleads he hsub hgray
  · next hfresh =>
    have hs := hsearch hfresh
    exact ⟨h.searched hs hfresh, hs.extends_.visited hfresh⟩
  · next hblack => exact ⟨h.skip hblack, .refl _ _⟩

/-- The search from an unvisited block, when there is fuel for every unvisited block. -/
theorem dfs_searched {names : List Nat} (hsource : ∀ b, ∀ e ∈ edgesOf b, e.start = b)
    (hclosed : ∀ b, ∀ e ∈ edgesOf b, e.stop ∈ names) {fuel current : Nat}
    (h : Explored edgesOf path found) (hleads : Leads pathEdges path current) (hcurrent : current ∈ names)
    (hv : found.visited current = .unvisited) (hfuel : nUnvisited names found.visited ≤ fuel) :
    Searched edgesOf path current found (dfs edgesOf fuel current path pathEdges found) := by
  induction fuel generalizing current path pathEdges found with
  | zero =>
    have hmem : current ∈ names.filter fun name => decide (found.visited name = .unvisited) :=
      List.mem_filter.mpr ⟨hcurrent, decide_eq_true hv⟩
    exact absurd (List.length_pos_of_mem hmem) (by unfold nUnvisited at hfuel; omega)
  | succ fuel ih =>
    have hfold (rest followed : List (Edge ι ω)) (hsplit : followed ++ rest = edgesOf current) (found : Search ι ω)
        (h : Visiting edgesOf path current followed found) (hfuel : nUnvisited names found.visited ≤ fuel) :
        Visiting edgesOf path current (edgesOf current)
            (rest.foldl (Graph.follow (dfs edgesOf fuel) (path ++ [current]) pathEdges) found) ∧
          Extends current found (rest.foldl (Graph.follow (dfs edgesOf fuel) (path ++ [current]) pathEdges) found) := by
      induction rest generalizing followed found with
      | nil =>
        rw [List.append_nil] at hsplit
        exact ⟨hsplit ▸ h, .refl _ _⟩
      | cons e rest ihrest =>
        have hsplit' : (followed ++ [e]) ++ rest = edgesOf current := by
          rw [List.append_assoc]
          exact hsplit
        have he : e ∈ edgesOf current := hsplit ▸ by simp
        have hstart := hsource current e he
        obtain ⟨hnext, hextends⟩ := h.follow hleads hstart (hsplit' ▸ List.sublist_append_left _ _) fun hfresh =>
          ih h.explored (hleads.follow hstart) (hclosed current e he) hfresh hfuel
        obtain ⟨hall, hextends'⟩ := ihrest (followed ++ [e]) hsplit' _ hnext
          ((nUnvisited_le hextends.further).trans hfuel)
        exact ⟨hall, hextends.trans hextends'⟩
    have hless : nUnvisited names (found.mark current .gray).visited < nUnvisited names found.visited :=
      nUnvisited_lt (further_update _ _ (by decide)) hcurrent hv (by rw [mark_self]; decide)
    obtain ⟨hall, hextends⟩ := hfold (edgesOf current) [] rfl _ (.enter h hv) (by omega)
    have hpath : current ∉ path := fun hm => by
      rw [← h.gray current, hv] at hm
      cases hm
    exact ⟨hall.leave hpath, mark_self _ _ _, ((enter_extends hv).trans hextends).trans hall.leave_extends⟩

end Search

/-! ### The edges of a block -/

section Adjacent
variable [DecidableEq ω] {c : Config ι ω} {edges : List (Edge ι ω)} {b : Nat}

theorem start_of_mem_adjacent {e : Edge ι ω} (h : e ∈ adjacent c edges b) : e.start = b := by
  obtain ⟨port, -, he⟩ := List.mem_flatMap.mp h
  exact eq_of_beq (List.mem_filter.mp (List.mem_of_mem_filter he)).2

/-- Lists taken apart by a key are put together again by any list of the keys. -/
theorem flatMap_filter_perm {α κ : Type} [DecidableEq κ] {key : α → κ} {keys : List κ} {l : List α}
    (hnodup : keys.Nodup) (hkeys : ∀ x ∈ l, key x ∈ keys) :
    (keys.flatMap fun k => l.filter fun x => decide (key x = k)).Perm l := by
  induction keys generalizing l with
  | nil =>
    rw [List.eq_nil_iff_forall_not_mem.mpr fun x hx => List.not_mem_nil (hkeys x hx)]
    exact .refl _
  | cons k keys ih =>
    rw [List.nodup_cons] at hnodup
    have hrest : (keys.flatMap fun k' => l.filter fun x => decide (key x = k')) =
        keys.flatMap fun k' => (l.filter fun x => !decide (key x = k)).filter fun x => decide (key x = k') := by
      refine List.flatMap_congr fun k' hk' => ?_
      rw [List.filter_filter]
      refine List.filter_congr fun x _ => ?_
      by_cases hx : key x = k'
      · have hne : k' ≠ k := fun hk => hnodup.1 (hk ▸ hk')
        simp [hx, hne]
      · simp [hx]
    have hothers : ∀ x ∈ l.filter (fun x => !decide (key x = k)), key x ∈ keys := fun x hx => by
      obtain ⟨hx, hk⟩ := List.mem_filter.mp hx
      exact (List.mem_cons.mp (hkeys x hx)).resolve_left (by simpa using hk)
    rw [List.flatMap_cons, hrest]
    exact ((ih hnodup.2 hothers).append_left _).trans (List.filter_append_perm _ l)

theorem adjacent_perm (horder : ∀ ports, (c.hashOrder ports).Perm ports) :
    (adjacent c edges b).Perm (edges.filter fun e => e.start == b) := by
  have hports := horder ((edges.filter fun e => e.start == b).map Edge.source).dedup
  refine flatMap_filter_perm (hports.nodup_iff.mpr (List.nodup_dedup _)) fun e he => ?_
  rw [hports.mem_iff, List.mem_dedup]
  exact List.mem_map_of_mem he

end Adjacent

/-! ### All blocks -/

section Results
variable [DecidableEq ω] {c : Config ι ω} {names : List Nat} {edges : List (Edge ι ω)}

omit [DecidableEq ω] in
theorem explored_start (edgesOf : Nat → List (Edge ι ω)) :
    Explored edgesOf [] (⟨fun _ => .unvisited, []⟩ : Search ι ω) where
  gray v := by simp
  closed loop hloop := nomatch hloop
  once v := List.nil_sublist _
  fresh v _ := rfl
  ends v hv := by cases hv
  followed v hv := by cases hv

/-- The state in which the search from each of some blocks ends. -/
theorem exists_search (c : Config ι ω) (names : List Nat) (edges : List (Edge ι ω)) : ∃ found : Search ι ω,
    searchLoops c names edges = found.loops ∧ Explored (adjacent c edges) [] found ∧
      LoopsIn edges found ∧ ∀ name ∈ names, found.visited name = .black := by
  have hclosed (b : Nat) : ∀ e ∈ adjacent c edges b, e.stop ∈ names ++ edges.map Edge.stop := fun e he =>
    List.mem_append_right _ (List.mem_map_of_mem (mem_of_mem_adjacent he))
  have hlength : (names ++ edges.map Edge.stop).length = names.length + edges.length := by simp
  have hfold (rest : List Nat) (hrest : ∀ name ∈ rest, name ∈ names) (found : Search ι ω)
      (h : Explored (adjacent c edges) [] found) (hin : LoopsIn edges found) : ∃ found' : Search ι ω,
      rest.foldl (fun found name => if found.visited name = .unvisited then
        dfs (adjacent c edges) (names.length + edges.length) name [] [] found else found) found = found' ∧
      Explored (adjacent c edges) [] found' ∧ LoopsIn edges found' ∧
      (∀ v, found.visited v = .black → found'.visited v = .black) ∧ ∀ name ∈ rest, found'.visited name = .black := by
    induction rest generalizing found with
    | nil => exact ⟨found, rfl, h, hin, fun _ hv => hv, nofun⟩
    | cons name rest ih =>
      rw [List.forall_mem_cons] at hrest
      rw [List.foldl_cons]
      by_cases hv : found.visited name = .unvisited
      · rw [if_pos hv]
        have hleads : Leads ([] : List (Edge ι ω)) [] name := ⟨rfl, name, rfl⟩
        have hsearched := dfs_searched (fun b e he => start_of_mem_adjacent he) hclosed h hleads
          (List.mem_append_left _ hrest.1) hv (hlength ▸ List.length_filter_le _ _)
        obtain ⟨found', hfound, h', hin', hblack, hall⟩ := ih hrest.2 _ hsearched.explored
          (LoopsIn.dfs (fun _ _ he => mem_of_mem_adjacent he) (nofun) hin)
        refine ⟨found', hfound, h', hin', fun v hb => hblack v (hsearched.extends_.black v hb), ?_⟩
        rw [List.forall_mem_cons]
        exact ⟨hblack name hsearched.black, hall⟩
      · rw [if_neg hv]
        have hname : found.visited name = .black := by
          cases hcolour : found.visited name with
          | unvisited => exact absurd hcolour hv
          | gray => cases (h.gray name).mp hcolour
          | black => rfl
        obtain ⟨found', hfound, h', hin', hblack, hall⟩ := ih hrest.2 found h hin
        refine ⟨found', hfound, h', hin', hblack, ?_⟩
        rw [List.forall_mem_cons]
        exact ⟨hblack name hname, hall⟩
  obtain ⟨found, hfound, h, hin, -, hall⟩ := hfold names (fun _ hn => hn) _ (explored_start _) fun loop hl =>
    nomatch hl
  refine ⟨found, ?_, h, hin, hall⟩
  rw [← hfound]
  rfl

/-- A closed way along listed edges: each edge leaves the block that the one before it enters, the first the block that
    the last one enters. -/
def ClosedWalk (edges loop : List (Edge ι ω)) : Prop :=
  loop ≠ [] ∧ (∀ e ∈ loop, e ∈ edges) ∧ ∃ b, Walk Edge.start Edge.stop b loop b

/-- No cycle of listed edges that `remain` goes through the block. -/
def NoCycle (edges : List (Edge ι ω)) (remain : Edge ι ω → Prop) (v : Nat) : Prop :=
  ∀ cycle : List (Edge ι ω), (∀ e ∈ cycle, e ∈ edges ∧ remain e) → Walk Edge.start Edge.stop v cycle v → cycle = []

/-- Listed edges lead from one of the blocks to another. -/
def ReachedFrom (names : List Nat) (edges : List (Edge ι ω)) (v : Nat) : Prop :=
  ∃ name ∈ names, ∃ way : List (Edge ι ω), (∀ e ∈ way, e ∈ edges) ∧ Walk Edge.start Edge.stop name way v

/-- What `detectFeedbackLoops()` promises of a graph with these blocks and these edges. -/
structure LoopCover (names : List Nat) (edges : List (Edge ι ω)) (loops : List (List (Edge ι ω))) : Prop where
  closed : ∀ loop ∈ loops, ClosedWalk edges loop
  -- as often as an edge is listed, it closes a loop at most
  distinct : (closings loops).Subperm edges
  covered : ∀ v, ReachedFrom names edges v → NoCycle edges (fun e => e ∉ closings loops) v

variable (horder : ∀ ports, (c.hashOrder ports).Perm ports)
include horder

theorem mem_adjacent {e : Edge ι ω} (he : e ∈ edges) : e ∈ adjacent c edges e.start := by
  rw [(adjacent_perm horder).mem_iff]
  exact List.mem_filter.mpr ⟨he, beq_self_eq_true _⟩

theorem closings_subperm {found : Search ι ω} (h : Explored (adjacent c edges) [] found) :
    (closings found.loops).Subperm edges := by
  classical
  rw [List.subperm_ext_iff]
  intro e _
  have hcount {l : List (Edge ι ω)} : l.count e = (l.filter fun x => x.start = e.start).count e :=
    (List.count_filter (by simp)).symm
  calc (closings found.loops).count e = (closingsFrom found e.start).count e := hcount
    _ ≤ (adjacent c edges e.start).count e := (h.once e.start).count_le e
    _ = (edges.filter fun x => x.start == e.start).count e := (adjacent_perm horder).count_eq e
    _ = edges.count e := List.count_filter (by simp)

theorem searchLoops_cover (names : List Nat) (edges : List (Edge ι ω)) :
    LoopCover names edges (searchLoops c names edges) := by
  obtain ⟨found, hloops, h, hin, hblack⟩ := exists_search c names edges
  rw [hloops]
  refine ⟨fun loop hloop => ⟨(h.closed loop hloop).1, hin loop hloop, (h.closed loop hloop).2⟩, closings_subperm horder h,
    fun v ⟨name, hname, way, hway, hwalk⟩ cycle hcycle hclosed => ?_⟩
  have hreached : found.visited v = .black := by
    have hstart := hblack name hname
    clear hname
    induction way generalizing name with
    | nil =>
      have hend : name = v := hwalk
      exact hend ▸ hstart
    | cons e way ih =>
      rw [List.forall_mem_cons] at hway
      obtain ⟨hs, hwalk⟩ := hwalk
      refine ih e.stop hway.2 hwalk ?_
      have hvisited := h.followed name hstart e (hs ▸ mem_adjacent horder hway.1)
      cases hcolour : found.visited e.stop with
      | unvisited => exact absurd hcolour hvisited
      | gray => cases (h.gray _).mp hcolour
      | black => rfl
  exact Walks.Walk.eq_nil_of_acc (h.ends v hreached) hclosed fun e he =>
    ⟨mem_adjacent horder (hcycle e he).1, (hcycle e he).2⟩

/-- The loops of a graph are closed walks, each listed edge closes at most one, and no cycle without a closing edge is left
    that a way leads to from a block of the graph: none at all, where every listed edge leaves such a block. -/
theorem detectFeedbackLoopsOf_cover (g : Graph ι ω) :
    LoopCover (g.forEachBlockAll.map Block.uniqueName) g.edges (detectFeedbackLoopsOf c g) ∧
      ((∀ e ∈ g.edges, e.start ∈ g.forEachBlockAll.map Block.uniqueName) →
        ∀ v, NoCycle g.edges (fun e => e ∉ closings (detectFeedbackLoopsOf c g)) v) := by
  have hcover := searchLoops_cover horder (g.forEachBlockAll.map Block.uniqueName) g.edges
  refine ⟨hcover, fun hinside v cycle hcycle hclosed => ?_⟩
  cases cycle with
  | nil => rfl
  | cons e rest =>
    have hstart : v ∈ g.forEachBlockAll.map Block.uniqueName :=
      hclosed.1 ▸ hinside e (hcycle e (.head _)).1
    exact hcover.covered v ⟨v, hstart, [], nofun, rfl⟩ _ hcycle hclosed

end Results

/-! Two blocks, with an edge from the first to itself, and two parallel edges from the second back to the first. -/

section Figure

def figureBlock (uniqueName : Nat) : Block (Fin 2) (Fin 2) :=
  ⟨uniqueName, [.port "in" 0, .port "in2" 1], [.port "out" 0, .port "out2" 1], [0, 1], 1, 1, 0, [1, 1], false⟩

def figureEdge (number source sourcePort destination destinationPort : Nat) : Edge (Fin 2) (Fin 2) :=
  ⟨number, figureBlock source, .index sourcePort none, figureBlock destination, .index destinationPort none, none⟩

def figureConfig : Config (Fin 2) (Fin 2) :=
  ⟨fun _ => ⟨"float", .stream, true, false, true⟩, fun _ => ⟨"float", .stream, true, false, true⟩, id, 65536, id⟩

def figureEdges : List (Edge (Fin 2) (Fin 2)) :=
  [figureEdge 0 0 0 0 0, figureEdge 1 0 1 1 0, figureEdge 2 1 0 0 1, figureEdge 3 1 1 0 1]

def figureGraph : Graph (Fin 2) (Fin 2) :=
  .mk 9 (.block (figureBlock 0) (.block (figureBlock 1) .nil)) figureEdges [] []

/-- Each of the parallel edges closes a loop of its own. -/
theorem figureGraph_cover :
    (LoopCover [0, 1] figureEdges (detectFeedbackLoopsOf figureConfig figureGraph) ∧
      ((∀ e ∈ figureEdges, e.start ∈ [0, 1]) →
        ∀ v, NoCycle figureEdges (fun e => e ∉ closings (detectFeedbackLoopsOf figureConfig figureGraph)) v)) ∧
      (detectFeedbackLoopsOf figureConfig figureGraph).map (List.map Edge.number) = [[0], [1, 2], [1, 3]] :=
  ⟨detectFeedbackLoopsOf_cover (c := figureConfig) (fun _ => .refl _) figureGraph, by decide⟩

/-- `addEdge()` takes any edge: one from a block that the graph does not have to itself is a cycle that no search
    comes to. -/
theorem not_cover : ¬ ∀ (c : Config (Fin 2) (Fin 2)) (g : Graph (Fin 2) (Fin 2)),
    (∀ ports, (c.hashOrder ports).Perm ports) →
      ∀ v, NoCycle g.edges (fun e => e ∉ closings (detectFeedbackLoopsOf c g)) v := by
  intro h
  have hcycle := h figureConfig (.mk 9 .nil [figureEdge 0 0 0 0 0] [] []) (fun _ => .refl _) 0 [figureEdge 0 0 0 0 0]
    (by decide) ⟨rfl, rfl⟩
  cases hcycle

end Figure

end GnuRadio.Graph

/-! The check of a loop's rates and the count that primes it, against what the loop needs. The products are taken as
    32-bit numbers, and the count is the largest demand that is read. -/

namespace GnuRadio.Graph

variable {ι ω : Type} {loop : List (Edge ι ω)} {n r : Nat}

/-! ### Rates -/

theorem int32_mul (m n : Int) : int32 (int32 m * int32 n) = int32 (m * n) := by
  simp only [int32, Int.bmod_mul_bmod, Int.mul_bmod_bmod]

theorem int32_eq_iff (m n : Nat) : int32 m = int32 n ↔ m % 2 ^ 32 = n % 2 ^ 32 := by
  constructor
  · intro h
    have hmod : (m : Int) % (2 ^ 32 : Nat) = (n : Int) % (2 ^ 32 : Nat) := by
      rw [← Int.bmod_emod, ← Int.bmod_emod (x := (n : Int))]
      exact congrArg (· % ((2 ^ 32 : Nat) : Int)) h
    exact_mod_cast hmod
  · intro h
    have hmod : (m : Int) % (2 ^ 32 : Nat) = (n : Int) % (2 ^ 32 : Nat) := by exact_mod_cast h
    rw [int32, int32, ← Int.emod_bmod, hmod, Int.emod_bmod]

theorem foldl_int32 (part : Block ι ω → Int) (size : Block ι ω → Nat) (hpart : ∀ b, part b = int32 (size b))
    (loop : List (Edge ι ω)) (product : Int) :
    loop.foldl (fun product e => int32 (product * part e.destinationBlock)) (int32 product) =
      int32 (product * (loop.map fun e => size e.destinationBlock).prod) := by
  induction loop generalizing product with
  | nil => simp
  | cons e loop ih =>
    rw [List.foldl_cons, hpart, int32_mul, ih, List.map_cons, List.prod_cons, Int.natCast_mul, Int.mul_assoc]

/-- A product around the loop is right up to multiples of `2 ^ 32`. -/
theorem cumulative_eq (part : Block ι ω → Int) (size : Block ι ω → Nat) (hpart : ∀ b, part b = int32 (size b)) :
    cumulative part loop = int32 (loop.map fun e => size e.destinationBlock).prod := by
  have h := foldl_int32 part size hpart loop 1
  rwa [Int.one_mul] at h

theorem cumulative_eq_iff :
    cumulative Block.numerator loop = cumulative Block.denominator loop ↔
      inputRate loop % 2 ^ 32 = outputRate loop % 2 ^ 32 := by
  rw [cumulative_eq Block.numerator Block.inputChunkSize fun _ => rfl,
    cumulative_eq Block.denominator Block.outputChunkSize fun _ => rfl]
  exact int32_eq_iff ..

/-! ### Demands -/

theorem le_sourceNeeds_iff {b : Block ι ω} : r ≤ sourceNeeds b 1 ↔ r ≤ 1 ∨ ∃ d ∈ sourceDemands b, r ≤ d := by
  simp only [sourceNeeds, sourceDemands, Nat.one_mul, List.mem_cons, List.not_mem_nil, or_false, exists_eq_or_imp,
    exists_eq_left]
  split
  · rw [le_max_iff, le_max_iff, or_assoc]
  · rw [le_max_iff]
    omega

theorem le_foldl_iff (needed : Nat) : r ≤ loop.foldl destinationNeeds needed ↔
    r ≤ needed ∨ ∃ d ∈ loop.flatMap fun e => [minSamplesRead e, chunkRead e, e.destinationBlock.stride], r ≤ d := by
  induction loop generalizing needed with
  | nil => simp
  | cons e loop ih =>
    rw [List.foldl_cons, ih, destinationNeeds]
    simp only [le_max_iff, List.flatMap_cons, List.mem_append, or_and_right, exists_or]
    simp [or_assoc]

theorem calculateLoopPrimingSize_eq_none_iff :
    calculateLoopPrimingSize loop = none ↔ inputRate loop % 2 ^ 32 ≠ outputRate loop % 2 ^ 32 := by
  rw [Ne, ← cumulative_eq_iff]
  cases loop with
  | nil => simp [calculateLoopPrimingSize, cumulative]
  | cons e loop => simp [calculateLoopPrimingSize]

/-- The count is the largest demand that is read. -/
theorem le_calculateLoopPrimingSize_iff (hne : loop ≠ []) (hn : calculateLoopPrimingSize loop = some n) :
    r ≤ n ↔ ∃ d ∈ demands loop, r ≤ d := by
  cases loop with
  | nil => exact absurd rfl hne
  | cons first rest =>
    obtain ⟨-, hn⟩ := Option.ite_none_left_eq_some.mp hn
    rw [← Option.some.inj hn, le_foldl_iff, le_sourceNeeds_iff]
    simp only [demands, List.head?_cons, Option.elim_some, List.cons_append, List.mem_cons, List.mem_append,
      or_and_right, exists_or, exists_eq_left, or_assoc]

theorem int32_of_lt {m : Nat} (h : m < 2 ^ 31) : int32 m = m := by
  unfold int32
  refine Int.bmod_eq_of_le_mul_two ?_ ?_ <;> omega

theorem chunkRead_of_lt {e : Edge ι ω} (hsized : e.destinationBlock.Sized) (hlt : e.destinationBlock.inputChunkSize < 2 ^ 31) :
    chunkRead e = e.destinationBlock.inputChunkSize := by
  obtain ⟨⟨hpos, -⟩, -⟩ := hsized
  rw [chunkRead, Block.numerator, int32_of_lt hlt, if_pos (Int.natCast_pos.mpr hpos), sizeOfInt32]
  omega

/-- Exactly these loops are checked and primed as their blocks ask. -/
theorem primedExactly_iff {loop : List (Edge InputPort ω)}
    (hsized : ∀ e ∈ loop, e.destinationBlock.Sized ∧ e.destinationBlock.Cached) :
    PrimedExactly loop ↔ RatesSeen loop ∧ (inputRate loop = outputRate loop → Covered loop) := by
  have hrefused : (calculateLoopPrimingSize loop = none ↔ inputRate loop ≠ outputRate loop) ↔ RatesSeen loop := by
    rw [calculateLoopPrimingSize_eq_none_iff, not_iff_not, RatesSeen]
    exact ⟨fun h => h.mp, fun h => ⟨h, fun heq => by rw [heq]⟩⟩
  rw [PrimedExactly, hrefused]
  refine and_congr_right fun hseen => ?_
  have hprimed : calculateLoopPrimingSize loop = none ↔ inputRate loop ≠ outputRate loop := hrefused.mpr hseen
  constructor
  · intro henough heq e he r hmissed
    obtain ⟨n, hn⟩ := Option.ne_none_iff_exists'.mp fun h => hprimed.mp h heq
    rw [← le_calculateLoopPrimingSize_iff (List.ne_nil_of_mem he) hn]
    refine henough n hn e he r ?_
    rcases hmissed with ⟨hr, -⟩ | ⟨p, hp, hr, -⟩
    · exact .inl hr
    · exact .inr (.inr ⟨p, hp, hr⟩)
  · intro hcovered n hn e he r hr
    have heq : inputRate loop = outputRate loop := by
      by_contra hne
      rw [hprimed.mpr hne] at hn
      cases hn
    rw [le_calculateLoopPrimingSize_iff (List.ne_nil_of_mem he) hn]
    have hread : ∀ d ∈ [minSamplesRead e, chunkRead e, e.destinationBlock.stride], d ∈ demands loop := fun d hd =>
      List.mem_append_right _ (List.mem_flatMap.mpr ⟨e, he, hd⟩)
    rcases hr with rfl | rfl | ⟨p, hp, rfl⟩
    · by_cases hlt : e.destinationBlock.inputChunkSize < 2 ^ 31
      · exact ⟨_, hread (chunkRead e) (by simp), Nat.le_of_eq (chunkRead_of_lt (hsized e he).1 hlt).symm⟩
      · exact hcovered heq e he _ (.inl ⟨rfl, Nat.le_of_not_lt hlt⟩)
    · exact ⟨_, hread _ (by simp), Nat.le_refl _⟩
    · by_cases hlt : minSamplesRead e < p.minSamples
      · exact hcovered heq e he _ (.inr ⟨p, hp, rfl, hlt⟩)
      · exact ⟨_, hread (minSamplesRead e) (by simp), Nat.le_of_not_lt hlt⟩

/-! ### Loops -/

/-- A block whose inputs are stream ports. -/
def blockOf (uniqueName : Nat) (entry : PortOrCollection InputPort) (inputChunkSize outputChunkSize : Nat) :
    Block InputPort Unit where
  uniqueName := uniqueName
  inputs := [entry]
  outputs := [.port "out" ()]
  streamInputs := entry.ports
  inputChunkSize := inputChunkSize
  outputChunkSize := outputChunkSize
  stride := 0
  minSamples := entry.ports.map InputPort.constraint
  isBlocking := false

def loopEdge (number : Nat) (source destination : Block InputPort Unit) (port : PortDefinition) : Edge InputPort Unit :=
  ⟨number, source, .index 0 none, destination, port, none⟩

/-- Two blocks that publish two samples for each that they read, in chunks of `2 ^ 16`. -/
def growing : List (Edge InputPort Unit) :=
  let block (name : Nat) := blockOf name (.port "in" ⟨name, true, false, true, 1⟩) (2 ^ 16) (2 ^ 17)
  [loopEdge 0 (block 0) (block 1) (.index 0 none), loopEdge 1 (block 1) (block 0) (.index 0 none)]

theorem growing_not_primedExactly : ¬ PrimedExactly growing := fun h =>
  absurd (((primedExactly_iff (by decide)).mp h).1 (by decide)) (by decide)

/-- A block that reads the second port of a collection, which asks for more samples than the first. -/
def collected : List (Edge InputPort Unit) :=
  let block := blockOf 0 (.collection "in" [⟨0, true, false, true, 1⟩, ⟨1, true, false, true, 64⟩]) 1 1
  [loopEdge 0 block block (.index 0 (some 1))]

/-- The rate of a loop grows by four and is accepted; a loop that is stable gets one sample where a port asks for 64. -/
theorem accepted_and_short : ¬ (∀ loop : List (Edge InputPort Unit),
      (∀ e ∈ loop, e.destinationBlock.Sized ∧ e.destinationBlock.Cached) →
      (calculateLoopPrimingSize loop = none ↔ inputRate loop ≠ outputRate loop)) ∧
    ¬ ∀ loop : List (Edge InputPort Unit), (∀ e ∈ loop, e.destinationBlock.Sized ∧ e.destinationBlock.Cached) →
      ∀ n, calculateLoopPrimingSize loop = some n → ∀ e ∈ loop, ∀ r, Requires e r → r ≤ n := by
  constructor
  · intro h
    exact absurd ((h growing (by decide)).mpr (by decide)) (by decide)
  · intro h
    have hshort := h collected (by decide) 1 (by decide) _ (.head _) 64
      (.inr (.inr ⟨⟨1, true, false, true, 64⟩, by decide, rfl⟩))
    exact absurd hshort (by decide)

end GnuRadio.Graph
