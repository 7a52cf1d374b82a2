import Mathlib.Order.Bounds.Basic
import Mathlib.Order.Nat
import Mathlib.Data.List.Nodup
import Mathlib.Algebra.Order.BigOperators.Group.List
import Mathlib.Algebra.Order.Group.Nat
import Mathlib.Algebra.Ring.Nat

/-! Layerings of a directed multigraph. A depth-first walk finds arcs that close a cycle with the others, and relaxations
    over the others raise each vertex to the length of the longest path to it. -/

namespace Layering

open Function

variable {ι ε : Type}

/-- The ends of a path of so many arcs. -/
inductive Path (arc : ι → ι → Prop) : Nat → ι → ι → Prop
  | nil (v : ι) : Path arc 0 v v
  | snoc {k : Nat} {u v w : ι} : Path arc k u v → arc v w → Path arc (k + 1) u w

variable {arc arc' : ι → ι → Prop} {k : Nat} {u v w : ι} {l : List ι}

theorem Path.of_transGen (h : Relation.TransGen arc u v) : ∃ k, Path arc (k + 1) u v := by
  induction h with
  | single h => exact ⟨0, .snoc (.nil _) h⟩
  | tail _ h ih =>
    obtain ⟨k, hk⟩ := ih
    exact ⟨k + 1, hk.snoc h⟩

theorem Path.head (h : Path arc (k + 1) u v) : ∃ w, arc u w := by
  induction k generalizing v with
  | zero =>
    obtain _ | ⟨⟨⟩, h⟩ := h
    exact ⟨_, h⟩
  | succ k ih =>
    obtain _ | ⟨h, -⟩ := h
    exact ih h

/-! ### Orders of the vertices -/

/-- No vertex is listed twice, and the arcs of a listed vertex lead to ones listed behind it. -/
inductive Ordered (arc : ι → ι → Prop) : List ι → Prop
  | nil : Ordered arc []
  | cons {v : ι} {l : List ι} : v ∉ l → (∀ w, arc v w → w ∈ l) → Ordered arc l → Ordered arc (v :: l)

theorem Ordered.of_kept (h : Ordered arc l) (hsub : ∀ v ∈ l, ∀ w, arc' v w → arc v w) : Ordered arc' l := by
  induction h with
  | nil => exact .nil
  | cons hv hl _ ih =>
    exact .cons hv (fun w hw => hl w (hsub _ (.head _) w hw)) (ih fun u hu => hsub u (.tail _ hu))

theorem Ordered.behind {before after : List ι} (h : Ordered arc (before ++ v :: after)) (ha : arc v w) : w ∈ after := by
  induction before with
  | nil =>
    cases h with
    | cons _ hl _ => exact hl w ha
  | cons u before ih =>
    cases h with
    | cons _ _ h => exact ih h

/-- A path goes down the list. -/
theorem Ordered.path (h : Ordered arc l) (hu : u ∈ l) (hp : Path arc k u v) :
    ∃ before after, l = before ++ v :: after ∧ k ≤ before.length ∧ (k ≠ 0 → u ∈ before) := by
  induction hp with
  | nil v =>
    obtain ⟨before, after, rfl⟩ := List.append_of_mem hu
    exact ⟨before, after, rfl, Nat.zero_le _, fun h => absurd rfl h⟩
  | @snoc k u v w hv ha ih =>
    obtain ⟨before, after, rfl, hk, hbefore⟩ := ih hu
    obtain ⟨between, rest, rfl⟩ := List.append_of_mem (h.behind ha)
    refine ⟨before ++ v :: between, rest, by simp, by simp; omega, fun _ => ?_⟩
    by_cases hk0 : k = 0
    · subst hk0
      cases hv
      simp
    · exact List.mem_append_left _ (hbefore hk0)

theorem Ordered.nodup (h : Ordered arc l) : l.Nodup := by
  induction h with
  | nil => exact .nil
  | cons hv _ _ ih => exact List.nodup_cons.mpr ⟨hv, ih⟩

theorem Ordered.path_lt (h : Ordered arc l) (hu : u ∈ l) (hp : Path arc k u v) : k < l.length := by
  obtain ⟨before, after, rfl, hk, -⟩ := h.path hu hp
  simp
  omega

theorem Ordered.acyclic (h : Ordered arc l) (hu : u ∈ l) : ¬ Relation.TransGen arc u u := by
  intro ht
  obtain ⟨k, hp⟩ := Path.of_transGen ht
  obtain ⟨before, after, rfl, -, hbefore⟩ := h.path hu hp
  exact (List.nodup_append.mp h.nodup).2.2 u (hbefore (Nat.succ_ne_zero k)) u (.head _) rfl

/-! ### The depth-first walk -/

inductive Visit
  | notReached
  | onTheWalk
  | leftBehind
  deriving DecidableEq, Repr

/-- The vertices under way, the last one first, each with the number of its outgoing arcs that have been taken. -/
structure Walk (ι ε : Type) where
  closesCycle : ε → Bool
  state : ι → Visit
  walk : List (ι × Nat)

section
variable [DecidableEq ι] [DecidableEq ε] (outgoing : ι → List ε) (target : ε → ι)

/-- The body of the loop over one walk. -/
def Walk.advance (s : Walk ι ε) : Walk ι ε :=
  match s.walk with
  | [] => s
  | (node, taken) :: rest =>
    match (outgoing node)[taken]? with
    | none => { s with state := update s.state node .leftBehind, walk := rest }
    | some edge =>
      let next := target edge
      match s.state next with
      | .onTheWalk =>
        { s with closesCycle := update s.closesCycle edge true, walk := (node, taken + 1) :: rest }
      | .notReached =>
        { s with
          state := update s.state next .onTheWalk, walk := (next, 0) :: (node, taken + 1) :: rest }
      | .leftBehind => { s with walk := (node, taken + 1) :: rest }

/-- The loop with fuel. -/
def Walk.finish : Nat → Walk ι ε → Option (Walk ι ε)
  | 0, s => if s.walk = [] then some s else none
  | fuel + 1, s => if s.walk = [] then some s else Walk.finish fuel (s.advance outgoing target)

def Walk.begin (start : ι) (s : Walk ι ε) : Walk ι ε :=
  { s with state := update s.state start .onTheWalk, walk := [(start, 0)] }

def Walk.visit (fuel : Nat) (s : Walk ι ε) (start : ι) : Option (Walk ι ε) :=
  if s.state start = .notReached then Walk.finish outgoing target fuel (s.begin start) else some s

/-- A walk from each of the vertices, with fuel enough. -/
def closesCycle (vertices : List ι) : Option (ε → Bool) :=
  let fuel := (vertices.map fun v => (outgoing v).length + 1).sum
  (vertices.foldlM (Walk.visit outgoing target fuel) ⟨fun _ => false, fun _ => .notReached, []⟩).map (·.closesCycle)

end

/-- An arc that does not close a cycle. -/
def Kept (outgoing : ι → List ε) (target : ε → ι) (closes : ε → Bool) (v w : ι) : Prop :=
  ∃ e ∈ outgoing v, closes e = false ∧ target e = w

/-- `e` is an arc of `v` that the walk has taken. -/
def Walk.Taken (outgoing : ι → List ε) (s : Walk ι ε) (v : ι) (e : ε) : Prop :=
  (s.state v = .leftBehind ∧ e ∈ outgoing v) ∨ ∃ k, (v, k) ∈ s.walk ∧ e ∈ (outgoing v).take k

/-- A taken arc that did not close a cycle. -/
def Walk.Keeps (outgoing : ι → List ε) (target : ε → ι) (s : Walk ι ε) (v w : ι) : Prop :=
  ∃ e, s.Taken outgoing v e ∧ s.closesCycle e = false ∧ target e = w

/-- What holds between two steps of the walk. -/
structure Walk.Inv (outgoing : ι → List ε) (target : ε → ι) (s : Walk ι ε) : Prop where
  nodup : (s.walk.map Prod.fst).Nodup
  onTheWalk : ∀ v, s.state v = .onTheWalk ↔ v ∈ s.walk.map Prod.fst
  ordered : ∃ l, Ordered (s.Keeps outgoing target) l ∧ ∀ v, v ∈ l ↔ s.state v = .leftBehind
  chain : s.walk.Pairwise fun upper lower => Relation.ReflTransGen (s.Keeps outgoing target) lower.1 upper.1
  targets : ∀ above v k below, s.walk = above ++ (v, k) :: below → ∀ e ∈ (outgoing v).take k, s.closesCycle e = false →
    s.state (target e) = .leftBehind ∨ target e ∈ above.map Prod.fst
  closing : ∀ e, s.closesCycle e = true →
    ∃ v, s.Taken outgoing v e ∧ Relation.ReflTransGen (s.Keeps outgoing target) (target e) v

variable {outgoing : ι → List ε} {target : ε → ι} {s t : Walk ι ε} {node : ι} {taken : Nat} {rest : List (ι × Nat)} {e : ε}

namespace Walk

/-- A later walk has taken what an earlier one has, and decides nothing anew. -/
structure After (outgoing : ι → List ε) (s t : Walk ι ε) : Prop where
  taken : ∀ v e, s.Taken outgoing v e → t.Taken outgoing v e
  closesCycle : ∀ v e, s.Taken outgoing v e → t.closesCycle e = s.closesCycle e

theorem After.keeps (h : After outgoing s t) (hk : s.Keeps outgoing target v w) : t.Keeps outgoing target v w := by
  obtain ⟨e, he, hc, rfl⟩ := hk
  exact ⟨e, h.taken v e he, (h.closesCycle v e he).trans hc, rfl⟩

theorem After.leads (h : After outgoing s t) (hr : Relation.ReflTransGen (s.Keeps outgoing target) v w) :
    Relation.ReflTransGen (t.Keeps outgoing target) v w :=
  Relation.ReflTransGen.mono (fun _ _ => h.keeps) _ _ hr

theorem After.chain (h : After outgoing s t) {walk : List (ι × Nat)}
    (hw : walk.Pairwise fun upper lower => Relation.ReflTransGen (s.Keeps outgoing target) lower.1 upper.1) :
    walk.Pairwise fun upper lower => Relation.ReflTransGen (t.Keeps outgoing target) lower.1 upper.1 :=
  hw.imp h.leads

theorem After.closing (h : After outgoing s t)
    (hs : ∃ v, s.Taken outgoing v e ∧ Relation.ReflTransGen (s.Keeps outgoing target) (target e) v) :
    ∃ v, t.Taken outgoing v e ∧ Relation.ReflTransGen (t.Keeps outgoing target) (target e) v := by
  obtain ⟨v, he, hr⟩ := hs
  exact ⟨v, h.taken v e he, h.leads hr⟩

/-- A vertex that is left behind keeps what it kept. -/
theorem After.ordered (hs : ∀ v ∈ l, s.state v = .leftBehind)
    (honly : ∀ v ∈ l, ∀ k, (v, k) ∉ t.walk) (hc : ∀ e, t.closesCycle e = false → s.closesCycle e = false)
    (h : Ordered (s.Keeps outgoing target) l) : Ordered (t.Keeps outgoing target) l := by
  refine h.of_kept fun v hv w hw => ?_
  obtain ⟨e, he | ⟨k, hk, -⟩, hce, rfl⟩ := hw
  · exact ⟨e, .inl ⟨hs v hv, he.2⟩, hc e hce, rfl⟩
  · exact absurd hk (honly v hv k)

theorem Inv.state_node (h : Inv outgoing target s) (hw : s.walk = (node, taken) :: rest) : s.state node = .onTheWalk :=
  (h.onTheWalk node).mpr (by rw [hw]; exact .head _)

theorem Inv.not_mem_rest (h : Inv outgoing target s) (hw : s.walk = (node, taken) :: rest) : node ∉ rest.map Prod.fst := by
  have hn := h.nodup
  rw [hw] at hn
  exact (List.nodup_cons.mp hn).1

/-- Whatever an arc of the last vertex leads to has an arc that was taken of it, or is on the walk. -/
theorem Inv.leads_node (h : Inv outgoing target s) (hw : s.walk = (node, taken) :: rest) (hv : s.state v = .onTheWalk) :
    Relation.ReflTransGen (s.Keeps outgoing target) v node := by
  have hv' := (h.onTheWalk v).mp hv
  have hc := h.chain
  rw [hw] at hv' hc
  obtain hv' | hv' := List.mem_cons.mp hv'
  · rw [hv']
  · obtain ⟨p, hp, rfl⟩ := List.mem_map.mp hv'
    exact (List.pairwise_cons.mp hc).1 p hp

theorem Inv.targets_node (h : Inv outgoing target s) (hw : s.walk = (node, taken) :: rest)
    (he : e ∈ (outgoing node).take taken) (hc : s.closesCycle e = false) : s.state (target e) = .leftBehind :=
  (h.targets [] node taken rest hw e he hc).resolve_right List.not_mem_nil

section
variable [DecidableEq ι]

/-- The last vertex has no arc left. -/
theorem Inv.leave (h : Inv outgoing target s) (hw : s.walk = (node, taken) :: rest)
    (hall : (outgoing node).length ≤ taken) :
    Inv outgoing target { s with state := update s.state node .leftBehind, walk := rest } := by
  set t : Walk ι ε := { s with state := update s.state node .leftBehind, walk := rest }
  have hnode := h.state_node hw
  have hrest := h.not_mem_rest hw
  have hother : ∀ v, v ≠ node → t.state v = s.state v := fun v hv => update_of_ne hv ..
  have hself : t.state node = .leftBehind := update_self ..
  have hleft : ∀ v, s.state v = .leftBehind → t.state v = .leftBehind := by
    intro v hv
    rw [hother v (by rintro rfl; rw [hnode] at hv; cases hv), hv]
  have hafter : After outgoing s t := by
    refine ⟨fun v e he => ?_, fun _ _ _ => rfl⟩
    obtain ⟨hs, he⟩ | ⟨k, hk, he⟩ := he
    · exact .inl ⟨hleft v hs, he⟩
    · rw [hw] at hk
      obtain hk | hk := List.mem_cons.mp hk
      · cases hk
        exact .inl ⟨hself, List.mem_of_mem_take he⟩
      · exact .inr ⟨k, hk, he⟩
  obtain ⟨l, hl, hmem⟩ := h.ordered
  refine ⟨?_, fun v => ?_, ⟨node :: l, .cons ?_ ?_ ?_, fun v => ?_⟩, ?_, ?_, fun e he => hafter.closing (h.closing e he)⟩
  · have hn := h.nodup
    rw [hw] at hn
    exact (List.nodup_cons.mp hn).2
  · by_cases hv : v = node
    · subst hv
      rw [hself]
      exact iff_of_false (by simp) hrest
    · rw [hother v hv, h.onTheWalk v, hw, List.map_cons, List.mem_cons, or_iff_right hv]
  · rw [hmem, hnode]
    simp
  · rintro w ⟨e, he, hc, rfl⟩
    rw [hmem]
    refine h.targets_node hw ?_ hc
    obtain ⟨-, he⟩ | ⟨k, hk, -⟩ := he
    · rwa [List.take_of_length_le hall]
    · exact absurd (List.mem_map_of_mem hk) hrest
  · refine After.ordered (fun v hv => (hmem v).mp hv) (fun v hv k hk => ?_) (fun _ he => he) hl
    have hv' := (h.onTheWalk v).mpr (by rw [hw]; exact List.mem_cons_of_mem _ (List.mem_map_of_mem hk))
    rw [(hmem v).mp hv] at hv'
    cases hv'
  · rw [List.mem_cons, hmem]
    by_cases hv : v = node
    · subst hv
      simp [hself]
    · simp [hv, hother v hv]
  · have hc := h.chain
    rw [hw] at hc
    exact hafter.chain (List.pairwise_cons.mp hc).2
  · intro above v k below habove e he hc
    obtain hl | hl := h.targets ((node, taken) :: above) v k below (by rw [hw]; exact congrArg _ habove) e he hc
    · exact .inl (hleft _ hl)
    · obtain hl | hl := List.mem_cons.mp hl
      · rw [hl]
        exact .inl hself
      · exact .inr hl

end

/-! ### An arc of the last vertex -/

section
variable (hnodup : ∀ v, (outgoing v).Nodup) (hapart : ∀ v w e, e ∈ outgoing v → e ∈ outgoing w → v = w)
include hnodup hapart

theorem Inv.not_taken (h : Inv outgoing target s) (hw : s.walk = (node, taken) :: rest)
    (he : (outgoing node)[taken]? = some e) : ¬ s.Taken outgoing v e := by
  have hmem := List.mem_of_getElem? he
  rintro (⟨hs, hv⟩ | ⟨k, hk, hv⟩)
  · rw [hapart v node e hv hmem, h.state_node hw] at hs
    cases hs
  · obtain rfl := hapart v node e (List.mem_of_mem_take hv) hmem
    rw [hw] at hk
    obtain hk | hk := List.mem_cons.mp hk
    · cases hk
      obtain ⟨i, hi, hie⟩ := List.mem_take_iff_getElem.mp hv
      obtain ⟨hlt, hte⟩ := List.getElem?_eq_some_iff.mp he
      have := (List.Nodup.getElem_inj_iff (hnodup v)).mp (hie.trans hte.symm)
      omega
    · exact h.not_mem_rest hw (List.mem_map_of_mem hk)

theorem Inv.not_closes (h : Inv outgoing target s) (hw : s.walk = (node, taken) :: rest)
    (he : (outgoing node)[taken]? = some e) : s.closesCycle e = false := by
  refine Bool.eq_false_iff.mpr fun hc => ?_
  obtain ⟨v, hv, -⟩ := h.closing e hc
  exact h.not_taken hnodup hapart hw he hv

/-- An arc is taken. It closes a cycle, or leads to a vertex that is left behind, or puts a vertex on the walk. -/
theorem Inv.take (new : List (ι × Nat)) (h : Inv outgoing target s) (hw : s.walk = (node, taken) :: rest)
    (he : (outgoing node)[taken]? = some e) (hwalk : t.walk = new ++ (node, taken + 1) :: rest)
    (hother : ∀ e', e' ≠ e → t.closesCycle e' = s.closesCycle e') (hleft : ∀ v, t.state v = .leftBehind ↔ s.state v = .leftBehind)
    (hon : ∀ v, t.state v = .onTheWalk ↔ v ∈ new.map Prod.fst ∨ s.state v = .onTheWalk)
    (hnew : new = [] ∧ (t.closesCycle e = false → s.state (target e) = .leftBehind) ∨
      new = [(target e, 0)] ∧ t.closesCycle e = false ∧ s.state (target e) = .notReached)
    (hcloses : t.closesCycle e = true → s.state (target e) = .onTheWalk) : Inv outgoing target t := by
  have htaken : t.Taken outgoing node e :=
    .inr ⟨taken + 1, by simp [hwalk], List.mem_take_iff_getElem.mpr
      ⟨taken, by have := (List.getElem?_eq_some_iff.mp he).1; omega, (List.getElem?_eq_some_iff.mp he).2⟩⟩
  have hafter : After outgoing s t := by
    refine ⟨fun v e' hv => ?_, fun v e' hv => hother e' ?_⟩
    · obtain ⟨hs, hv⟩ | ⟨k, hk, hv⟩ := hv
      · exact .inl ⟨(hleft v).mpr hs, hv⟩
      · rw [hw] at hk
        obtain hk | hk := List.mem_cons.mp hk
        · cases hk
          exact .inr ⟨taken + 1, by simp [hwalk], List.take_subset_take_left _ (Nat.le_succ _) hv⟩
        · exact .inr ⟨k, by simp [hwalk, hk], hv⟩
    · rintro rfl
      exact h.not_taken hnodup hapart hw he hv
  have hback : ∀ e', t.closesCycle e' = false → s.closesCycle e' = false := by
    intro e' hc
    by_cases hee : e' = e
    · rw [hee]
      exact h.not_closes hnodup hapart hw he
    · rwa [← hother e' hee]
  have hfst : t.walk.map Prod.fst = new.map Prod.fst ++ s.walk.map Prod.fst := by simp [hwalk, hw]
  obtain ⟨l, hl, hmem⟩ := h.ordered
  refine ⟨?_, fun v => ?_, ⟨l, ?_, fun v => (hmem v).trans (hleft v).symm⟩, ?_, ?_, fun e' hc => ?_⟩
  · rw [hfst]
    obtain ⟨rfl, -⟩ | ⟨rfl, -, hs⟩ := hnew
    · exact h.nodup
    · refine List.nodup_cons.mpr ⟨fun hm => ?_, h.nodup⟩
      rw [(h.onTheWalk _).mpr hm] at hs
      cases hs
  · rw [hon, hfst, List.mem_append, h.onTheWalk]
  · refine After.ordered (fun v hv => (hmem v).mp hv) (fun v hv k hk => ?_) hback hl
    have hv' : t.state v = .onTheWalk :=
      (hon v).mpr (by rw [h.onTheWalk, ← List.mem_append, ← hfst]; exact List.mem_map_of_mem hk)
    rw [(hleft v).mpr ((hmem v).mp hv)] at hv'
    cases hv'
  · have hc : ((node, taken + 1) :: rest).Pairwise
        fun upper lower => Relation.ReflTransGen (t.Keeps outgoing target) lower.1 upper.1 := by
      have hc := hafter.chain h.chain
      rw [hw] at hc
      exact List.pairwise_cons.mpr (List.pairwise_cons.mp hc)
    rw [hwalk]
    obtain ⟨rfl, -⟩ | ⟨rfl, hce, -⟩ := hnew
    · exact hc
    · have hstep : t.Keeps outgoing target node (target e) := ⟨e, htaken, hce, rfl⟩
      refine List.pairwise_cons.mpr ⟨fun p hp => ?_, hc⟩
      obtain rfl | hp := List.mem_cons.mp hp
      · exact .single hstep
      · exact ((List.pairwise_cons.mp hc).1 p hp).tail hstep
  · intro above v k below habove e' he' hc
    rw [hwalk] at habove
    -- the entries under the last one are as they were
    have hunder : ∀ above', rest = above' ++ (v, k) :: below →
        t.state (target e') = .leftBehind ∨ target e' ∈ node :: above'.map Prod.fst := fun above' hr =>
      (h.targets ((node, taken) :: above') v k below (by rw [hw, hr]; rfl) e' he' (hback e' hc)).imp_left (hleft _).mpr
    have hnode : (v, k) = (node, taken + 1) → t.state (target e') = .leftBehind ∨ target e' = target e ∧ new ≠ [] := by
      intro hvk
      cases hvk
      rw [List.take_add_one, he, List.mem_append] at he'
      obtain he' | he' := he'
      · exact .inl ((hleft _).mpr (h.targets_node hw he' (hback e' hc)))
      · obtain rfl := Option.some.inj (Option.mem_toList.mp he')
        obtain ⟨-, hl⟩ | ⟨rfl, -⟩ := hnew
        · exact .inl ((hleft _).mpr (hl hc))
        · exact .inr ⟨rfl, by simp⟩
    obtain ⟨rfl, -⟩ | ⟨rfl, -⟩ := hnew
    · cases above with
      | nil =>
        obtain ⟨hvk, -⟩ := List.cons.inj habove
        exact .inl ((hnode hvk.symm).resolve_right fun h => h.2 rfl)
      | cons p above' =>
        obtain ⟨rfl, hr⟩ := List.cons.inj habove
        exact hunder above' hr
    · obtain _ | ⟨p, _ | ⟨q, above'⟩⟩ := above
      · cases habove
        simp at he'
      · obtain ⟨rfl, hr⟩ := List.cons.inj habove
        obtain ⟨hvk, -⟩ := List.cons.inj hr
        exact (hnode hvk.symm).imp_right fun h => by simp [h.1]
      · obtain ⟨rfl, hr⟩ := List.cons.inj habove
        obtain ⟨rfl, hrest⟩ := List.cons.inj hr
        exact (hunder above' hrest).imp_right (.tail _)
  · by_cases hee : e' = e
    · subst hee
      exact ⟨node, htaken, hafter.leads (h.leads_node hw (hcloses hc))⟩
    · exact hafter.closing (h.closing e' (by rwa [← hother e' hee]))

variable [DecidableEq ι] [DecidableEq ε]

theorem Inv.advance (h : Inv outgoing target s) : Inv outgoing target (s.advance outgoing target) := by
  unfold Walk.advance
  split
  · exact h
  · rename_i node taken rest hw
    split
    · rename_i hnone
      exact h.leave hw (List.getElem?_eq_none_iff.mp hnone)
    · rename_i e he
      have hce := h.not_closes hnodup hapart hw he
      dsimp only
      split
      · rename_i hs
        exact h.take hnodup hapart [] hw he rfl (fun e' hee => update_of_ne hee ..) (fun _ => .rfl)
          (fun v => by simp) (.inl ⟨rfl, fun hc => by simp at hc⟩) fun _ => hs
      · rename_i hs
        refine h.take hnodup hapart [(target e, 0)] hw he rfl (fun _ _ => rfl) (fun v => ?_) (fun v => ?_)
          (.inr ⟨rfl, hce, hs⟩) fun hc => absurd hc (by simp [hce])
        · by_cases hv : v = target e
          · subst hv
            simp [hs]
          · simp [hv]
        · by_cases hv : v = target e
          · subst hv
            simp
          · simp [hv]
      · rename_i hs
        exact h.take hnodup hapart [] hw he rfl (fun _ _ => rfl) (fun _ => .rfl) (fun v => by simp)
          (.inl ⟨rfl, fun _ => hs⟩) fun hc => absurd hc (by simp [hce])

/-! ### Walks end -/

omit hnodup hapart [DecidableEq ε] in
theorem begin_inv {start : ι} (h : Inv outgoing target s) (hw : s.walk = []) (hs : s.state start = .notReached) :
    Inv outgoing target (s.begin start) := by
  have hne : ∀ v, s.state v = .leftBehind → v ≠ start := by
    rintro v hv rfl
    rw [hs] at hv
    cases hv
  have hafter : After outgoing s (s.begin start) := by
    refine ⟨fun v e he => ?_, fun _ _ _ => rfl⟩
    obtain ⟨hv, he⟩ | ⟨k, hk, -⟩ := he
    · exact .inl ⟨by simp [begin, hne v hv, hv], he⟩
    · rw [hw] at hk
      cases hk
  obtain ⟨l, hl, hmem⟩ := h.ordered
  refine ⟨by simp [begin], fun v => ?_, ⟨l, ?_, fun v => ?_⟩, by simp [begin], ?_, fun e he => hafter.closing (h.closing e he)⟩
  · have hv := h.onTheWalk v
    rw [hw] at hv
    by_cases hvs : v = start
    · simp [begin, hvs]
    · simpa [begin, hvs] using hv
  · refine After.ordered (fun v hv => (hmem v).mp hv) (fun v hv k hk => ?_) (fun _ he => he) hl
    exact hne v ((hmem v).mp hv) (Prod.mk.inj (List.mem_singleton.mp hk)).1
  · rw [hmem]
    by_cases hvs : v = start
    · simp [begin, hvs, hs]
    · simp [begin, hvs]
  · intro above v k below habove e he
    obtain _ | ⟨p, above⟩ := above
    · cases habove
      simp at he
    · simp [begin] at habove

omit hnodup hapart [DecidableEq ι] [DecidableEq ε] in
theorem sum_drop {f g : ι → Nat} {d : Nat} (hv : v ∈ l) (hle : ∀ u, f u ≤ g u) (hd : f v + d ≤ g v) :
    (l.map f).sum + d ≤ (l.map g).sum := by
  induction l with
  | nil => cases hv
  | cons u l ih =>
    have hu := hle u
    rw [List.map_cons, List.sum_cons, List.map_cons, List.sum_cons]
    obtain rfl | hv := List.mem_cons.mp hv
    · have := List.sum_le_sum fun u (_ : u ∈ l) => hle u
      omega
    · have := ih hv
      omega

/-- A bound of the steps that are left. -/
def remaining (outgoing : ι → List ε) (vertices : List ι) (s : Walk ι ε) : Nat :=
  (s.walk.map fun p => (outgoing p.1).length - p.2 + 1).sum +
    (vertices.map fun v => if s.state v = .notReached then (outgoing v).length + 1 else 0).sum

/-- The vertices that were reached. -/
def Reached (s : Walk ι ε) (v : ι) : Prop := s.state v ≠ .notReached

variable {vertices : List ι} (htarget : ∀ v, ∀ e ∈ outgoing v, target e ∈ vertices)
include htarget

omit hnodup hapart in
/-- A step leaves fewer steps, and reaches vertices of the list only. -/
theorem advance_remaining (hw : s.walk ≠ []) :
    (s.advance outgoing target).remaining outgoing vertices < s.remaining outgoing vertices ∧
      ∀ v, (s.Reached v → (s.advance outgoing target).Reached v) ∧
        ((s.advance outgoing target).Reached v → s.Reached v ∨ v ∈ vertices ∨ v ∈ s.walk.map Prod.fst) := by
  unfold advance
  split
  · exact absurd ‹_› hw
  · rename_i node taken rest hwalk
    have hlast : s.remaining outgoing vertices = (outgoing node).length - taken + 1 +
        ((rest.map fun p => (outgoing p.1).length - p.2 + 1).sum +
          (vertices.map fun v => if s.state v = .notReached then (outgoing v).length + 1 else 0).sum) := by
      rw [remaining, hwalk, List.map_cons, List.sum_cons, Nat.add_assoc]
    split
    · constructor
      · have hle := List.sum_le_sum (l := vertices) (f := fun v =>
          if update s.state node .leftBehind v = .notReached then (outgoing v).length + 1 else 0)
          (g := fun v => if s.state v = .notReached then (outgoing v).length + 1 else 0) fun v _ => by
            by_cases hv : v = node <;> simp [hv]
        rw [hlast, remaining]
        dsimp only
        omega
      · intro v
        by_cases hv : v = node
        · simp [Reached, hv, hwalk]
        · simp only [Reached, update_of_ne hv]
          exact ⟨id, .inl⟩
    · rename_i e he
      have hlt := (List.getElem?_eq_some_iff.mp he).1
      have hmem := htarget node e (List.mem_of_getElem? he)
      dsimp only
      split
      · refine ⟨?_, fun v => ⟨id, .inl⟩⟩
        rw [hlast, remaining, List.map_cons, List.sum_cons]
        dsimp only
        omega
      · rename_i hs
        constructor
        · have hle := sum_drop (f := fun v =>
            if update s.state (target e) .onTheWalk v = .notReached then (outgoing v).length + 1 else 0)
            (g := fun v => if s.state v = .notReached then (outgoing v).length + 1 else 0)
            (d := (outgoing (target e)).length + 1) hmem
            (fun v => by by_cases hv : v = target e <;> simp [hv]) (by simp [hs])
          rw [hlast, remaining, List.map_cons, List.sum_cons, List.map_cons, List.sum_cons]
          dsimp only
          omega
        · intro v
          by_cases hv : v = target e
          · simp [Reached, hv, hmem]
          · simp only [Reached, update_of_ne hv]
            exact ⟨id, .inl⟩
      · refine ⟨?_, fun v => ⟨id, .inl⟩⟩
        rw [hlast, remaining, List.map_cons, List.sum_cons]
        dsimp only
        omega

/-- What holds when no walk is under way. -/
structure Between (outgoing : ι → List ε) (target : ε → ι) (vertices : List ι) (s : Walk ι ε) : Prop where
  inv : Inv outgoing target s
  within : ∀ v, s.Reached v → v ∈ vertices
  ended : s.walk = []

theorem finish_between (fuel : Nat) (h : Inv outgoing target s) (hwithin : ∀ v, s.Reached v → v ∈ vertices)
    (hfuel : s.remaining outgoing vertices ≤ fuel) :
    ∃ t, finish outgoing target fuel s = some t ∧ Between outgoing target vertices t ∧ ∀ v, s.Reached v → t.Reached v := by
  induction fuel generalizing s with
  | zero =>
    by_cases hw : s.walk = []
    · exact ⟨s, by rw [finish, if_pos hw], ⟨h, hwithin, hw⟩, fun _ => id⟩
    · have := (advance_remaining htarget hw).1
      omega
  | succ fuel ih =>
    by_cases hw : s.walk = []
    · exact ⟨s, by rw [finish, if_pos hw], ⟨h, hwithin, hw⟩, fun _ => id⟩
    · obtain ⟨hlt, hreached⟩ := advance_remaining htarget hw
      obtain ⟨t, ht, hbetween, hmono⟩ := ih (h.advance hnodup hapart)
        (fun v hv => ((hreached v).2 hv).elim (hwithin v) fun hv => hv.elim id fun hv =>
          hwithin v (by rw [Reached, (h.onTheWalk v).mpr hv]; simp)) (by omega)
      exact ⟨t, by rw [finish, if_neg hw, ht], hbetween, fun v hv => hmono v ((hreached v).1 hv)⟩

theorem visit_between {start : ι} (hstart : start ∈ vertices) (h : Between outgoing target vertices s) :
    ∃ t, visit outgoing target (vertices.map fun v => (outgoing v).length + 1).sum s start = some t ∧
      Between outgoing target vertices t ∧ (∀ v, s.Reached v → t.Reached v) ∧ t.Reached start := by
  unfold visit
  by_cases hs : s.state start = .notReached
  · rw [if_pos hs]
    have hbegin : ∀ v, (s.begin start).Reached v ↔ v = start ∨ s.Reached v := by
      intro v
      by_cases hv : v = start <;> simp [Reached, begin, hv]
    have hfuel : (s.begin start).remaining outgoing vertices ≤ (vertices.map fun v => (outgoing v).length + 1).sum := by
      have hle := sum_drop (f := fun v => if (s.begin start).state v = .notReached then (outgoing v).length + 1 else 0)
        (g := fun v => (outgoing v).length + 1) (d := (outgoing start).length + 1) hstart
        (fun v => by split <;> omega) (by simp [begin])
      have hwalk : (s.begin start).walk = [(start, 0)] := rfl
      rw [remaining, hwalk]
      simp only [List.map_cons, List.map_nil, List.sum_cons, List.sum_nil]
      omega
    obtain ⟨t, ht, hbetween, hmono⟩ := finish_between hnodup hapart htarget _ (begin_inv h.inv h.ended hs)
      (fun v hv => ((hbegin v).mp hv).elim (fun hv => hv ▸ hstart) (h.within v)) hfuel
    exact ⟨t, ht, hbetween, fun v hv => hmono v ((hbegin v).mpr (.inr hv)), hmono start ((hbegin start).mpr (.inl rfl))⟩
  · rw [if_neg hs]
    exact ⟨s, rfl, h, fun _ => id, hs⟩

theorem visits_between {starts : List ι} (hsub : ∀ v ∈ starts, v ∈ vertices) (h : Between outgoing target vertices s) :
    ∃ t, starts.foldlM (visit outgoing target (vertices.map fun v => (outgoing v).length + 1).sum) s = some t ∧
      Between outgoing target vertices t ∧ (∀ v, s.Reached v → t.Reached v) ∧ ∀ v ∈ starts, t.Reached v := by
  induction starts generalizing s with
  | nil => exact ⟨s, rfl, h, fun _ => id, nofun⟩
  | cons start starts ih =>
    obtain ⟨t, ht, hbetween, hmono, hstart⟩ := visit_between hnodup hapart htarget (hsub start (.head _)) h
    obtain ⟨t', ht', hbetween', hmono', hall⟩ := ih (fun v hv => hsub v (.tail _ hv)) hbetween
    refine ⟨t', by rw [List.foldlM_cons, ht]; exact ht', hbetween', fun v hv => hmono' v (hmono v hv), fun v hv => ?_⟩
    obtain rfl | hv := List.mem_cons.mp hv
    · exact hmono' v hstart
    · exact hall v hv

end

end Walk

/-- The walks end. Each arc that they set aside closes a cycle with arcs that are kept, and the kept arcs have an order. -/
theorem closesCycle_spec [DecidableEq ι] [DecidableEq ε] {vertices : List ι} (hnodup : ∀ v, (outgoing v).Nodup)
    (hapart : ∀ v w e, e ∈ outgoing v → e ∈ outgoing w → v = w) (hsource : ∀ v, ∀ e ∈ outgoing v, v ∈ vertices)
    (htarget : ∀ v, ∀ e ∈ outgoing v, target e ∈ vertices) :
    ∃ closes, closesCycle outgoing target vertices = some closes ∧
      (∀ v, ∀ e ∈ outgoing v, closes e = true → Relation.ReflTransGen (Kept outgoing target closes) (target e) v) ∧
      ∃ l, Ordered (Kept outgoing target closes) l ∧ ∀ v, v ∈ l ↔ v ∈ vertices := by
  obtain ⟨t, ht, ⟨hinv, hwithin, hended⟩, -, hall⟩ :=
    Walk.visits_between (s := ⟨fun _ => false, fun _ => .notReached, []⟩) hnodup hapart htarget (fun _ => id)
      ⟨⟨.nil, fun v => by simp, ⟨[], .nil, fun v => by simp⟩, .nil, fun above _ _ _ h => by simp at h, fun _ h => by simp at h⟩,
        fun v hv => absurd rfl hv, rfl⟩
  have hleft : ∀ v ∈ vertices, t.state v = .leftBehind := by
    intro v hv
    have hnot := hall v hv
    have hon := hinv.onTheWalk v
    rw [hended] at hon
    cases hs : t.state v with
    | notReached => exact absurd hs hnot
    | onTheWalk => cases hon.mp hs
    | leftBehind => rfl
  have htaken : ∀ v e, t.Taken outgoing v e ↔ e ∈ outgoing v := by
    refine fun v e => ⟨?_, fun he => .inl ⟨hleft v (hsource v e he), he⟩⟩
    rintro (⟨-, he⟩ | ⟨k, -, he⟩)
    · exact he
    · exact List.mem_of_mem_take he
  have hkept : t.Keeps outgoing target = Kept outgoing target t.closesCycle := by
    funext v w
    simp only [Walk.Keeps, Kept, htaken]
  obtain ⟨l, hl, hmem⟩ := hinv.ordered
  refine ⟨t.closesCycle, by rw [closesCycle, ht]; rfl, fun v e he hc => ?_, l, hkept ▸ hl, fun v => ?_⟩
  · obtain ⟨w, hw, hr⟩ := hinv.closing e hc
    rw [hapart v w e he ((htaken w e).mp hw), ← hkept]
    exact hr
  · rw [hmem]
    exact ⟨fun h => hwithin v (by rw [Walk.Reached, h]; simp), hleft v⟩

/-! ### Ranks -/

section
variable [DecidableEq ι]

/-- Raises the end of one arc above its start. The flag says whether a rank moved. -/
def relax (s : (ι → Nat) × Bool) (e : ι × ι) : (ι → Nat) × Bool :=
  if s.1 e.1 + 1 > s.1 e.2 then (update s.1 e.2 (s.1 e.1 + 1), true) else s

/-- So many passes over the arcs, or up to one in which no rank moves. -/
def passes (arcs : List (ι × ι)) : Nat → (ι → Nat) → ι → Nat
  | 0, rank => rank
  | n + 1, rank =>
    let pass := arcs.foldl relax (rank, false)
    if pass.2 then passes arcs n pass.1 else pass.1

variable {arcs : List (ι × ι)} {rank : ι → Nat} {moved : Bool}

theorem le_relax (s : (ι → Nat) × Bool) (e : ι × ι) (v : ι) : s.1 v ≤ (relax s e).1 v := by
  unfold relax
  split
  · by_cases hv : v = e.2
    · subst hv
      simp
      omega
    · simp [hv]
  · exact le_rfl

theorem lt_relax (s : (ι → Nat) × Bool) (e : ι × ι) : s.1 e.1 < (relax s e).1 e.2 := by
  unfold relax
  split
  · simp
  · omega

theorem le_pass (arcs : List (ι × ι)) (s : (ι → Nat) × Bool) (v : ι) : s.1 v ≤ (arcs.foldl relax s).1 v := by
  induction arcs generalizing s with
  | nil => exact le_rfl
  | cons e arcs ih => exact (le_relax s e v).trans (ih _)

theorem lt_pass {e : ι × ι} (he : e ∈ arcs) (s : (ι → Nat) × Bool) : s.1 e.1 < (arcs.foldl relax s).1 e.2 := by
  induction arcs generalizing s with
  | nil => cases he
  | cons d arcs ih =>
    obtain rfl | he := List.mem_cons.mp he
    · exact (lt_relax s e).trans_le (le_pass arcs _ _)
    · exact (le_relax s d e.1).trans_lt (ih he _)

theorem pass_moved (arcs : List (ι × ι)) (rank : ι → Nat) : (arcs.foldl relax (rank, true)).2 = true := by
  induction arcs generalizing rank with
  | nil => rfl
  | cons e arcs ih =>
    rw [List.foldl_cons, relax]
    split
    · exact ih _
    · exact ih rank

theorem pass_unmoved (h : (arcs.foldl relax (rank, false)).2 = false) : (arcs.foldl relax (rank, false)).1 = rank := by
  induction arcs with
  | nil => rfl
  | cons e arcs ih =>
    rw [List.foldl_cons, relax] at h ⊢
    split at h
    · rw [pass_moved] at h
      cases h
    · rename_i hle
      rw [if_neg hle]
      exact ih h

variable (harc : ∀ u v, arc u v ↔ (u, v) ∈ arcs)
include harc

/-- Each rank is the length of a path. -/
theorem pass_path {s : (ι → Nat) × Bool} {some : List (ι × ι)} (hsub : some ⊆ arcs) (h : ∀ v, ∃ u, Path arc (s.1 v) u v) (v : ι) :
    ∃ u, Path arc ((some.foldl relax s).1 v) u v := by
  induction some generalizing s with
  | nil => exact h v
  | cons e some ih =>
    refine ih (fun _ hd => hsub (.tail _ hd)) fun w => ?_
    unfold relax
    split
    · by_cases hw : w = e.2
      · subst hw
        obtain ⟨u, hu⟩ := h e.1
        exact ⟨u, by simpa using hu.snoc ((harc _ _).mpr (hsub (.head _)))⟩
      · simpa [hw] using h w
    · exact h w

theorem path_of_passes (n : Nat) (h : ∀ v, ∃ u, Path arc (rank v) u v) (v : ι) :
    ∃ u, Path arc (passes arcs n rank v) u v := by
  induction n generalizing rank with
  | zero => exact h v
  | succ n ih =>
    have hpass := pass_path (s := (rank, false)) harc (List.Subset.refl arcs) h
    rw [passes]
    split
    · exact ih hpass
    · exact hpass v

omit [DecidableEq ι] in
theorem le_of_rising (h : ∀ e ∈ arcs, rank e.1 < rank e.2) (hp : Path arc k u v) : k ≤ rank v := by
  induction hp with
  | nil => exact Nat.zero_le _
  | snoc _ ha ih => exact ih.trans_lt (h _ ((harc _ _).mp ha))

/-- After `j` passes the paths of up to `j` arcs are covered. -/
theorem passes_covers (n j : Nat) (hbound : ∀ k u v, Path arc k u v → k ≤ j + n)
    (h : ∀ k u v, Path arc k u v → k ≤ j → k ≤ rank v) (hp : Path arc k u v) : k ≤ passes arcs n rank v := by
  induction n generalizing rank j with
  | zero => exact h k u v hp (hbound k u v hp)
  | succ n ih =>
    rw [passes]
    split
    · refine ih (j + 1) (fun k u v hp => by have := hbound k u v hp; omega) fun k u v hp hk => ?_
      cases hp with
      | nil => exact Nat.zero_le _
      | snoc hp ha =>
        exact (h _ _ _ hp (by omega)).trans_lt (lt_pass (e := (_, v)) ((harc _ _).mp ha) (rank, false))
    · rename_i hm
      have hstill := pass_unmoved (Bool.eq_false_iff.mpr hm)
      rw [hstill]
      refine le_of_rising harc (fun e he => ?_) hp
      have hlt := lt_pass he (rank, false)
      rwa [hstill] at hlt

/-- When no path is longer than the number of passes, the ranks are the lengths of the longest paths. -/
theorem passes_isGreatest {n : Nat} (hbound : ∀ k u v, Path arc k u v → k ≤ n) (v : ι) :
    IsGreatest {k | ∃ u, Path arc k u v} (passes arcs n (fun _ => 0) v) := by
  refine ⟨path_of_passes harc n (fun v => ⟨v, .nil v⟩) v, ?_⟩
  rintro k ⟨u, hp⟩
  exact passes_covers harc n 0 (by simpa using hbound) (fun k u v _ hk => by omega) hp

end

end Layering
