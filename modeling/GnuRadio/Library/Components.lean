import Mathlib.Data.List.Nodup
import Mathlib.Data.List.Perm.Subperm

/-! The connected components of a finite graph whose adjacency lists are symmetric: a breadth-first search from each
    vertex that has no label yet gives its label to the vertices that it comes to. -/

namespace Components

open Function

universe u

variable {V : Type u} [DecidableEq V]

/-- Gives an unlabelled neighbour of `v` the label of `v`, and puts it into the queue. -/
def mark (v : V) (s : (V → Option Nat) × List V) (w : V) : (V → Option Nat) × List V :=
  if s.1 w = none then (update s.1 w (s.1 v), s.2 ++ [w]) else s

/-- The labels and the component when the queue is empty, or the fuel is used up. -/
def search (adjacent : V → List V) :
    Nat → (V → Option Nat) → List V → List V → (V → Option Nat) × List V
  | 0, label, _, component => (label, component)
  | _ + 1, label, [], component => (label, component)
  | fuel + 1, label, v :: queue, component =>
    let marked := (adjacent v).foldl (mark v) (label, queue)
    search adjacent fuel marked.1 marked.2 (component ++ [v])

structure Labelled (V : Type u) where
  label : V → Option Nat
  components : List (List V)

/-- What is done with one vertex after the other. `bound` is fuel enough for one search. -/
def visit (adjacent : V → List V) (bound : Nat) (s : Labelled V) (v : V) : Labelled V :=
  if s.label v = none then
    let found := search adjacent bound (update s.label v (some s.components.length)) [v] []
    ⟨found.1, s.components ++ [found.2]⟩
  else s

def labelled (adjacent : V → List V) (vertices : List V) : Labelled V :=
  vertices.foldl (visit adjacent vertices.length) ⟨fun _ => none, []⟩

/-- `w` can be reached from `v`. -/
abbrev Joined (adjacent : V → List V) (v w : V) : Prop := Relation.ReflTransGen (fun v w => w ∈ adjacent v) v w

variable {adjacent : V → List V} {vertices queue component : List V} {old label : V → Option Nat} {k : Nat}
variable {root v w : V} {s : Labelled V}

omit [DecidableEq V] in
theorem Joined.symm (hsymm : ∀ v w, w ∈ adjacent v → v ∈ adjacent w) (h : Joined adjacent v w) : Joined adjacent w v := by
  induction h with
  | refl => exact .refl
  | tail _ hstep ih => exact .head (hsymm _ _ hstep) ih

/-! ### One search -/

/-- A search from `root` under way: it has labelled the vertices that it came to, and keeps the labels of the others. -/
structure Grows (adjacent : V → List V) (old : V → Option Nat) (k : Nat) (root : V) (label : V → Option Nat)
    (queue component : List V) : Prop where
  kept : ∀ v, v ∉ component ++ queue → label v = old v
  marked : ∀ v ∈ component ++ queue, old v = none ∧ label v = some k
  nodup : (component ++ queue).Nodup
  joined : ∀ v ∈ component ++ queue, Joined adjacent root v
  root : root ∈ component ++ queue

theorem mark_fresh (h : label w = none) :
    mark v (label, queue) w = (update label w (label v), queue ++ [w]) := if_pos h

theorem mark_labelled (h : label w ≠ none) : mark v (label, queue) w = (label, queue) := if_neg h

/-- Where `v` is labelled, no label gets lost, and the neighbour has one. -/
theorem label_mark_ne_none (hv : label v ≠ none) {u : V} (h : w = u ∨ label w ≠ none) :
    (mark v (label, queue) u).1 w ≠ none := by
  by_cases hu : label u = none
  · rw [mark_fresh hu]
    obtain rfl | hne := eq_or_ne w u
    · simpa using hv
    · simpa [hne] using h.resolve_left hne
  · rw [mark_labelled hu]
    rcases h with rfl | h
    · exact hu
    · exact h

theorem Grows.mark (h : Grows adjacent old k root label queue component) (hv : v ∈ component) (hw : w ∈ adjacent v) :
    Grows adjacent old k root (mark v (label, queue) w).1 (mark v (label, queue) w).2 component := by
  have hv := List.mem_append_left queue hv
  by_cases hnone : label w = none
  · rw [mark_fresh hnone]
    have hfresh : w ∉ component ++ queue := fun hm => by simp [(h.marked w hm).2] at hnone
    have hsome (x : V) (hx : x ∈ component ++ queue) : x ≠ w := fun he => hfresh (he ▸ hx)
    change Grows adjacent old k root (update label w (label v)) (queue ++ [w]) component
    refine ⟨fun x hx => ?_, fun x hx => ?_, ?_, fun x hx => ?_, ?_⟩ <;> rw [← List.append_assoc] at *
    · rw [List.mem_append, List.mem_singleton, not_or] at hx
      rw [update_of_ne hx.2]
      exact h.kept x hx.1
    · rcases List.mem_append.mp hx with hx | hx
      · rw [update_of_ne (hsome x hx)]
        exact h.marked x hx
      · obtain rfl := List.mem_singleton.mp hx
        rw [update_self]
        exact ⟨(h.kept x hfresh).symm.trans hnone, (h.marked v hv).2⟩
    · exact h.nodup.append (List.nodup_singleton w) (List.disjoint_singleton.mpr hfresh)
    · rcases List.mem_append.mp hx with hx | hx
      · exact h.joined x hx
      · obtain rfl := List.mem_singleton.mp hx
        exact (h.joined v hv).tail hw
    · exact List.mem_append_left [w] h.root
  · rw [mark_labelled hnone]
    exact h

theorem Grows.marks {ws : List V} (h : Grows adjacent old k root label queue component) (hv : v ∈ component)
    (hws : ∀ w ∈ ws, w ∈ adjacent v) :
    Grows adjacent old k root (ws.foldl (Components.mark v) (label, queue)).1
        (ws.foldl (Components.mark v) (label, queue)).2 component ∧
      ∀ w, w ∈ ws ∨ label w ≠ none → (ws.foldl (Components.mark v) (label, queue)).1 w ≠ none := by
  induction ws generalizing label queue with
  | nil => exact ⟨h, fun w hw => hw.resolve_left List.not_mem_nil⟩
  | cons u ws ih =>
    have hlabel : label v ≠ none := by simp [(h.marked v (List.mem_append_left queue hv)).2]
    obtain ⟨hgrows, hkept⟩ := ih (h.mark hv (hws u (.head _))) fun w hw => hws w (List.mem_cons_of_mem u hw)
    refine ⟨hgrows, fun w hw => hkept w ?_⟩
    rcases hw with hw | hw
    · rcases List.mem_cons.mp hw with rfl | hw
      · exact .inr (label_mark_ne_none hlabel (.inl rfl))
      · exact .inl hw
    · exact .inr (label_mark_ne_none hlabel (.inr hw))

section Search

variable (hclosed : ∀ v ∈ vertices, ∀ w ∈ adjacent v, w ∈ vertices)

include hclosed

omit [DecidableEq V] in
theorem Joined.mem (h : Joined adjacent v w) (hv : v ∈ vertices) : w ∈ vertices := by
  induction h with
  | refl => exact hv
  | tail _ hstep ih => exact hclosed _ ih _ hstep

omit [DecidableEq V] in
theorem Grows.length_le (h : Grows adjacent old k root label queue component) (hroot : root ∈ vertices) :
    component.length + queue.length ≤ vertices.length := by
  rw [← List.length_append]
  exact (List.subperm_of_subset h.nodup fun v hv => (h.joined v hv).mem hclosed hroot).length_le

/-- A search ends with an empty queue: its component is closed. -/
theorem Grows.search (hroot : root ∈ vertices) {fuel : Nat} (h : Grows adjacent old k root label queue component)
    (hdone : ∀ v ∈ component, ∀ w ∈ adjacent v, label w ≠ none) (hfuel : vertices.length ≤ fuel + component.length) :
    Grows adjacent old k root (search adjacent fuel label queue component).1 []
        (search adjacent fuel label queue component).2 ∧
      ∀ v ∈ (search adjacent fuel label queue component).2, ∀ w ∈ adjacent v,
        (search adjacent fuel label queue component).1 w ≠ none := by
  induction fuel generalizing label queue component with
  | zero =>
    have hle := h.length_le hclosed hroot
    obtain rfl : queue = [] := List.length_eq_zero_iff.mp (by omega)
    exact ⟨h, hdone⟩
  | succ fuel ih =>
    cases queue with
    | nil => exact ⟨h, hdone⟩
    | cons v queue =>
      have hmoved : Grows adjacent old k root label queue (component ++ [v]) := by
        have happend : component ++ v :: queue = component ++ [v] ++ queue := by simp
        exact ⟨happend ▸ h.kept, happend ▸ h.marked, happend ▸ h.nodup, happend ▸ h.joined, happend ▸ h.root⟩
      obtain ⟨hgrows, hlabel⟩ := hmoved.marks List.mem_concat_self fun w (hw : w ∈ adjacent v) => hw
      refine ih hgrows (fun u hu w hw => hlabel w ?_) (by rw [List.length_append]; simp; omega)
      rcases List.mem_append.mp hu with hu | hu
      · exact .inr (hdone u hu w hw)
      · obtain rfl := List.mem_singleton.mp hu
        exact .inl hw

end Search

/-! ### All searches -/

/-- The components of the vertices that have a label: they are closed, and connected. -/
structure Sound (adjacent : V → List V) (vertices : List V) (s : Labelled V) : Prop where
  label : ∀ v k, s.label v = some k ↔ ∃ component, s.components[k]? = some component ∧ v ∈ component
  nodup : s.components.flatten.Nodup
  vertices : ∀ v ∈ s.components.flatten, v ∈ vertices
  closed : ∀ v k, s.label v = some k → ∀ w ∈ adjacent v, s.label w = some k
  joined : ∀ component ∈ s.components, ∀ v ∈ component, ∀ w ∈ component, Joined adjacent v w

omit [DecidableEq V] in
theorem Sound.empty : Sound adjacent vertices ⟨fun _ => none, []⟩ :=
  ⟨by simp, by simp, by simp, by simp, by simp⟩

omit [DecidableEq V] in
/-- The labelled vertices are those of the components. -/
theorem Sound.mem_iff (h : Sound adjacent vertices s) : v ∈ s.components.flatten ↔ s.label v ≠ none := by
  rw [List.mem_flatten, Option.ne_none_iff_exists']
  constructor
  · rintro ⟨component, hc, hv⟩
    obtain ⟨k, hk⟩ := List.mem_iff_getElem?.mp hc
    exact ⟨k, (h.label v k).mpr ⟨component, hk, hv⟩⟩
  · rintro ⟨k, hk⟩
    obtain ⟨component, hc, hv⟩ := (h.label v k).mp hk
    exact ⟨component, List.mem_of_getElem? hc, hv⟩

omit [DecidableEq V] in
theorem Sound.label_of_component (h : Sound adjacent vertices s) {component : List V} {k : Nat}
    (hk : s.components[k]? = some component) : v ∈ component ↔ s.label v = some k := by
  rw [h.label]
  constructor
  · exact fun hv => ⟨component, hk, hv⟩
  · rintro ⟨c, hc, hv⟩
    cases hk.symm.trans hc
    exact hv

omit [DecidableEq V] in
theorem getElem?_concat_eq_some {comps : List (List V)} {found component : List V} {j : Nat} :
    (comps ++ [found])[j]? = some component ↔
      comps[j]? = some component ∨ j = comps.length ∧ found = component := by
  rcases Nat.lt_trichotomy j comps.length with hj | rfl | hj
  · rw [List.getElem?_append_left hj]
    exact ⟨.inl, fun h => h.resolve_right fun he => absurd he.1 (Nat.ne_of_lt hj)⟩
  · simp
  · rw [List.getElem?_eq_none (by simp; omega), List.getElem?_eq_none (Nat.le_of_lt hj)]
    exact ⟨.inl, fun h => h.resolve_right fun he => absurd he.1 (Nat.ne_of_gt hj)⟩

/-- The component of a search is added. -/
theorem Sound.add (h : Sound adjacent vertices s) (hsymm : ∀ v w, w ∈ adjacent v → v ∈ adjacent w)
    (hclosed : ∀ v ∈ vertices, ∀ w ∈ adjacent v, w ∈ vertices) (hroot : root ∈ vertices)
    (hg : Grows adjacent s.label s.components.length root label [] component)
    (hdone : ∀ v ∈ component, ∀ w ∈ adjacent v, label w ≠ none) :
    Sound adjacent vertices ⟨label, s.components ++ [component]⟩ := by
  obtain ⟨hkept, hmarked, hnodup, hjoined, -⟩ := hg
  rw [List.append_nil] at hkept hmarked hnodup hjoined
  have hold (v : V) (j : Nat) (hv : v ∈ component) : s.label v ≠ some j := by simp [(hmarked v hv).1]
  refine ⟨fun v j => ?_, ?_, fun v hv => ?_, fun v j hv w hw => ?_, fun c hc v hv w hw => ?_⟩
  · by_cases hv : v ∈ component
    · simp only [(hmarked v hv).2, Option.some.injEq, getElem?_concat_eq_some]
      constructor
      · rintro rfl
        exact ⟨component, .inr ⟨rfl, rfl⟩, hv⟩
      · rintro ⟨c, hc | hc, hvc⟩
        · exact absurd ((h.label v j).mpr ⟨c, hc, hvc⟩) (hold v j hv)
        · exact hc.1.symm
    · simp only [hkept v hv, h.label, getElem?_concat_eq_some]
      constructor
      · rintro ⟨c, hc, hvc⟩
        exact ⟨c, .inl hc, hvc⟩
      · rintro ⟨c, hc | hc, hvc⟩
        · exact ⟨c, hc, hvc⟩
        · exact absurd (hc.2 ▸ hvc) hv
  · rw [List.flatten_append, List.flatten_singleton]
    refine h.nodup.append hnodup fun v hv hvc => ?_
    exact h.mem_iff.mp hv (hmarked v hvc).1
  · rw [List.flatten_append, List.flatten_singleton, List.mem_append] at hv
    exact hv.elim (h.vertices v) fun hv => (hjoined v hv).mem hclosed hroot
  · by_cases hvc : v ∈ component
    · have hj : s.components.length = j := Option.some.inj ((hmarked v hvc).2.symm.trans hv)
      by_cases hwc : w ∈ component
      · exact (hmarked w hwc).2.trans (congrArg some hj)
      · -- a labelled neighbour would have given its label to `v`
        obtain ⟨i, hi⟩ := Option.ne_none_iff_exists'.mp (hdone v hvc w hw)
        rw [hkept w hwc] at hi
        exact absurd (h.closed w i hi v (hsymm v w hw)) (hold v i hvc)
    · have hw' := h.closed v j ((hkept v hvc).symm.trans hv) w hw
      have hwc : w ∉ component := fun hwc => hold w j hwc hw'
      exact (hkept w hwc).trans hw'
  · rcases List.mem_append.mp hc with hc | hc
    · exact h.joined c hc v hv w hw
    · obtain rfl := List.mem_singleton.mp hc
      exact ((hjoined v hv).symm hsymm).trans (hjoined w hw)

section Visit

variable (hclosed : ∀ v ∈ vertices, ∀ w ∈ adjacent v, w ∈ vertices)
variable (hsymm : ∀ v w, w ∈ adjacent v → v ∈ adjacent w)

include hclosed hsymm

theorem Sound.visit (h : Sound adjacent vertices s) (hv : v ∈ vertices) :
    Sound adjacent vertices (visit adjacent vertices.length s v) ∧
      ∀ w, w = v ∨ s.label w ≠ none → (visit adjacent vertices.length s v).label w ≠ none := by
  unfold Components.visit
  split
  · next hnone =>
    have hstart : Grows adjacent s.label s.components.length v
        (update s.label v (some s.components.length)) [v] [] := by
      refine ⟨fun w hw => ?_, fun w hw => ?_, List.nodup_singleton v, fun w hw => ?_, List.mem_singleton_self v⟩
      · exact update_of_ne (fun he => hw (List.mem_singleton.mpr he)) _ _
      · obtain rfl := List.mem_singleton.mp hw
        exact ⟨hnone, update_self _ _ _⟩
      · obtain rfl := List.mem_singleton.mp hw
        exact .refl
    obtain ⟨hg, hdone⟩ := hstart.search hclosed hv (nofun) (Nat.le_refl _)
    refine ⟨h.add hsymm hclosed hv hg hdone, fun w hw => ?_⟩
    by_cases hwc : w ∈ (search adjacent vertices.length (update s.label v (some s.components.length)) [v] []).2
    · simp [(hg.marked w (List.mem_append_left [] hwc)).2]
    · have hwv : w ≠ v := fun he => hwc (by simpa [he] using hg.root)
      exact (hg.kept w (by simpa using hwc)).trans_ne (hw.resolve_left hwv)
  · next hsome =>
    exact ⟨h, fun w hw => hw.elim (fun he => he ▸ hsome) id⟩

theorem Sound.visits {vs : List V} (h : Sound adjacent vertices s) (hvs : ∀ v ∈ vs, v ∈ vertices) :
    Sound adjacent vertices (vs.foldl (Components.visit adjacent vertices.length) s) ∧
      ∀ w, w ∈ vs ∨ s.label w ≠ none → (vs.foldl (Components.visit adjacent vertices.length) s).label w ≠ none := by
  induction vs generalizing s with
  | nil => exact ⟨h, fun w hw => hw.resolve_left List.not_mem_nil⟩
  | cons v vs ih =>
    obtain ⟨hsound, hlabel⟩ := h.visit hclosed hsymm (hvs v (.head _))
    obtain ⟨hsounds, hlabels⟩ := ih hsound fun w hw => hvs w (List.mem_cons_of_mem v hw)
    refine ⟨hsounds, fun w hw => hlabels w ?_⟩
    rcases hw with hw | hw
    · rcases List.mem_cons.mp hw with rfl | hw
      · exact .inr (hlabel w (.inl rfl))
      · exact .inl hw
    · exact .inr (hlabel w (.inr hw))

theorem labelled_sound : Sound adjacent vertices (labelled adjacent vertices) :=
  (Sound.empty.visits hclosed hsymm fun _ => id).1

/-- Every vertex is in a component. -/
theorem label_labelled (hv : v ∈ vertices) : (labelled adjacent vertices).label v ≠ none :=
  (Sound.empty.visits hclosed hsymm fun _ => id).2 v (.inl hv)

theorem components_perm (hnodup : vertices.Nodup) : (labelled adjacent vertices).components.flatten.Perm vertices := by
  have hsound := labelled_sound hclosed hsymm
  refine (List.perm_ext_iff_of_nodup hsound.nodup hnodup).mpr fun v => ⟨hsound.vertices v, fun hv => ?_⟩
  exact hsound.mem_iff.mpr (label_labelled hclosed hsymm hv)

/-- Two vertices have one label exactly when one can be reached from the other. -/
theorem label_eq_iff (hv : v ∈ vertices) :
    (labelled adjacent vertices).label v = (labelled adjacent vertices).label w ↔ Joined adjacent v w := by
  have hsound := labelled_sound hclosed hsymm
  obtain ⟨k, hk⟩ := Option.ne_none_iff_exists'.mp (label_labelled hclosed hsymm hv)
  obtain ⟨component, hc, hvc⟩ := (hsound.label v k).mp hk
  constructor
  · intro h
    have hwc := (hsound.label_of_component hc).mpr (h.symm.trans hk)
    exact hsound.joined component (List.mem_of_getElem? hc) v hvc w hwc
  · intro h
    rw [hk]
    induction h with
    | refl => exact hk.symm
    | tail _ hstep ih => exact (hsound.closed _ k ih.symm _ hstep).symm

end Visit

end Components

/-! Walks along the edges of a directed graph, and graphs without a closed walk. -/

namespace Walks

universe u v

variable {V : Type u} {E : Type v} {src dst : E → V} {a b : V} {es fs : List E}

/-- The edges lead from one vertex to another, each from where the one before it ends. -/
def Walk (src dst : E → V) (a : V) : List E → V → Prop
  | [], b => a = b
  | e :: es, b => src e = a ∧ Walk src dst (dst e) es b

namespace Walk

theorem append {c : V} (h : Walk src dst a es b) (h' : Walk src dst b fs c) : Walk src dst a (es ++ fs) c := by
  induction es generalizing a with
  | nil =>
    have hab : a = b := h
    rwa [hab]
  | cons e es ih => exact ⟨h.1, ih h.2⟩

theorem concat (h : Walk src dst a es b) {e : E} (he : src e = b) : Walk src dst a (es ++ [e]) (dst e) :=
  h.append ⟨he, rfl⟩

/-- A walk goes on from each of its vertices to its end. -/
theorem drop (h : Walk src dst a es b) {k : Nat} {v : V} (hk : (es.map src)[k]? = some v) :
    Walk src dst v (es.drop k) b := by
  induction es generalizing a k with
  | nil => simp at hk
  | cons e es ih =>
    cases k with
    | zero =>
      rw [List.map_cons, List.getElem?_cons_zero] at hk
      exact ⟨Option.some.inj hk, h.2⟩
    | succ k => exact ih h.2 hk

end Walk

/-- `w` comes after `v` along an edge that is kept. -/
def Next (src dst : E → V) (kept : E → Prop) (w v : V) : Prop := ∃ e, kept e ∧ src e = v ∧ dst e = w

variable {kept kept' : E → Prop}

theorem Next.acc_mono (hkept : ∀ e, kept' e → kept e) (h : Acc (Next src dst kept) a) : Acc (Next src dst kept') a :=
  Subrelation.accessible (fun {_ _} ⟨e, he, hs, hd⟩ => ⟨e, hkept e he, hs, hd⟩) h

/-- Where every way along kept edges ends, no closed walk is left. -/
theorem Walk.eq_nil_of_acc (hacc : Acc (Next src dst kept) a) (h : Walk src dst a es a) (hes : ∀ e ∈ es, kept e) :
    es = [] := by
  induction hacc generalizing es with
  | intro a _ ih =>
    cases es with
    | nil => rfl
    | cons e es =>
      obtain ⟨he, hrest⟩ := h
      have hkept := hes e (.head _)
      -- the closed walk, started one edge later
      have hturned := ih (dst e) ⟨e, hkept, he, rfl⟩ (hrest.concat he) fun x hx => by
        obtain hx | hx := List.mem_append.mp hx
        · exact hes x (List.mem_cons_of_mem e hx)
        · rwa [List.mem_singleton.mp hx]
      exact absurd hturned (by simp)

end Walks
