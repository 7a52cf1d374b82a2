import GnuRadio.Graph.FeedbackLoops
import GnuRadio.Library.Pointwise

/-! What the search for feedback loops finds: loops of listed edges only, whatever blocks it starts at, with the fuel that
    it has. -/

namespace GnuRadio.Graph

variable {α β ι ω : Type}

/-! ### Flattening -/

theorem mem_foldl_addListedEdge {g : Graph ι ω} {es acc : List (Edge ι ω)} {e : Edge ι ω}
    (h : e ∈ es.foldl (addListedEdge g) acc) : e ∈ acc ∨ isListed g e = true := by
  induction es generalizing acc with
  | nil => exact .inl h
  | cons x es ih =>
    obtain h | h := ih h
    · unfold addListedEdge at h
      split at h
      · next hx =>
        obtain h | h := List.mem_append.mp h
        · exact .inl h
        · rw [List.mem_singleton.mp h]
          exact .inr ((Bool.and_eq_true _ _).mp hx).1
      · exact .inl h
    · exact .inr h

theorem isListed_of_mem_flatten {g : Graph ι ω} {e : Edge ι ω} (h : e ∈ flatten g) : isListed g e = true := by
  obtain h | h := mem_foldl_addListedEdge h
  · cases h
  · exact h

theorem follow_induction {P : Search ι ω → Prop} {search : Nat → List Nat → List (Edge ι ω) → Search ι ω → Search ι ω}
    {path : List Nat} {pathEdges : List (Edge ι ω)} {found : Search ι ω} {e : Edge ι ω} (hskip : P found)
    (hloop : ∀ k, P { found with loops := found.loops ++ [(pathEdges ++ [e]).drop k] })
    (hsearch : P (search e.destinationBlock.uniqueName path (pathEdges ++ [e]) found)) :
    P (follow search path pathEdges found e) := by
  unfold follow
  dsimp only
  split
  · split
    · exact hloop _
    · exact hskip
  · exact hsearch
  · exact hskip

section Detection

theorem mem_of_mem_adjacent [DecidableEq ω] {c : Config ι ω} {edges : List (Edge ι ω)} {block : Nat} {e : Edge ι ω}
    (h : e ∈ adjacent c edges block) : e ∈ edges := by
  obtain ⟨port, -, he⟩ := List.mem_flatMap.mp h
  exact List.mem_of_mem_filter (List.mem_of_mem_filter he)

/-- Every edge of every loop found is one of these. -/
def LoopsIn (edges : List (Edge ι ω)) (found : Search ι ω) : Prop := ∀ loop ∈ found.loops, ∀ e ∈ loop, e ∈ edges

section LoopsIn
variable {edges : List (Edge ι ω)} {edgesOf : Nat → List (Edge ι ω)} (hadj : ∀ b, ∀ e ∈ edgesOf b, e ∈ edges)
include hadj

theorem LoopsIn.dfs {fuel current : Nat} {path : List Nat} {pathEdges : List (Edge ι ω)} {found : Search ι ω}
    (hpath : ∀ e ∈ pathEdges, e ∈ edges) (h : LoopsIn edges found) :
    LoopsIn edges (dfs edgesOf fuel current path pathEdges found) := by
  induction fuel generalizing current path pathEdges found with
  | zero => exact h
  | succ fuel ih =>
    have hfold (es : List (Edge ι ω)) (hes : ∀ e ∈ es, e ∈ edges) (found : Search ι ω) (h : LoopsIn edges found) :
        LoopsIn edges (es.foldl (follow (Graph.dfs edgesOf fuel) (path ++ [current]) pathEdges) found) := by
      induction es generalizing found with
      | nil => exact h
      | cons e es ihes =>
        rw [List.forall_mem_cons] at hes
        have hpath' : ∀ x ∈ pathEdges ++ [e], x ∈ edges := fun x hx => by
          obtain hx | hx := List.mem_append.mp hx
          · exact hpath x hx
          · rw [List.mem_singleton.mp hx]
            exact hes.1
        refine ihes hes.2 _ (follow_induction h (fun k loop hloop => ?_) (ih hpath' h))
        obtain hloop | hloop := List.mem_append.mp hloop
        · exact h loop hloop
        · rw [List.mem_singleton.mp hloop]
          exact fun x hx => hpath' x (List.mem_of_mem_drop hx)
    exact hfold (edgesOf current) (hadj current) ⟨_, found.loops⟩ h

end LoopsIn

/-- The blocks among `names` that the search has not come to. -/
def nUnvisited (names : List Nat) (visited : Nat → VisitState) : Nat :=
  (names.filter fun name => decide (visited name = .unvisited)).length

/-- A search comes to blocks and never leaves them unvisited again. -/
def Further (visited visited' : Nat → VisitState) : Prop := ∀ name, visited' name = .unvisited → visited name = .unvisited

theorem nUnvisited_le {names : List Nat} {visited visited' : Nat → VisitState} (h : Further visited visited') :
    nUnvisited names visited' ≤ nUnvisited names visited :=
  Pointwise.length_filter_le h names

theorem nUnvisited_lt {names : List Nat} {visited visited' : Nat → VisitState} (h : Further visited visited')
    {name : Nat} (hn : name ∈ names) (hv : visited name = .unvisited) (hv' : visited' name ≠ .unvisited) :
    nUnvisited names visited' < nUnvisited names visited :=
  Pointwise.length_filter_lt h hn hv hv'

theorem further_update (visited : Nat → VisitState) (name : Nat) {v : VisitState} (hv : v ≠ .unvisited) :
    Further visited (Function.update visited name v) := by
  intro n hn
  by_cases he : n = name
  · rw [he, Function.update_self] at hn
    exact absurd hn hv
  · rwa [Function.update_of_ne he] at hn

theorem Further.trans {v v' v'' : Nat → VisitState} (h : Further v v') (h' : Further v' v'') : Further v v'' :=
  fun name hn => h name (h' name hn)

end Detection

/-! ### Priming -/

end GnuRadio.Graph
