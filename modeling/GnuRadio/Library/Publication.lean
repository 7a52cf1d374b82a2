import Mathlib.Logic.Function.Basic

/-! A ring of marked slots. Threads claim consecutive positions of a stream, mark each claimed position in the
    slot it maps to, in any order among themselves, and then move the published bound over the positions they
    find marked. One atomic access a step. -/

namespace Publication

open Function

universe u

/-- Where a thread stands: it holds the claimed positions from `next` to `bound`, is about to load the
    published bound, has seen the positions from `first` to `next` marked, or is about to move the bound. -/
inductive Phase
  | idle
  | marking (next bound : Nat)
  | load
  | scan (first next : Nat)
  | advance (first next : Nat)
  deriving DecidableEq, Repr

/-- The ring: the position last marked in each slot, the two bounds, and the threads. -/
structure Ring (ι : Type u) where
  slot : Nat → Option Nat
  reserved : Nat
  published : Nat
  phase : ι → Phase

namespace Ring

variable {ι : Type u}

/-- The thread takes a new phase. -/
def become [DecidableEq ι] (s : Ring ι) (i : ι) (p : Phase) : Ring ι :=
  { s with phase := update s.phase i p }

def Marked (size : Nat) (s : Ring ι) (x : Nat) : Prop := s.slot (x % size) = some x

/-- The position is claimed and its holder has not marked it yet. -/
def Pending (s : Ring ι) (x : Nat) : Prop :=
  ∃ i next bound, s.phase i = .marking next bound ∧ next ≤ x ∧ x < bound

/-- A phase that will meet the first unpublished position again, or has yet to look at it. -/
def Serves (size : Nat) (s : Ring ι) : Phase → Prop
  | .idle => False
  | .scan first next => first < next ∨ s.Marked size first
  | .marking _ _ | .load | .advance _ _ => True

variable [DecidableEq ι] {size : Nat} {s : Ring ι} {i j : ι} {p : Phase}

@[simp] theorem become_slot : (s.become i p).slot = s.slot := rfl

@[simp] theorem become_reserved : (s.become i p).reserved = s.reserved := rfl

@[simp] theorem become_published : (s.become i p).published = s.published := rfl

@[simp] theorem become_self : (s.become i p).phase i = p := update_self ..

theorem become_of_ne (h : j ≠ i) : (s.become i p).phase j = s.phase j := update_of_ne h ..

@[simp] theorem become_marked {x : Nat} : (s.become i p).Marked size x ↔ s.Marked size x := Iff.rfl

@[simp] theorem become_serves {q : Phase} : (s.become i p).Serves size q ↔ s.Serves size q := by
  cases q <;> exact Iff.rfl

/-- A phase of some thread after the step is the new one, or one that another thread had before. -/
theorem phase_become {q : Phase} (h : (s.become i p).phase j = q) : (j = i ∧ p = q) ∨ (j ≠ i ∧ s.phase j = q) := by
  rcases eq_or_ne j i with rfl | hj
  · exact .inl ⟨rfl, become_self.symm.trans h⟩
  · exact .inr ⟨hj, (become_of_ne hj).symm.trans h⟩

/-- A thread that holds no claim before and after leaves the pending positions as they are. -/
theorem pending_become {x : Nat} (h : ∀ n b, s.phase i ≠ .marking n b) (hp : ∀ n b, p ≠ .marking n b) :
    (s.become i p).Pending x ↔ s.Pending x := by
  constructor
  · rintro ⟨j, n, b, hj, hx⟩
    rcases phase_become hj with ⟨-, rfl⟩ | ⟨-, hj⟩
    · exact absurd rfl (hp n b)
    · exact ⟨j, n, b, hj, hx⟩
  · rintro ⟨j, n, b, hj, hx⟩
    have hne : j ≠ i := fun e => h n b (e ▸ hj)
    exact ⟨j, n, b, (become_of_ne hne).trans hj, hx⟩

end Ring

open Ring

/-- One atomic access of a thread. -/
inductive Step {ι : Type u} [DecidableEq ι] (size : Nat) (s : Ring ι) : Ring ι → Prop
  | claim {i : ι} {n : Nat} (hi : s.phase i = .idle) (hn : 0 < n) (hr : s.reserved + n ≤ s.published + size) :
      Step size s ({ s with reserved := s.reserved + n }.become i (.marking s.reserved (s.reserved + n)))
  | mark {i : ι} {x b : Nat} (hi : s.phase i = .marking x b) :
      Step size s ({ s with slot := update s.slot (x % size) (some x) }.become i
        (if x + 1 < b then .marking (x + 1) b else .load))
  | load {i : ι} (hi : s.phase i = .load) : Step size s (s.become i (.scan s.published s.published))
  | pass {i : ι} {f x : Nat} (hi : s.phase i = .scan f x) (hx : x - f < size) (hm : s.Marked size x) :
      Step size s (s.become i (.scan f (x + 1)))
  | stop {i : ι} {f x : Nat} (hi : s.phase i = .scan f x) (hx : ¬ (x - f < size ∧ s.Marked size x)) :
      Step size s (s.become i (if x = f then .idle else .advance f x))
  | advance {i : ι} {f x : Nat} (hi : s.phase i = .advance f x) (hf : s.published = f) :
      Step size s ({ s with published := x }.become i .idle)
  | retry {i : ι} {f x : Nat} (hi : s.phase i = .advance f x) (hf : s.published ≠ f) :
      Step size s (s.become i .load)

/-- What holds of the ring in every state. `served` is the point: a marked position never waits with nobody to
    publish it; `handed` carries it over the moment the bound moves, when the mover leaves. -/
structure Inv {ι : Type u} (size : Nat) (s : Ring ι) : Prop where
  le : s.published ≤ s.reserved
  cap : s.reserved ≤ s.published + size
  held : ∀ i x b, s.phase i = .marking x b → s.published ≤ x ∧ x < b ∧ b ≤ s.reserved
  apart : ∀ i j x b y c, i ≠ j → s.phase i = .marking x b → s.phase j = .marking y c → b ≤ y ∨ c ≤ x
  slots : ∀ k v, s.slot k = some v → k = v % size ∧ v < s.reserved ∧ ¬ s.Pending v
  cover : ∀ x, s.published ≤ x → x < s.reserved → s.Marked size x ∨ s.Pending x
  scanned : ∀ i f x, s.phase i = .scan f x ∨ s.phase i = .advance f x →
    f ≤ s.published ∧ f ≤ x ∧ x ≤ f + size ∧ (f = s.published → ∀ y, f ≤ y → y < x → s.Marked size y)
  handed : ∀ i f x, s.phase i = .advance f x →
    f < x ∧ (f = s.published → s.Marked size x → ∃ k, k ≠ i ∧ s.Serves size (s.phase k))
  served : s.Marked size s.published → ∃ i, s.Serves size (s.phase i)

namespace Inv

variable {ι : Type u} {size : Nat} {s t : Ring ι} {i : ι}

theorem of_start (hs : ∀ k, s.slot k = none) (hr : s.reserved = 0) (hp : s.published = 0)
    (hi : ∀ i, s.phase i = .idle) : Inv size s where
  le := by omega
  cap := by omega
  held i x b h := by rw [hi] at h; cases h
  apart i j x b y c _ h _ := by rw [hi] at h; cases h
  slots k v h := by rw [hs] at h; cases h
  cover x _ h := by omega
  scanned i f x h := by rw [hi] at h; rcases h with h | h <;> cases h
  handed i f x h := by rw [hi] at h; cases h
  served h := by rw [Marked, hs] at h; cases h

theorem not_pending (h : Inv size s) {x : Nat} (hx : s.Marked size x) : ¬ s.Pending x := (h.slots _ _ hx).2.2

theorem marked_lt (h : Inv size s) {x : Nat} (hx : s.Marked size x) : x < s.reserved := (h.slots _ _ hx).2.1

/-- Two positions of one slot that are both unpublished and reserved are one position. -/
theorem slot_inj (h : Inv size s) {x y : Nat} (hx : s.published ≤ x) (hx' : x < s.reserved) (hy : s.published ≤ y)
    (hy' : y < s.published + size) (e : y % size = x % size) : y = x := by
  have hc := h.cap
  have hxy := Nat.sub_mod_eq_zero_of_mod_eq e
  have hyx := Nat.sub_mod_eq_zero_of_mod_eq e.symm
  rw [Nat.mod_eq_of_lt (by omega)] at hxy hyx
  omega

/-- The published bound meets the reserved one as soon as no thread holds a claim or still publishes one. -/
theorem published_eq (h : Inv size s) (hi : ∀ i, s.phase i = .idle) : s.published = s.reserved := by
  by_contra hne
  have hlt : s.published < s.reserved := by have := h.le; omega
  rcases h.cover _ (Nat.le_refl _) hlt with hm | ⟨i, x, b, hp, -⟩
  · obtain ⟨i, hs⟩ := h.served hm
    rw [hi] at hs
    exact hs
  · rw [hi] at hp
    cases hp

/-! ### What a step keeps -/

section

variable [DecidableEq ι]

/-- A step that only moves thread `i` among the phases without a claim. -/
theorem become (h : Inv size s) {p : Phase} (hi : ∀ n b, s.phase i ≠ .marking n b) (hp : ∀ n b, p ≠ .marking n b)
    (scanned : ∀ f x, p = .scan f x ∨ p = .advance f x →
      f ≤ s.published ∧ f ≤ x ∧ x ≤ f + size ∧ (f = s.published → ∀ y, f ≤ y → y < x → s.Marked size y))
    (handed : ∀ f x, p = .advance f x →
      f < x ∧ (f = s.published → s.Marked size x → ∃ k, k ≠ i ∧ s.Serves size (s.phase k)))
    (serves : s.Serves size (s.phase i) → s.Marked size s.published → s.Serves size p) :
    Inv size (s.become i p) where
  le := h.le
  cap := h.cap
  held j x b hj := by
    rcases phase_become hj with ⟨-, rfl⟩ | ⟨-, hj⟩
    · exact absurd rfl (hp x b)
    · exact h.held j x b hj
  apart j k x b y c hne hj hk := by
    rcases phase_become hj with ⟨-, rfl⟩ | ⟨-, hj⟩
    · exact absurd rfl (hp x b)
    rcases phase_become hk with ⟨-, rfl⟩ | ⟨-, hk⟩
    · exact absurd rfl (hp y c)
    exact h.apart j k x b y c hne hj hk
  slots k v hv := by
    rw [pending_become hi hp]
    exact h.slots k v hv
  cover x h1 h2 := by
    rw [pending_become hi hp]
    exact h.cover x h1 h2
  scanned j f x hj := by
    rcases eq_or_ne j i with rfl | hne
    · rw [become_self] at hj
      exact scanned f x hj
    · rw [become_of_ne hne] at hj
      exact h.scanned j f x hj
  handed j f x hj := by
    rcases phase_become hj with ⟨rfl, rfl⟩ | ⟨hne, hj⟩
    · obtain ⟨hlt, hk⟩ := handed f x rfl
      refine ⟨hlt, fun hf hm => ?_⟩
      obtain ⟨k, hk, hs⟩ := hk hf hm
      exact ⟨k, hk, by rwa [become_of_ne hk, become_serves]⟩
    · obtain ⟨hlt, hk⟩ := h.handed j f x hj
      refine ⟨hlt, fun hf hm => ?_⟩
      obtain ⟨k, hk, hs⟩ := hk hf hm
      -- The mover still waits at the published bound, so that position is marked and `i` serves it.
      have hpub : s.Marked size s.published := hf ▸ (h.scanned j f x (.inr hj)).2.2.2 hf f (Nat.le_refl _) hlt
      refine ⟨k, hk, ?_⟩
      rcases eq_or_ne k i with rfl | hki
      · rw [become_self, become_serves]
        exact serves hs hpub
      · rwa [become_of_ne hki, become_serves]
  served hm := by
    obtain ⟨k, hs⟩ := h.served hm
    refine ⟨k, ?_⟩
    rcases eq_or_ne k i with rfl | hki
    · rw [become_self, become_serves]
      exact serves hs hm
    · rwa [become_of_ne hki, become_serves]

theorem claim (h : Inv size s) {n : Nat} (hi : s.phase i = .idle) (hn : 0 < n)
    (hr : s.reserved + n ≤ s.published + size) :
    Inv size ({ s with reserved := s.reserved + n }.become i (.marking s.reserved (s.reserved + n))) := by
  have hkeep : ∀ {k}, s.Serves size (s.phase k) → k ≠ i := fun hs e => by
    rw [e, hi] at hs
    exact hs
  have hserves : ∀ {k}, s.Serves size (s.phase k) → Serves size
      ({ s with reserved := s.reserved + n }.become i (.marking s.reserved (s.reserved + n)))
      (({ s with reserved := s.reserved + n }.become i (.marking s.reserved (s.reserved + n))).phase k) := fun hs => by
    rw [become_of_ne (hkeep hs), become_serves]
    revert hs
    dsimp only
    cases s.phase _ <;> exact id
  constructor
  case le => exact Nat.le_trans h.le (Nat.le_add_right ..)
  case cap => exact hr
  case held =>
    intro j x b hj
    rcases phase_become hj with ⟨-, e⟩ | ⟨-, hj⟩
    · cases e
      exact ⟨h.le, by omega, Nat.le_refl _⟩
    · obtain ⟨h1, h2, h3⟩ := h.held j x b hj
      exact ⟨h1, h2, Nat.le_trans h3 (Nat.le_add_right ..)⟩
  case apart =>
    intro j k x b y c hne hj hk
    rcases phase_become hj with ⟨hji, e⟩ | ⟨-, hj⟩ <;> rcases phase_become hk with ⟨hki, e'⟩ | ⟨-, hk⟩
    · exact absurd (hji.trans hki.symm) hne
    · cases e
      exact .inr (h.held k y c hk).2.2
    · cases e'
      exact .inl (h.held j x b hj).2.2
    · exact h.apart j k x b y c hne hj hk
  case slots =>
    intro k v hv
    obtain ⟨h1, h2, h3⟩ := h.slots k v hv
    refine ⟨h1, Nat.lt_of_lt_of_le h2 (Nat.le_add_right ..), ?_⟩
    rintro ⟨j, x, b, hj, hx, hb⟩
    rcases phase_become hj with ⟨-, e⟩ | ⟨-, hj⟩
    · cases e
      omega
    · exact h3 ⟨j, x, b, hj, hx, hb⟩
  case cover =>
    intro x h1 h2
    simp only [become_reserved] at h2
    by_cases hx : x < s.reserved
    · refine (h.cover x h1 hx).imp id ?_
      rintro ⟨j, y, b, hj, hy⟩
      have hne : j ≠ i := fun e => by
        rw [e, hi] at hj
        cases hj
      exact ⟨j, y, b, (become_of_ne hne).trans hj, hy⟩
    · exact .inr ⟨i, _, _, become_self, Nat.not_lt.mp hx, h2⟩
  case scanned =>
    intro j f x hj
    rcases eq_or_ne j i with rfl | hne
    · rw [become_self] at hj
      rcases hj with hj | hj <;> cases hj
    · rw [become_of_ne hne] at hj
      exact h.scanned j f x hj
  case handed =>
    intro j f x hj
    rcases phase_become hj with ⟨-, e⟩ | ⟨-, hj⟩
    · cases e
    · obtain ⟨hlt, hk⟩ := h.handed j f x hj
      refine ⟨hlt, fun hf hm => ?_⟩
      obtain ⟨k, hk, hs⟩ := hk hf hm
      exact ⟨k, hk, hserves hs⟩
  case served =>
    intro hm
    obtain ⟨k, hs⟩ := h.served hm
    exact ⟨k, hserves hs⟩

theorem mark (h : Inv size s) {x b : Nat} (hi : s.phase i = .marking x b) :
    Inv size ({ s with slot := update s.slot (x % size) (some x) }.become i
      (if x + 1 < b then .marking (x + 1) b else .load)) := by
  obtain ⟨hlo, hlt, hhi⟩ := h.held i x b hi
  -- A mark is lost only where `x` itself takes the slot.
  have hmark : ∀ {y : Nat}, s.published ≤ y → y < s.published + size → s.Marked size y →
      update s.slot (x % size) (some x) (y % size) = some y := by
    intro y h1 h2 hy
    by_cases e : y % size = x % size
    · rw [h.slot_inj hlo (Nat.lt_of_lt_of_le hlt hhi) h1 h2 e, update_self]
    · rw [update_of_ne e]
      exact hy
  generalize hp : (if x + 1 < b then Phase.marking (x + 1) b else .load) = p
  have hnew : ∀ y c, p = .marking y c → y = x + 1 ∧ c = b ∧ x + 1 < b := fun y c e => by
    rw [← hp] at e
    split at e
    · cases e
      exact ⟨rfl, rfl, by assumption⟩
    · cases e
  have hnow : ∀ f y, ¬ (p = .scan f y ∨ p = .advance f y) := fun f y e => by
    rw [← hp] at e
    split at e <;> rcases e with e | e <;> cases e
  have hserves : ∀ t : Ring ι, t.Serves size p := fun t => by
    rw [← hp]
    split <;> trivial
  constructor
  case le => exact h.le
  case cap => exact h.cap
  case held =>
    intro j y c hj
    rcases phase_become hj with ⟨-, e⟩ | ⟨-, hj⟩
    · obtain ⟨rfl, rfl, hb⟩ := hnew y c e
      exact ⟨Nat.le_trans hlo (Nat.le_succ x), hb, hhi⟩
    · exact h.held j y c hj
  case apart =>
    intro j k y c z d hne hj hk
    rcases phase_become hj with ⟨hji, e⟩ | ⟨-, hj⟩ <;> rcases phase_become hk with ⟨hki, e'⟩ | ⟨-, hk⟩
    · exact absurd (hji.trans hki.symm) hne
    · obtain ⟨rfl, rfl, -⟩ := hnew y c e
      have := h.apart j k x c z d hne (hji ▸ hi) hk
      have := (h.held k z d hk).2.1
      omega
    · obtain ⟨rfl, rfl, -⟩ := hnew z d e'
      have := h.apart j k y c x d hne hj (hki ▸ hi)
      have := (h.held j y c hj).2.1
      omega
    · exact h.apart j k y c z d hne hj hk
  case slots =>
    -- The claim of `i` starts after `x` from now on, the other claims lie apart from it.
    have hpend : ∀ {v}, Pending ({ s with slot := update s.slot (x % size) (some x) }.become i p) v →
        s.Pending v ∧ v ≠ x := by
      rintro v ⟨j, y, c, hj, hy, hc⟩
      rcases phase_become hj with ⟨-, e⟩ | ⟨hne, hj⟩
      · obtain ⟨rfl, rfl, -⟩ := hnew y c e
        exact ⟨⟨i, x, c, hi, by omega, hc⟩, by omega⟩
      · have := h.apart j i y c x b hne hj hi
        exact ⟨⟨j, y, c, hj, hy, hc⟩, by omega⟩
    intro k v hv
    simp only [become_slot] at hv
    by_cases hk : k = x % size
    · subst hk
      rw [update_self] at hv
      cases hv
      exact ⟨rfl, Nat.lt_of_lt_of_le hlt hhi, fun hx => (hpend hx).2 rfl⟩
    · rw [update_of_ne hk] at hv
      obtain ⟨h1, h2, h3⟩ := h.slots k v hv
      exact ⟨h1, h2, fun hx => h3 (hpend hx).1⟩
  case cover =>
    intro y h1 h2
    have hcap := h.cap
    simp only [become_published, become_reserved] at h1 h2
    by_cases hy : y = x
    · subst hy
      exact .inl (update_self ..)
    refine (h.cover y h1 h2).imp (hmark h1 (Nat.lt_of_lt_of_le h2 h.cap)) ?_
    rintro ⟨j, z, c, hj, hz, hc⟩
    rcases eq_or_ne j i with rfl | hne
    · rw [hi] at hj
      cases hj
      refine ⟨j, x + 1, b, ?_, by omega, hc⟩
      rw [become_self, ← hp, if_pos (by omega)]
    · exact ⟨j, z, c, (become_of_ne hne).trans hj, hz, hc⟩
  case scanned =>
    intro j f y hj
    rcases eq_or_ne j i with rfl | hne
    · rw [become_self] at hj
      exact absurd hj (hnow f y)
    · rw [become_of_ne hne] at hj
      obtain ⟨h1, h2, h3, h4⟩ := h.scanned j f y hj
      exact ⟨h1, h2, h3, fun hf z hz hz' => hmark (hf ▸ hz) (by omega) (h4 hf z hz hz')⟩
  case handed =>
    intro j f y hj
    rcases phase_become hj with ⟨-, e⟩ | ⟨hne, hj⟩
    · exact absurd (.inr e) (hnow f y)
    · exact ⟨(h.handed j f y hj).1, fun _ _ => ⟨i, hne.symm, by rw [become_self]; exact hserves _⟩⟩
  case served => exact fun _ => ⟨i, by rw [become_self]; exact hserves _⟩

theorem load (h : Inv size s) (hi : s.phase i = .load) :
    Inv size (s.become i (.scan s.published s.published)) := by
  refine h.become (fun _ _ e => by rw [hi] at e; cases e) (fun _ _ e => by cases e) (fun f x e => ?_)
    (fun f x e => by cases e) (fun _ hm => .inr hm)
  rcases e with e | e <;> cases e
  exact ⟨Nat.le_refl _, Nat.le_refl _, Nat.le_add_right .., fun _ y h1 h2 => by omega⟩

theorem pass (h : Inv size s) {f x : Nat} (hi : s.phase i = .scan f x) (hx : x - f < size)
    (hm : s.Marked size x) : Inv size (s.become i (.scan f (x + 1))) := by
  obtain ⟨h1, h2, h3, h4⟩ := h.scanned i f x (.inl hi)
  refine h.become (fun _ _ e => by rw [hi] at e; cases e) (fun _ _ e => by cases e) (fun g y e => ?_)
    (fun g y e => by cases e) (fun _ _ => .inl (by omega))
  rcases e with e | e <;> cases e
  refine ⟨h1, by omega, by omega, fun hf y hy hy' => ?_⟩
  rcases Nat.lt_succ_iff_lt_or_eq.mp hy' with hlt | rfl
  · exact h4 hf y hy hlt
  · exact hm

theorem stop (h : Inv size s) {f x : Nat} (hi : s.phase i = .scan f x)
    (hx : ¬ (x - f < size ∧ s.Marked size x)) : Inv size (s.become i (if x = f then .idle else .advance f x)) := by
  obtain ⟨h1, h2, h3, h4⟩ := h.scanned i f x (.inl hi)
  have hcap := h.cap
  have hno : ∀ n b, s.phase i ≠ .marking n b := fun _ _ e => by rw [hi] at e; cases e
  by_cases he : x = f
  · subst he
    rw [if_pos rfl]
    refine h.become hno (fun _ _ e => by cases e) (fun _ _ e => by rcases e with e | e <;> cases e)
      (fun _ _ e => by cases e) (fun hs hm => ?_)
    -- `i` served for a marked position at its own start only, and it has just seen that position unmarked.
    have hlt := h.marked_lt hm
    rw [hi] at hs
    rcases hs with hs | hs
    · exact absurd hs (Nat.lt_irrefl x)
    · exact hx ⟨by omega, hs⟩
  · rw [if_neg he]
    refine h.become hno (fun _ _ e => by cases e) (fun g y e => ?_) (fun g y e => ?_) (fun _ _ => trivial)
    · rcases e with e | e <;> cases e
      exact ⟨h1, h2, h3, h4⟩
    · cases e
      refine ⟨by omega, fun hf hm => ?_⟩
      -- Here the scan has gone once around the ring, and a slot holds one mark.
      have hfull : x = f + size := by
        by_contra hne
        exact hx ⟨by omega, hm⟩
      have hfirst := h4 hf f (Nat.le_refl _) (by omega)
      rw [Marked, hfull, Nat.add_mod_right, hfirst] at hm
      have := Option.some.inj hm
      omega

theorem retry (h : Inv size s) {f x : Nat} (hi : s.phase i = .advance f x) : Inv size (s.become i .load) :=
  h.become (fun _ _ e => by rw [hi] at e; cases e) (fun _ _ e => by cases e)
    (fun _ _ e => by rcases e with e | e <;> cases e) (fun _ _ e => by cases e) (fun _ _ => trivial)

theorem advance (h : Inv size s) {f x : Nat} (hi : s.phase i = .advance f x) (hf : s.published = f) :
    Inv size ({ s with published := x }.become i .idle) := by
  obtain ⟨-, hfx, hxs, hm⟩ := h.scanned i f x (.inr hi)
  obtain ⟨hlt, hk⟩ := h.handed i f x hi
  have hmarked := hm hf.symm
  have hno : ∀ n b, s.phase i ≠ .marking n b := fun _ _ e => by rw [hi] at e; cases e
  have hle : x ≤ s.reserved := by
    have := h.marked_lt (hmarked (x - 1) (by omega) (by omega))
    omega
  have hcap := h.cap
  have hpend : ∀ {v}, Pending ({ s with published := x }.become i .idle) v ↔ s.Pending v := fun {v} =>
    pending_become (s := { s with published := x }) hno (fun _ _ e => by cases e)
  constructor
  case le => exact hle
  case cap => exact Nat.le_trans hcap (by simp only [become_published]; omega)
  case held =>
    intro j y b hj
    rcases phase_become hj with ⟨-, e⟩ | ⟨-, hj⟩
    · cases e
    · obtain ⟨h1, h2, h3⟩ := h.held j y b hj
      -- A pending position is not marked, so the bound has not passed it.
      have : ¬ y < x := fun hy => h.not_pending (hmarked y (hf ▸ h1) hy) ⟨j, y, b, hj, Nat.le_refl _, h2⟩
      exact ⟨Nat.not_lt.mp this, h2, h3⟩
  case apart =>
    intro j k y b z c hne hj hk
    rcases phase_become hj with ⟨-, e⟩ | ⟨-, hj⟩
    · cases e
    rcases phase_become hk with ⟨-, e⟩ | ⟨-, hk⟩
    · cases e
    exact h.apart j k y b z c hne hj hk
  case slots =>
    intro k v hv
    rw [hpend]
    exact h.slots k v hv
  case cover =>
    intro y h1 h2
    rw [hpend]
    exact h.cover y (hf ▸ Nat.le_trans hfx h1) h2
  case scanned =>
    intro j g y hj
    have hj : s.phase j = .scan g y ∨ s.phase j = .advance g y := by
      rcases hj with hj | hj <;> rcases phase_become hj with ⟨-, e⟩ | ⟨-, hj⟩
      · cases e
      · exact .inl hj
      · cases e
      · exact .inr hj
    obtain ⟨h1, h2, h3, -⟩ := h.scanned j g y hj
    refine ⟨by simp only [become_published]; omega, h2, h3, fun hg => ?_⟩
    simp only [become_published] at hg
    omega
  case handed =>
    intro j g y hj
    rcases phase_become hj with ⟨-, e⟩ | ⟨-, hj⟩
    · cases e
    · obtain ⟨h1, -⟩ := h.scanned j g y (.inr hj)
      refine ⟨(h.handed j g y hj).1, fun hg => ?_⟩
      simp only [become_published] at hg
      omega
  case served =>
    intro hm'
    obtain ⟨k, hki, hs⟩ := hk hf.symm hm'
    refine ⟨k, ?_⟩
    rw [become_of_ne hki, become_serves]
    revert hs
    dsimp only
    cases s.phase k <;> exact id

theorem step (h : Inv size s) (hs : Step size s t) : Inv size t := by
  cases hs with
  | claim hi hn hr => exact h.claim hi hn hr
  | mark hi => exact h.mark hi
  | load hi => exact h.load hi
  | pass hi hx hm => exact h.pass hi hx hm
  | stop hi hx => exact h.stop hi hx
  | advance hi hf => exact h.advance hi hf
  | retry hi _ => exact h.retry hi

end

end Inv

end Publication
