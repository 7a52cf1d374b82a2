import Mathlib.Data.List.AList
import Mathlib.Logic.Equiv.Basic

/-! Maps with distinct keys: the entries that a predicate keeps, a function of every value, and a fold over the
    entries whose steps write their own keys only. -/

universe u v w

namespace AList

variable {α : Type u} {β γ : Type v} [DecidableEq α]

/-- The entries that `p` keeps. -/
def filter (p : α → β → Bool) (s : AList fun _ : α => β) : AList fun _ : α => β where
  entries := s.entries.filter fun e => p e.1 e.2
  nodupKeys := s.nodupKeys.sublist List.filter_sublist

/-- The value of every key goes through `f`. -/
def mapValues (f : α → β → γ) (s : AList fun _ : α => β) : AList fun _ : α => γ where
  entries := s.entries.map fun e => ⟨e.1, f e.1 e.2⟩
  nodupKeys := s.nodupKeys.map₂ f

theorem mem_lookup_filter {p : α → β → Bool} {s : AList fun _ : α => β} {a : α} {b : β} :
    (s.filter p).lookup a = some b ↔ s.lookup a = some b ∧ p a b = true := by
  rw [← Option.mem_def, ← Option.mem_def, mem_lookup_iff, mem_lookup_iff]
  simp only [filter, List.mem_filter]

theorem lookup_filter (p : α → β → Bool) (s : AList fun _ : α => β) (a : α) :
    (s.filter p).lookup a = (s.lookup a).filter (p a) := by
  apply Option.ext
  intro b
  rw [mem_lookup_filter, Option.filter_eq_some_iff]

theorem mem_filter_self {p : α → β → Bool} {s : AList fun _ : α => β} {a : α} :
    a ∈ s.filter p ↔ ∃ b, s.lookup a = some b ∧ p a b = true := by
  rw [← lookup_isSome, Option.isSome_iff_exists]
  simp only [mem_lookup_filter]

@[simp] theorem lookup_mapValues (f : α → β → γ) (s : AList fun _ : α => β) (a : α) :
    (s.mapValues f).lookup a = (s.lookup a).map (f a) :=
  List.dlookup_map₂ a

@[simp] theorem mem_mapValues {f : α → β → γ} {s : AList fun _ : α => β} {a : α} :
    a ∈ s.mapValues f ↔ a ∈ s := by
  rw [← lookup_isSome, lookup_mapValues, Option.isSome_map, lookup_isSome]

theorem lookup_union (s t : AList fun _ : α => β) (a : α) :
    (s ∪ t).lookup a = (s.lookup a).or (t.lookup a) := by
  by_cases h : a ∈ s
  · rw [lookup_union_left h]
    obtain ⟨b, hb⟩ := Option.isSome_iff_exists.mp (lookup_isSome.mpr h)
    rw [hb, Option.some_or]
  · rw [lookup_union_right h, lookup_eq_none.mpr h, Option.none_or]

theorem lookup_insert_eq (a a' : α) (b : β) (s : AList fun _ : α => β) :
    (s.insert a' b).lookup a = if a = a' then some b else s.lookup a := by
  split
  · next h => rw [h, lookup_insert]
  · next h => rw [lookup_insert_ne h]

/-- What a loop that inserts the entries with a kept key leaves at a key. -/
theorem lookup_foldl_insert (p : α → Bool) {entries : List (Sigma fun _ : α => β)} (h : entries.NodupKeys)
    (s : AList fun _ : α => β) (a : α) :
    (entries.foldl (fun s e => if p e.1 then s.insert e.1 e.2 else s) s).lookup a =
      (if p a then entries.dlookup a else none).or (s.lookup a) := by
  induction entries generalizing s with
  | nil => cases p a <;> simp
  | cons e entries ih =>
    obtain ⟨k, v⟩ := e
    obtain ⟨hk, htail⟩ := List.nodupKeys_cons.mp h
    rw [List.foldl_cons, ih htail]
    by_cases ha : a = k
    · subst ha
      have hnone : entries.dlookup a = none := List.dlookup_eq_none.mpr hk
      cases hp : p a <;> simp [hnone]
    · rw [List.dlookup_cons_ne _ _ ha]
      cases hp : p k
      · rfl
      · rw [if_pos rfl, lookup_insert_ne ha]

end AList

/-! Values that change places, one pair of keys after the other. -/

namespace Exchange

variable {κ A : Type} [DecidableEq κ]

def exchange (f : κ → A) (pairs : List (κ × κ)) : κ → A :=
  pairs.foldl (fun f pair => f ∘ Equiv.swap pair.1 pair.2) f

def keys (pairs : List (κ × κ)) : List κ := pairs.flatMap fun pair => [pair.1, pair.2]

/-- Where the value of a key comes from. -/
def origin : List (κ × κ) → Equiv.Perm κ
  | [] => Equiv.refl κ
  | pair :: pairs => (origin pairs).trans (Equiv.swap pair.1 pair.2)

theorem exchange_eq (f : κ → A) (pairs : List (κ × κ)) : exchange f pairs = f ∘ origin pairs := by
  unfold exchange
  induction pairs generalizing f with
  | nil => rfl
  | cons pair pairs ih =>
    rw [List.foldl_cons, ih]
    rfl

theorem origin_of_notMem {pairs : List (κ × κ)} {k : κ} (h : k ∉ keys pairs) : origin pairs k = k := by
  induction pairs with
  | nil => rfl
  | cons pair pairs ih =>
    simp only [keys, List.flatMap_cons, List.cons_append, List.nil_append, List.mem_cons, not_or] at h
    obtain ⟨hfst, hsnd, hrest⟩ := h
    show Equiv.swap pair.1 pair.2 (origin pairs k) = k
    rw [ih hrest, Equiv.swap_apply_of_ne_of_ne hfst hsnd]

/-- The two keys of a pair take each other's values, where no key is named twice. -/
theorem origin_pair {pairs : List (κ × κ)} (hnodup : (keys pairs).Nodup) {pair : κ × κ} (h : pair ∈ pairs) :
    origin pairs pair.1 = pair.2 ∧ origin pairs pair.2 = pair.1 := by
  induction pairs with
  | nil => cases h
  | cons head pairs ih =>
    simp only [keys, List.flatMap_cons, List.cons_append, List.nil_append, List.nodup_cons, List.mem_cons,
      not_or] at hnodup
    obtain ⟨⟨-, hfst⟩, hsnd, hrest⟩ := hnodup
    show Equiv.swap head.1 head.2 (origin pairs pair.1) = _ ∧ Equiv.swap head.1 head.2 (origin pairs pair.2) = _
    obtain rfl | hpair := List.mem_cons.mp h
    · rw [origin_of_notMem hfst, origin_of_notMem hsnd]
      exact ⟨Equiv.swap_apply_left _ _, Equiv.swap_apply_right _ _⟩
    · obtain ⟨h₁, h₂⟩ := ih hrest hpair
      have hne {k : κ} (hk : k = pair.1 ∨ k = pair.2) : k ≠ head.1 ∧ k ≠ head.2 := by
        have hmem : k ∈ keys pairs := by
          refine List.mem_flatMap.mpr ⟨pair, hpair, ?_⟩
          simpa using hk
        exact ⟨fun he => hfst (he ▸ hmem), fun he => hsnd (he ▸ hmem)⟩
      obtain ⟨ha, hb⟩ := hne (.inl rfl)
      obtain ⟨ha', hb'⟩ := hne (.inr rfl)
      rw [h₁, h₂, Equiv.swap_apply_of_ne_of_ne ha hb, Equiv.swap_apply_of_ne_of_ne ha' hb']
      exact ⟨rfl, rfl⟩

end Exchange
