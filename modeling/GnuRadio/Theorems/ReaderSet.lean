import GnuRadio.Buffer.Sequence

/-! What a thread inside `addSequences` or `removeSequence` knows of the reader set, and what its accesses leave to
    the other readers. -/

namespace GnuRadio

variable {ρ : Type} {s t : ReadSequences ρ} {r q : ρ} {cursor cursor' : Nat} {b : Bool}

theorem lower_le (minimum : Option Nat) (v : Nat) :
    lower minimum v ≤ v ∧ ∀ m, minimum = some m → lower minimum v ≤ m := by
  cases minimum with
  | none => exact ⟨Nat.le_refl _, fun m h => by cases h⟩
  | some m =>
    unfold lower
    dsimp only
    refine ⟨by split <;> omega, fun m' h => ?_⟩
    cases h
    split <;> omega

theorem remainingCapacity_le {size reserveCursor minReader n : Nat} (hn : 0 < n)
    (h : n ≤ remainingCapacity size reserveCursor minReader) : reserveCursor + n ≤ minReader + size := by
  simp only [remainingCapacity] at h
  split at h <;> omega

namespace ReadSequences

/-- The list that a thread loaded is the current one if nobody replaced it since. -/
def Loaded (s : ReadSequences ρ) (current : SequenceList ρ) : Prop :=
  current.version ≤ s.list.version ∧ (s.list.version = current.version → current = s.list)

/-- What a step of another thread leaves to reader `r`. -/
structure Kept (r : ρ) (s t : ReadSequences ρ) : Prop where
  value : t.value r = s.value r
  mem : r ∈ s.list.sequences → r ∈ t.list.sequences
  version : s.list.version ≤ t.list.version
  list : t.list.version = s.list.version → t.list = s.list

theorem Kept.refl (r : ρ) (s : ReadSequences ρ) : Kept r s s := ⟨rfl, id, Nat.le_refl _, fun _ => rfl⟩

theorem loaded_self (s : ReadSequences ρ) : s.Loaded s.list := ⟨Nat.le_refl _, fun _ => rfl⟩

theorem Loaded.kept {current : SequenceList ρ} (h : s.Loaded current) (k : Kept r s t) : t.Loaded current := by
  obtain ⟨hv, hl⟩ := h
  refine ⟨Nat.le_trans hv k.version, fun he => ?_⟩
  have hst : t.list.version = s.list.version := by
    have := k.version
    omega
  rw [hl (hst.symm.trans he), k.list hst]

variable [DecidableEq ρ]

theorem kept_setValue {v : Nat} (h : q ≠ r) : Kept q s (s.setValue r v) :=
  ⟨setValue_of_ne h, id, Nat.le_refl _, fun _ => rfl⟩

end ReadSequences

open ReadSequences

namespace AddSequences

/-- What the call has established at each point. The second write of the cursor raises the sequence to the value read
    last. -/
def Sound (cursor : Nat) (s : ReadSequences ρ) (r : ρ) : AddSequences ρ → Prop
  | .load => True
  | .readCursor current | .compareExchange current => s.Loaded current
  | .setValue current c => s.Loaded current ∧ s.value r ≤ c ∧ c ≤ cursor
  | .rereadCursor => r ∈ s.list.sequences
  | .resetValue c => r ∈ s.list.sequences ∧ s.value r ≤ c ∧ c ≤ cursor

/-- The position at which the reader starts, once it is read. -/
def position : AddSequences ρ → Option Nat
  | .resetValue c => some c
  | _ => none

variable {stage : AddSequences ρ}

theorem Sound.kept (h : stage.Sound cursor s r) (k : Kept r s t) (hc : cursor ≤ cursor') :
    stage.Sound cursor' t r := by
  cases stage with
  | load => trivial
  | readCursor current | compareExchange current => exact Loaded.kept h k
  | setValue current c => exact ⟨h.1.kept k, k.value ▸ h.2.1, Nat.le_trans h.2.2 hc⟩
  | rereadCursor => exact k.mem h
  | resetValue c => exact ⟨k.mem h.1, k.value ▸ h.2.1, Nat.le_trans h.2.2 hc⟩

variable [DecidableEq ρ]

theorem step_kept (h : stage.Sound cursor s r) (hq : q ≠ r) :
    Kept q s (stage.step cursor r b s).1 := by
  cases stage with
  | load | readCursor current | rereadCursor => exact .refl q s
  | setValue current c | resetValue c => exact kept_setValue hq
  | compareExchange current =>
    unfold step
    dsimp only
    split
    case h_2 => exact .refl q s
    case h_1 t he =>
      split at he
      · cases he
      · obtain ⟨hv, rfl⟩ := exchange_eq_some he
        rw [h.2 hv]
        exact ⟨rfl, List.mem_append_left _, Nat.le_succ _, fun e => absurd e (Nat.succ_ne_self _)⟩

/-- The list gains the sequence at most. -/
theorem step_mem (h : stage.Sound cursor s r) :
    (q ∈ s.list.sequences → q ∈ (stage.step cursor r b s).1.list.sequences) ∧
      (q ∈ (stage.step cursor r b s).1.list.sequences → q ∈ s.list.sequences ∨ q = r) := by
  cases stage with
  | load | readCursor current | setValue current c | rereadCursor | resetValue c => exact ⟨id, Or.inl⟩
  | compareExchange current =>
    unfold step
    dsimp only
    split
    case h_2 => exact ⟨id, Or.inl⟩
    case h_1 t he =>
      split at he
      · cases he
      · obtain ⟨hv, rfl⟩ := exchange_eq_some he
        rw [h.2 hv]
        exact ⟨List.mem_append_left _, fun hq => (List.mem_append.mp hq).imp id List.mem_singleton.mp⟩

/-- The sequence only grows, and never above the cursor. -/
theorem step_value (h : stage.Sound cursor s r) (hv : s.value r ≤ cursor) :
    s.value r ≤ (stage.step cursor r b s).1.value r ∧ (stage.step cursor r b s).1.value r ≤ cursor := by
  cases stage with
  | load | readCursor current | rereadCursor => exact ⟨Nat.le_refl _, hv⟩
  | setValue current c | resetValue c =>
    unfold step
    dsimp only
    rw [setValue_self]
    exact h.2
  | compareExchange current =>
    unfold step
    dsimp only
    split
    case h_2 => exact ⟨Nat.le_refl _, hv⟩
    case h_1 t he =>
      split at he
      · cases he
      · obtain ⟨-, rfl⟩ := exchange_eq_some he
        exact ⟨Nat.le_refl _, hv⟩

theorem step_sound {stage stage' : AddSequences ρ} (h : stage.Sound cursor s r) (hv : s.value r ≤ cursor)
    (hs : (stage.step cursor r b s).2 = some stage') :
    stage'.Sound cursor (stage.step cursor r b s).1 r ∧
      (stage'.position = none ∨ stage'.position = some cursor) := by
  cases stage with
  | load =>
    cases hs
    exact ⟨loaded_self s, .inl rfl⟩
  | readCursor current =>
    cases hs
    exact ⟨⟨h, hv, Nat.le_refl _⟩, .inl rfl⟩
  | setValue current c =>
    cases hs
    exact ⟨⟨h.1.1, h.1.2⟩, .inl rfl⟩
  | compareExchange current =>
    unfold step at hs ⊢
    dsimp only at hs ⊢
    split at hs
    case h_2 =>
      cases hs
      exact ⟨trivial, .inl rfl⟩
    case h_1 t he =>
      cases hs
      split at he
      · cases he
      · obtain ⟨-, rfl⟩ := exchange_eq_some he
        exact ⟨List.mem_append_right _ (List.mem_singleton.mpr rfl), .inl rfl⟩
  | rereadCursor =>
    cases hs
    exact ⟨⟨h, hv, Nat.le_refl _⟩, .inr rfl⟩
  | resetValue c => cases hs

/-- A call ends with the sequence at the position read last. -/
theorem step_done (h : stage.Sound cursor s r)
    (hs : (stage.step cursor r b s).2 = none) :
    stage.position = some ((stage.step cursor r b s).1.value r) ∧
      r ∈ (stage.step cursor r b s).1.list.sequences := by
  cases stage with
  | load | readCursor current | setValue current c | rereadCursor => cases hs
  | compareExchange current =>
    unfold step at hs
    dsimp only at hs
    split at hs <;> cases hs
  | resetValue c =>
    unfold step
    dsimp only
    rw [setValue_self]
    exact ⟨rfl, h.1⟩

end AddSequences

namespace RemoveSequence

def Sound (s : ReadSequences ρ) : RemoveSequence ρ → Prop
  | .load => True
  | .compareExchange old => s.Loaded old

variable {stage : RemoveSequence ρ}

theorem Sound.kept (h : stage.Sound s) (k : Kept r s t) : stage.Sound t := by
  cases stage with
  | load => trivial
  | compareExchange old => exact Loaded.kept h k

variable [DecidableEq ρ]

theorem step_kept (h : stage.Sound s) (hq : q ≠ r) :
    Kept q s (stage.step r b s).1 := by
  cases stage with
  | load =>
    unfold step
    dsimp only
    split <;> exact .refl q s
  | compareExchange old =>
    unfold step
    dsimp only
    split
    case h_2 => exact .refl q s
    case h_1 t he =>
      split at he
      · cases he
      · obtain ⟨hv, rfl⟩ := exchange_eq_some he
        rw [h.2 hv]
        refine ⟨rfl, fun hm => ?_, Nat.le_succ _, fun e => absurd e (Nat.succ_ne_self _)⟩
        exact List.mem_filter.mpr ⟨hm, decide_eq_true hq⟩

/-- The list loses the sequence at most, and does where the call ends. -/
theorem step_mem (h : stage.Sound s) :
    (q ∈ (stage.step r b s).1.list.sequences → q ∈ s.list.sequences) ∧
      ((stage.step r b s).2 = none → r ∉ (stage.step r b s).1.list.sequences) := by
  cases stage with
  | load =>
    unfold step
    dsimp only
    split
    · exact ⟨id, nofun⟩
    case isFalse hr => exact ⟨id, fun _ => hr⟩
  | compareExchange old =>
    unfold step
    dsimp only
    split
    case h_2 => exact ⟨id, nofun⟩
    case h_1 t he =>
      split at he
      · cases he
      · obtain ⟨hv, rfl⟩ := exchange_eq_some he
        rw [h.2 hv]
        exact ⟨List.mem_of_mem_filter, fun _ hr => of_decide_eq_true (List.mem_filter.mp hr).2 rfl⟩

theorem step_value : (stage.step r b s).1.value = s.value := by
  cases stage with
  | load =>
    unfold step
    dsimp only
    split <;> rfl
  | compareExchange old =>
    unfold step
    dsimp only
    split
    case h_2 => rfl
    case h_1 t he =>
      split at he
      · cases he
      · obtain ⟨-, rfl⟩ := exchange_eq_some he
        rfl

theorem step_sound {stage stage' : RemoveSequence ρ} (hs : (stage.step r b s).2 = some stage') :
    stage'.Sound s ∧ (stage.step r b s).1 = s := by
  cases stage with
  | load =>
    unfold step at hs ⊢
    dsimp only at hs ⊢
    split at hs
    case isFalse => cases hs
    case isTrue h =>
      cases hs
      exact ⟨loaded_self s, by rw [if_pos h]⟩
  | compareExchange old =>
    unfold step at hs ⊢
    dsimp only at hs ⊢
    split at hs
    case h_1 => cases hs
    case h_2 =>
      cases hs
      exact ⟨trivial, rfl⟩

end RemoveSequence

end GnuRadio
