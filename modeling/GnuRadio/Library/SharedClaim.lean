import GnuRadio.Library.Transition

/-! A claim that several holders share: it is granted once, takes requests while it is held, and is released once with
    the number of slots that were requested, which never exceeds the claim. -/

namespace SharedClaim

/-- What is done with a claim. -/
inductive Event
  | granted (offset size : Nat)
  | requested (n : Nat)
  | released (offset n : Nat)
  deriving DecidableEq, Repr

/-- A claim that is granted and not released. -/
structure Claim where
  offset : Nat
  size : Nat
  requested : Option Nat
  deriving DecidableEq, Repr

/-- A request beyond the claim is clamped. -/
def request (size : Nat) (requested : Option Nat) (n : Nat) : Nat :=
  requested.getD 0 + min n (size - requested.getD 0)

/-- What may happen while there is a claim, and while there is none: a request and a release that concern no claim move
    nothing. -/
inductive Next : Option Claim → Event → Option Claim → Prop
  | granted {offset size : Nat} : Next none (.granted offset size) (some ⟨offset, size, none⟩)
  | requested {c : Claim} {n : Nat} :
      Next (some c) (.requested n) (some { c with requested := some (request c.size c.requested n) })
  | released {offset size n : Nat} : Next (some ⟨offset, size, some n⟩) (.released offset n) none
  | requestedNothing {n : Nat} : Next none (.requested n) none
  | releasedNothing {offset : Nat} : Next none (.released offset 0) none

/-! ### The owner of the claim

The owner keeps the claim for its holders and counts them. A holder that was refused holds nothing of the claim. -/

/-- What the last holder to be destroyed requests where nothing was requested before: nothing, all, or it aborts. -/
inductive Policy
  | abort
  | all
  | nothing
  deriving DecidableEq, Repr

structure Owner where
  requested : Option Nat
  offset : Nat
  size : Nat
  count : Nat
  deriving DecidableEq, Repr

structure Holder where
  refused : Bool
  policy : Policy
  deriving DecidableEq, Repr

namespace Owner

def new : Owner := ⟨some 0, 0, 0, 0⟩

/-- A reservation, where a claim of `n` slots would end at `claimEnd` or is not to be had. -/
def reserve (o : Owner) (n : Nat) (policy : Policy) (claimEnd : Option Nat) : Owner × Holder × List Event :=
  if 0 < o.count then ({ o with count := o.count + 1 }, ⟨true, policy⟩, [])
  else if n = 0 then ({ o with requested := none, count := o.count + 1 }, ⟨false, policy⟩, [])
  else match claimEnd with
    | none => ({ o with requested := none, count := o.count + 1 }, ⟨false, policy⟩, [])
    | some claimEnd => (⟨none, claimEnd - n, n, o.count + 1⟩, ⟨false, policy⟩, [.granted (claimEnd - n) n])

def copy (o : Owner) : Owner := { o with count := o.count + 1 }

def publish (o : Owner) (h : Holder) (n : Nat) : Owner × List Event :=
  if h.refused then (o, [])
  else ({ o with requested := some (request o.size o.requested n) }, [.requested n])

/-- What the last holder finds to be requested; none where it aborts. -/
def decide (o : Owner) (h : Holder) : Option (Owner × List Event) :=
  if o.requested.isSome then some (o, [])
  else match h.policy with
    | .abort => none
    | .all => some (o.publish h o.size)
    | .nothing => some (o.publish h 0)

/-- The destruction of a holder. -/
def release (o : Owner) (h : Holder) : Option (Owner × List Event) :=
  let o := { o with count := o.count - 1 }
  if h.refused then some (o, [])
  else if o.count = 0 then (o.decide h).map fun (o, es) =>
    (⟨some 0, o.offset + o.requested.getD 0, 0, o.count⟩, es ++ [.released o.offset (o.requested.getD 0)])
  else some (o, [])

end Owner

/-- The owner stands for a claim that is still to be released by its holders, or for none. -/
def Owner.Represents (o : Owner) : Option Claim → Prop
  | none => o.size = 0 ∧ o.requested.getD 0 = 0
  | some c => c = ⟨o.offset, o.size, o.requested⟩ ∧ 0 < o.size ∧ 0 < o.count

open Transition.System (Accepts)

variable {o o' : Owner} {h : Holder} {f : Option Claim} {n : Nat} {es : List Event}

namespace Owner.Represents

theorem reserve (hr : o.Represents f) (n : Nat) (policy : Policy) (claimEnd : Option Nat) :
    ∃ f', Accepts Next f (o.reserve n policy claimEnd).2.2 f' ∧ (o.reserve n policy claimEnd).1.Represents f' := by
  unfold Owner.reserve
  split
  case isTrue hlive =>
    refine ⟨f, rfl, ?_⟩
    cases f with
    | none => exact hr
    | some c => exact ⟨hr.1, hr.2.1, Nat.succ_pos _⟩
  case isFalse hidle =>
    have hnone : f = none := by
      cases f with
      | none => rfl
      | some c => exact absurd hr.2.2 hidle
    subst hnone
    have hempty : ({ o with requested := none, count := o.count + 1 } : Owner).Represents none := ⟨hr.1, rfl⟩
    split
    · exact ⟨none, rfl, hempty⟩
    case isFalse hn =>
      cases claimEnd with
      | none => exact ⟨none, rfl, hempty⟩
      | some claimEnd =>
        exact ⟨some ⟨claimEnd - n, n, none⟩, .single .granted, rfl, Nat.pos_of_ne_zero hn, Nat.succ_pos _⟩

theorem copy (hr : o.Represents f) : o.copy.Represents f := by
  cases f with
  | none => exact hr
  | some c => exact ⟨hr.1, hr.2.1, Nat.succ_pos _⟩

theorem publish (hr : o.Represents f) (h : Holder) (n : Nat) :
    ∃ f', Accepts Next f (o.publish h n).2 f' ∧ (o.publish h n).1.Represents f' := by
  unfold Owner.publish
  split
  · exact ⟨f, rfl, hr⟩
  · cases f with
    | none =>
      refine ⟨none, .single .requestedNothing, hr.1, ?_⟩
      show o.requested.getD 0 + min n (o.size - o.requested.getD 0) = 0
      rw [hr.1, hr.2, Nat.zero_sub, Nat.min_zero]
    | some c =>
      obtain ⟨rfl, hsize, hcount⟩ := hr
      exact ⟨_, .single .requested, rfl, hsize, hcount⟩

/-- What the last holder does: where nothing was requested it requests, and it releases what was. -/
theorem commit (hrequested : o.requested.isSome) (hf : f = none ∧ o.requested.getD 0 = 0 ∨
    f = some ⟨o.offset, o.size, o.requested⟩) :
    Accepts Next f [.released o.offset (o.requested.getD 0)] none := by
  obtain ⟨n, hn⟩ := Option.isSome_iff_exists.mp hrequested
  rcases hf with ⟨rfl, hzero⟩ | rfl
  · rw [hzero]
    exact .single .releasedNothing
  · rw [hn]
    exact .single .released

/-- The request of a holder, apart from the count of the holders. -/
theorem request (hf : f = none ∧ o.size = 0 ∧ o.requested.getD 0 = 0 ∨ f = some ⟨o.offset, o.size, o.requested⟩)
    (hrefused : h.refused = false) (n : Nat) :
    ∃ f', Accepts Next f (o.publish h n).2 f' ∧ (o.publish h n).1.requested.isSome ∧
      (f' = none ∧ (o.publish h n).1.size = 0 ∧ (o.publish h n).1.requested.getD 0 = 0 ∨
        f' = some ⟨(o.publish h n).1.offset, (o.publish h n).1.size, (o.publish h n).1.requested⟩) := by
  have hpublish : o.publish h n =
      ({ o with requested := some (SharedClaim.request o.size o.requested n) }, [.requested n]) := by
    rw [Owner.publish, hrefused, if_neg Bool.false_ne_true]
  rw [hpublish]
  rcases hf with ⟨rfl, hsize, hzero⟩ | rfl
  · refine ⟨none, .single .requestedNothing, rfl, Or.inl ⟨rfl, hsize, ?_⟩⟩
    show o.requested.getD 0 + min n (o.size - o.requested.getD 0) = 0
    rw [hsize, hzero, Nat.zero_sub, Nat.min_zero]
  · exact ⟨_, .single .requested, rfl, Or.inr rfl⟩

/-- A holder that is destroyed leaves the claim to the others, or releases it as the last one. -/
theorem release (hr : o.Represents f) (hlast : h.refused = true → o.count = 1 → o.size = 0)
    (hs : o.release h = some (o', es)) : ∃ f', Accepts Next f es f' ∧ o'.Represents f' := by
  have hleft (hstays : f = none ∨ 1 < o.count) : ({ o with count := o.count - 1 } : Owner).Represents f := by
    cases f with
    | none => exact hr
    | some c =>
      rcases hstays with hf | hcount
      · cases hf
      · exact ⟨hr.1, hr.2.1, Nat.sub_pos_of_lt hcount⟩
  simp only [Owner.release] at hs
  split at hs
  case isTrue hrefused =>
    cases hs
    refine ⟨f, rfl, hleft ?_⟩
    cases f with
    | none => exact Or.inl rfl
    | some c =>
      obtain ⟨-, hsize, hcount⟩ := hr
      have := hlast hrefused
      exact Or.inr (by omega)
  case isFalse hrefused =>
    rw [Bool.not_eq_true] at hrefused
    split at hs
    case isTrue hcount =>
      obtain ⟨⟨decided, asked⟩, hdecide, hcommit⟩ := Option.map_eq_some_iff.mp hs
      cases hcommit
      have hclaim : f = none ∧ o.size = 0 ∧ o.requested.getD 0 = 0 ∨ f = some ⟨o.offset, o.size, o.requested⟩ := by
        cases f with
        | none => exact Or.inl ⟨rfl, hr⟩
        | some c => exact Or.inr (congrArg some hr.1)
      obtain ⟨f', haccepts, hsome, hf'⟩ : ∃ f', Accepts Next f asked f' ∧ decided.requested.isSome ∧
          (f' = none ∧ decided.size = 0 ∧ decided.requested.getD 0 = 0 ∨
            f' = some ⟨decided.offset, decided.size, decided.requested⟩) := by
        simp only [decide] at hdecide
        split at hdecide
        case isTrue hsome =>
          cases hdecide
          exact ⟨f, rfl, hsome, hclaim⟩
        case isFalse =>
          split at hdecide
          · cases hdecide
          · obtain ⟨rfl, rfl⟩ := Prod.ext_iff.mp (Option.some.inj hdecide)
            exact request (o := { o with count := o.count - 1 }) hclaim hrefused _
          · obtain ⟨rfl, rfl⟩ := Prod.ext_iff.mp (Option.some.inj hdecide)
            exact request (o := { o with count := o.count - 1 }) hclaim hrefused _
      refine ⟨none, haccepts.append (commit hsome ?_), rfl, rfl⟩
      rcases hf' with ⟨rfl, -, hzero⟩ | rfl
      · exact Or.inl ⟨rfl, hzero⟩
      · exact Or.inr rfl
    case isFalse hcount =>
      cases hs
      exact ⟨f, rfl, hleft (Or.inr (by omega))⟩

end Owner.Represents

end SharedClaim
