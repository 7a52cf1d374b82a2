import GnuRadio.Buffer.WriterClaims

/-! Each claim of a writer is released once, with what was requested, unless a refused reservation is the last span to
    be destroyed. Both buffers' writers are owners of a shared claim (Library/SharedClaim.lean). -/

namespace GnuRadio.WriterClaims

open CircularBuffer (SpanReleasePolicy WriterSpan)
open SharedClaim (Claim Event Holder Next Owner Policy)
open Transition.System (Accepts)

variable {W : Type} {c : Calls W} {view : W → Owner} {s : State W} {es : List Event}

/-! ### The writers as owners -/

def policy : SpanReleasePolicy → Policy
  | .terminate => .abort
  | .processAll => .all
  | .processNone => .nothing

def holder (span : WriterSpan) : Holder := ⟨span.isRefused, policy span.policy⟩

/-- A writer does what an owner does. -/
structure Calls.Owns (c : Calls W) (view : W → Owner) : Prop where
  new : view c.new = .new
  instanceCount : ∀ w, c.instanceCount w = (view w).count
  claimSize : ∀ w, c.claimSize w = (view w).size
  reserve : ∀ w n p e, (view (c.reserve w n p e).1, holder (c.reserve w n p e).2.1, (c.reserve w n p e).2.2) =
    (view w).reserve n (policy p) e
  copy : ∀ w, view (c.copy w) = (view w).copy
  publish : ∀ span w n, (view (c.publish span w n).1, (c.publish span w n).2) = (view w).publish (holder span) n
  release : ∀ span w, (c.release span w).map (fun r => (view r.1, r.2)) = (view w).release (holder span)

namespace Circular

open CircularBuffer (Layout BufferImpl Writer)

def toOwner (w : Writer) : Owner := ⟨w.nRequestedSamplesToPublish, w.offset, w.internalSpan.size, w.instanceCount⟩

theorem publish_owner (span : WriterSpan) (w : Writer) (n : Nat) :
    (toOwner (publish span w n).1, (publish span w n).2) = (toOwner w).publish (holder span) n := by
  obtain ⟨refused, p⟩ := span
  cases refused <;> rfl

theorem release_owner (span : WriterSpan) (w : Writer) :
    (release span w).map (fun r => (toOwner r.1, r.2)) = (toOwner w).release (holder span) := by
  obtain ⟨refused, p⟩ := span
  cases refused with
  | true => rfl
  | false =>
    by_cases hlast : w.instanceCount - 1 = 0
    · cases hrequested : w.nRequestedSamplesToPublish with
      | some n => simp [release, requested, Owner.release, Owner.decide, holder, toOwner, hlast, hrequested]
      | none =>
        cases p <;>
          simp [release, requested, publish, WriterSpan.publish, Owner.release, Owner.decide, Owner.publish, holder, policy,
            toOwner, hlast, hrequested, SharedClaim.request]
    · simp [release, Owner.release, holder, toOwner, hlast]

theorem owns (size : Nat) : (circularBuffer size).Owns toOwner where
  new := rfl
  instanceCount _ := rfl
  claimSize _ := rfl
  reserve w n p e := by
    by_cases hlive : 0 < w.instanceCount
    · simp only [circularBuffer, reserve, Owner.reserve, toOwner, hlive, if_true, holder]
    · by_cases hn : n = 0
      · simp only [circularBuffer, reserve, Owner.reserve, toOwner, if_neg hlive, if_pos hn, holder]
      · cases e <;> simp only [circularBuffer, reserve, Owner.reserve, toOwner, if_neg hlive, if_neg hn, holder]
  copy _ := rfl
  publish := publish_owner
  release := release_owner

end Circular

namespace Segmented

open SegmentedBuffer (Writer)

def toOwner (w : Writer) : Owner := ⟨w.nRequestedSamplesToPublish, w.claimOffset, w.claimSize, w.instanceCount⟩

theorem publish_owner (span : WriterSpan) (w : Writer) (n : Nat) :
    (toOwner (publish span w n).1, (publish span w n).2) = (toOwner w).publish (holder span) n := by
  obtain ⟨refused, p⟩ := span
  cases refused <;> rfl

theorem release_owner (span : WriterSpan) (w : Writer) :
    (release span w).map (fun r => (toOwner r.1, r.2)) = (toOwner w).release (holder span) := by
  obtain ⟨refused, p⟩ := span
  cases refused with
  | true => rfl
  | false =>
    by_cases hlast : w.instanceCount - 1 = 0
    · cases hrequested : w.nRequestedSamplesToPublish with
      | some n => simp [release, requested, Owner.release, Owner.decide, holder, toOwner, hlast, hrequested, Writer.published]
      | none =>
        cases p <;>
          simp [release, requested, publish, SegmentedBuffer.publish, Owner.release, Owner.decide, Owner.publish, holder, policy,
            toOwner, hlast, hrequested, SharedClaim.request, Writer.published]
    · simp [release, Owner.release, holder, toOwner, hlast]

theorem owns : segmentedBuffer.Owns toOwner where
  new := rfl
  instanceCount _ := rfl
  claimSize _ := rfl
  reserve w n p e := by
    by_cases hlive : 0 < w.instanceCount
    · simp only [segmentedBuffer, claim, Owner.reserve, toOwner, hlive, if_true, holder]
    · by_cases hn : n = 0
      · simp only [segmentedBuffer, claim, Owner.reserve, toOwner, if_neg hlive, if_pos hn, holder]
      · cases e <;> simp only [segmentedBuffer, claim, Owner.reserve, toOwner, if_neg hlive, if_neg hn, holder]
  copy _ := rfl
  publish := publish_owner
  release := release_owner

end Segmented

/-! ### Runs -/

/-- A refused reservation is not the last span of a claim to be destroyed. -/
def ReleasedByHolder (c : Calls W) (s : State W) : Act → Prop
  | .release k => ∀ span ∈ s.spans[k]?, span.isRefused = true → c.instanceCount s.writer = 1 →
    c.claimSize s.writer = 0
  | _ => True

instance (c : Calls W) (s : State W) : ∀ a, Decidable (ReleasedByHolder c s a)
  | .release k => inferInstanceAs (Decidable (∀ span ∈ s.spans[k]?, _))
  | .reserve .. | .copy _ | .publish .. => .isTrue trivial

/-- The writer counts its live spans, and holds the claim that its spans are still to release. -/
structure Represents (view : W → Owner) (s : State W) (f : Option Claim) : Prop where
  claim : (view s.writer).Represents f
  count : (view s.writer).count = s.spans.length

theorem Owner.count_reserve (o : Owner) (n : Nat) (p : Policy) (e : Option Nat) :
    (o.reserve n p e).1.count = o.count + 1 := by
  unfold Owner.reserve
  split
  · rfl
  · split
    · rfl
    · cases e <;> rfl

theorem Owner.count_publish (o : Owner) (h : Holder) (n : Nat) : (o.publish h n).1.count = o.count := by
  unfold Owner.publish
  split <;> rfl

theorem Owner.count_release {o o' : Owner} {h : Holder} (hs : o.release h = some (o', es)) : o'.count = o.count - 1 := by
  simp only [Owner.release] at hs
  split at hs
  · cases hs
    rfl
  · split at hs
    case isTrue hcount =>
      obtain ⟨⟨decided, asked⟩, hdecide, hcommit⟩ := Option.map_eq_some_iff.mp hs
      cases hcommit
      show decided.count = o.count - 1
      simp only [Owner.decide] at hdecide
      split at hdecide
      · cases hdecide
        rfl
      · split at hdecide
        · cases hdecide
        · obtain ⟨rfl, -⟩ := Prod.ext_iff.mp (Option.some.inj hdecide)
          exact Owner.count_publish ..
        · obtain ⟨rfl, -⟩ := Prod.ext_iff.mp (Option.some.inj hdecide)
          exact Owner.count_publish ..
    case isFalse =>
      cases hs
      rfl

theorem Represents.apply (ho : c.Owns view) {f : Option Claim} (hr : Represents view s f) {a : Act} {t : State W}
    (hok : ReleasedByHolder c s a) (hs : c.apply s a = some (t, es)) :
    ∃ f', Accepts Next f es f' ∧ Represents view t f' := by
  cases a with
  | reserve n p e =>
    cases hs
    have hcall := ho.reserve s.writer n p e
    simp only [Prod.ext_iff] at hcall
    obtain ⟨f', haccepts, hr'⟩ := hr.claim.reserve n (policy p) e
    rw [← hcall.2.2] at haccepts
    refine ⟨f', haccepts, ?_, ?_⟩
    · rwa [hcall.1]
    · show (view (c.reserve s.writer n p e).1).count = (s.spans ++ [_]).length
      rw [hcall.1, Owner.count_reserve, hr.count, List.length_append, List.length_singleton]
  | copy k =>
    obtain ⟨span, -, hcopy⟩ := Option.map_eq_some_iff.mp hs
    cases hcopy
    refine ⟨f, rfl, ?_, ?_⟩
    · show (view (c.copy s.writer)).Represents f
      rw [ho.copy]
      exact hr.claim.copy
    · show (view (c.copy s.writer)).count = (s.spans ++ [_]).length
      rw [ho.copy, List.length_append, List.length_singleton]
      exact congrArg (· + 1) hr.count
  | publish k n =>
    obtain ⟨span, -, hpublish⟩ := Option.map_eq_some_iff.mp hs
    cases hpublish
    have hcall := ho.publish span s.writer n
    simp only [Prod.ext_iff] at hcall
    obtain ⟨f', haccepts, hr'⟩ := hr.claim.publish (holder span) n
    rw [← hcall.2] at haccepts
    refine ⟨f', haccepts, ?_, ?_⟩
    · rwa [hcall.1]
    · rw [hcall.1, Owner.count_publish]
      exact hr.count
  | release k =>
    obtain ⟨span, hspan, hrelease⟩ := Option.bind_eq_some_iff.mp hs
    obtain ⟨⟨w, es'⟩, hw, hstate⟩ := Option.map_eq_some_iff.mp hrelease
    cases hstate
    have hcall := ho.release span s.writer
    rw [hw] at hcall
    have hlast : (holder span).refused = true → (view s.writer).count = 1 → (view s.writer).size = 0 := by
      rw [← ho.instanceCount, ← ho.claimSize]
      exact hok span hspan
    obtain ⟨f', haccepts, hr'⟩ := hr.claim.release hlast hcall.symm
    refine ⟨f', haccepts, hr', ?_⟩
    obtain ⟨hk, -⟩ := List.getElem?_eq_some_iff.mp hspan
    show (view w).count = (s.spans.eraseIdx k).length
    rw [Owner.count_release hcall.symm, hr.count, List.length_eraseIdx_of_lt hk]

theorem released (ho : c.Owns view) (ht : c.system.Trace (ReleasedByHolder c) c.events es s) :
    ∃ f, Accepts Next none es f ∧ (s.spans = [] → f = none) := by
  obtain ⟨f, haccepts, hr⟩ := ht.simulates (R := Represents view) (f := none)
    (fun s hs => by
      cases hs
      refine ⟨?_, ?_⟩
      · show (view c.new).Represents none
        rw [ho.new]
        exact ⟨rfl, rfl⟩
      · show (view c.new).count = 0
        rw [ho.new]
        rfl)
    fun s a t f hr hok hs => by
      obtain ⟨⟨t', es⟩, happly, hfst⟩ := Option.map_eq_some_iff.mp hs
      cases hfst
      have hevents : c.events s a = es := by rw [Calls.events, happly, Option.map_some, Option.getD_some]
      rw [hevents]
      exact hr.apply ho hok happly
  refine ⟨f, haccepts, fun hnil => ?_⟩
  cases f with
  | none => rfl
  | some claim =>
    have hcount := hr.claim.2.2
    rw [hr.count, hnil] at hcount
    cases hcount

/-- Each claim of a writer of either buffer is released once, with the slots that were requested. -/
theorem claims_released (size : Nat) :
    (∀ es s, (circularBuffer size).system.Trace (ReleasedByHolder (circularBuffer size)) (circularBuffer size).events
      es s → ∃ f, Accepts Next none es f ∧ (s.spans = [] → f = none)) ∧
    ∀ es s, segmentedBuffer.system.Trace (ReleasedByHolder segmentedBuffer) segmentedBuffer.events es s →
      ∃ f, Accepts Next none es f ∧ (s.spans = [] → f = none) :=
  ⟨fun _ _ ht => released (Circular.owns size) ht, fun _ _ ht => released Segmented.owns ht⟩

/-- A claim of two slots with a copied span, a nested reservation that is refused and destroyed before them, and requests
    for three slots. -/
def nested : List Act :=
  [.reserve 2 .processNone (some 2), .copy 0, .reserve 1 .processAll none, .publish 0 1, .publish 1 2, .release 2,
    .release 0, .release 0]

theorem claims_released_nested :
    ∃ f, Accepts Next none [.granted 0 2, .requested 1, .requested 2, .released 0 2] f ∧ (([] : List WriterSpan) = [] → f = none) := by
  have htrace : (circularBuffer 4).system.Trace (ReleasedByHolder (circularBuffer 4)) (circularBuffer 4).events
      [.granted 0 2, .requested 1, .requested 2, .released 0 2] ⟨⟨some 0, 0, 2, ⟨0, 0⟩, 0⟩, []⟩ :=
    have hstart : (circularBuffer 4).system.start ⟨.new, []⟩ := rfl
    (circularBuffer 4).system.trace_get nested hstart (by decide) rfl
  exact (claims_released 4).1 _ _ htrace

/-- The nested reservation is destroyed last. -/
def refusedLast : List Act := [.reserve 1 .processAll (some 1), .reserve 1 .processAll none, .release 0, .release 0]

/-- The claim is never released. -/
theorem refusedLast_swallows : ¬ ∀ size, ((∀ es s,
      (circularBuffer size).system.Trace (fun _ _ => True) (circularBuffer size).events es s →
        ∃ f, Accepts Next none es f ∧ (s.spans = [] → f = none)) ∧
    ∀ es s, segmentedBuffer.system.Trace (fun _ _ => True) segmentedBuffer.events es s →
      ∃ f, Accepts Next none es f ∧ (s.spans = [] → f = none)) := by
  intro hall
  have htrace : segmentedBuffer.system.Trace (fun _ _ => True) segmentedBuffer.events [.granted 0 1]
      ⟨⟨none, 0, 1, 0⟩, []⟩ :=
    have hstart : segmentedBuffer.system.start ⟨.new, []⟩ := rfl
    segmentedBuffer.system.trace_get refusedLast hstart (Transition.System.meets_true _ _) rfl
  obtain ⟨f, ⟨u, hgranted, rfl⟩, hnone⟩ := (hall 1).2 _ _ htrace
  cases hnone rfl
  cases hgranted

end GnuRadio.WriterClaims
