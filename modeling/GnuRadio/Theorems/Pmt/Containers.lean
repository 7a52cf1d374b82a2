import GnuRadio.Pmt.Containers
import GnuRadio.Theorems.Pmt.Conversion
import GnuRadio.Theorems.Tensor.Views

/-! When the conversions of a list of numbers do not depend on how a value holds it and on whether the value is moved. -/

namespace GnuRadio.Pmt.Containers

open Fallible
open ExtentsStore (take_copy)
open Tensor (Represents)
open Yaml (FloatType IntType)

variable {platform : Platform} {S D : ElementType} {P : ConversionPolicy} {R : RankPolicy}

/-! ### Casts -/

theorem castInteger_val {T : IntType} (n : Integer T) : castInteger T n.val = n := (castInteger_eq_iff n.property).mpr rfl

theorem castFloat_self {T : FloatType} (x : Floating T) : castFloat platform x T = x := by
  simp [castFloat]

/-- A cast of a value to its own type gives the value. -/
theorem staticCast_self (S : ElementType) (x : S.Val) : staticCast platform S S x = x := by
  match S, x with
  | .bool, false => rfl
  | .bool, true => rfl
  | .number (.integer _), n => exact castInteger_val n
  | .number (.floating _), x => exact castFloat_self x
  | .number (.complex _), x => exact Prod.ext (castFloat_self x.1) (castFloat_self x.2)

/-! ### The types that are tried -/

/-- Only types that the traits allow are tried. -/
theorem conversionAllowed_of_takes (h : Takes S D P) : conversionAllowed S D P = true := by
  obtain rfl | htried := h
  · simp [conversionAllowed]
  · have hall : ∀ X ∈ tried D P, conversionAllowed X D P = true := by
      cases D with
      | bool => cases P <;> decide
      | number T =>
        cases T with
        | integer t | floating t | complex t => cases t <;> cases P <;> decide
    exact hall S htried

/-! ### The elements of a sequence -/

theorem getIf_scalar (T : ElementType) (x : T.Val) : (Element.scalar T x).getIf T = some x := by
  simp [Element.getIf]

theorem getIf_scalar_of_ne {T : ElementType} (h : S ≠ T) (x : S.Val) : (Element.scalar S x).getIf T = none := by
  rw [Element.getIf, dif_neg h]

/-- The chain finds a scalar at its type, and nowhere else. -/
theorem findSome?_scalar {types : List ElementType} (x : S.Val) :
    (types.findSome? fun T => ((Element.scalar S x).getIf T).map (staticCast platform T D)) =
      if S ∈ types then some (staticCast platform S D x) else none := by
  induction types with
  | nil => rfl
  | cons T types ih =>
    by_cases hT : S = T
    · subst hT
      simp [getIf_scalar]
    · rw [List.findSome?_cons, getIf_scalar_of_ne hT, Option.map_none, ih]
      simp [hT]

theorem tryConvertElement_of_takes (h : Takes S D P) (x : S.Val) (idx : Nat) :
    tryConvertElement platform D P (.scalar S x) idx = .ok (staticCast platform S D x) := by
  by_cases heq : S = D
  · subst heq
    rw [tryConvertElement, getIf_scalar, staticCast_self]
  · have htried : S ∈ tried D P := h.resolve_left heq
    rw [tryConvertElement, getIf_scalar_of_ne heq]
    dsimp only
    rw [findSome?_scalar, if_pos htried]

theorem tryConvertElement_of_not_takes (h : ¬ Takes S D P) (x : S.Val) (idx : Nat) :
    tryConvertElement platform D P (.scalar S x) idx = .error (.error (.elementTypeMismatch idx)) := by
  have heq : S ≠ D := fun heq => h (Or.inl heq)
  have htried : S ∉ tried D P := fun htried => h (Or.inr htried)
  rw [tryConvertElement, getIf_scalar_of_ne heq]
  dsimp only
  rw [findSome?_scalar, if_neg htried]

variable {u : Tensor Element} {elements : List S.Val}

theorem convertElements_of_takes (hu : u.data = elements.map (.scalar S)) (h : elements = [] ∨ Takes S D P) :
    convertElements platform D P u = .ok (elements.map (staticCast platform S D)) := by
  rw [convertElements, hu]
  suffices hfrom : ∀ n, ((elements.map (Element.scalar S)).zipIdx n).mapM
      (fun elem => tryConvertElement platform D P elem.1 elem.2) = .ok (elements.map (staticCast platform S D)) from hfrom 0
  clear hu
  induction elements with
  | nil => exact fun n => rfl
  | cons x elements ih =>
    intro n
    have htakes : Takes S D P := h.resolve_left (List.cons_ne_nil _ _)
    rw [List.map_cons, List.zipIdx_cons, List.mapM_cons, tryConvertElement_of_takes htakes, ih (Or.inr htakes) (n + 1)]
    rfl

theorem convertElements_of_not_takes (hu : u.data = elements.map (.scalar S)) (hne : elements ≠ []) (h : ¬ Takes S D P) :
    convertElements platform D P u = .error (.error (.elementTypeMismatch 0)) := by
  obtain ⟨x, elements, rfl⟩ := List.exists_cons_of_ne_nil hne
  rw [convertElements, hu, List.map_cons, List.zipIdx_cons, List.mapM_cons, tryConvertElement_of_not_takes h]
  rfl

/-! ### How a conversion ends -/

variable {T : Target} {α : Type}

/-- The conversion gives what is observed under a condition, and fails without it. -/
structure Gives (outcome : Except Failure (T.Val α)) (Condition : Prop) (observed : List Nat × List α) : Prop where
  ok : Condition → ∃ y, outcome = .ok y ∧ T.read y = observed
  failed : ¬ Condition → ∃ failure, outcome = .error failure ∧ failure ≠ .pastArray

variable {C Q : Prop}

theorem Gives.same_iff {o o' : Except Failure (T.Val α)} {observed : List Nat × List α}
    (h : Gives o C observed) (h' : Gives o' Q observed) : Same o o' ↔ (C ↔ Q) := by
  by_cases hC : C <;> by_cases hQ : Q
  · obtain ⟨y, rfl, hy⟩ := h.ok hC
    obtain ⟨z, rfl, hz⟩ := h'.ok hQ
    exact iff_of_true (hy.trans hz.symm) (iff_of_true hC hQ)
  · obtain ⟨y, rfl, -⟩ := h.ok hC
    obtain ⟨f, rfl, -⟩ := h'.failed hQ
    exact iff_of_false id fun hiff => hQ (hiff.mp hC)
  · obtain ⟨f, rfl, -⟩ := h.failed hC
    obtain ⟨z, rfl, -⟩ := h'.ok hQ
    exact iff_of_false id fun hiff => hC (hiff.mpr hQ)
  · obtain ⟨f, rfl, hf⟩ := h.failed hC
    obtain ⟨g, rfl, hg⟩ := h'.failed hQ
    exact iff_of_true ⟨hf, hg⟩ (iff_of_false hC hQ)

variable {o : Except Failure (T.Val α)}

theorem Gives.congr {observed : List Nat × List α}
    (h : Gives o C observed) (hiff : Q ↔ C) : Gives o Q observed :=
  ⟨fun hC => h.ok (hiff.mp hC), fun hC => h.failed fun h => hC (hiff.mpr h)⟩

variable {rest : Except Failure (T.Val α)}

/-- A check before a conversion is one more condition. -/
theorem Gives.check {check : Except Failure Unit}
    {observed : List Nat × List α} (hok : C → check = .ok ()) (herror : ¬ C → ∃ kind, check = .error (.error kind))
    (h : C → Gives rest Q observed) : Gives (check >>= fun _ => rest) (C ∧ Q) observed where
  ok hC := by
    rw [hok hC.1]
    exact (h hC.1).ok hC.2
  failed hC := by
    by_cases hcheck : C
    · rw [hok hcheck]
      exact (h hcheck).failed fun h => hC ⟨hcheck, h⟩
    · obtain ⟨kind, hkind⟩ := herror hcheck
      rw [hkind]
      exact ⟨.error kind, rfl, nofun⟩

theorem Gives.pure {y : T.Val α} {observed : List Nat × List α} (h : T.read y = observed) :
    Gives (T := T) (.ok y) True observed :=
  ⟨fun _ => ⟨y, rfl, h⟩, fun h => absurd trivial h⟩

theorem Gives.guard {bad : Prop} [Decidable bad] {kind : ErrorKind}
    {observed : List Nat × List α} (hC : C ↔ ¬ bad) (h : C → Gives rest Q observed) :
    Gives ((if bad then .error (.error kind) else .ok () : Except Failure Unit) >>= fun _ => rest) (C ∧ Q) observed :=
  .check (fun h => if_neg (hC.mp h)) (fun h => ⟨kind, if_pos (not_not.mp (mt hC.mpr h))⟩) h

variable {C : Prop}

/-- The last check of a conversion. -/
theorem Gives.last {bad : Prop} [Decidable bad] {kind : ErrorKind}
    {observed : List Nat × List α} (hC : C ↔ ¬ bad) (h : C → ∃ y, rest = .ok y ∧ T.read y = observed) :
    Gives ((if bad then .error (.error kind) else .ok () : Except Failure Unit) >>= fun _ => rest) C observed := by
  refine .congr (.guard (Q := True) hC fun hok => ?_) (iff_of_eq (and_true C).symm)
  obtain ⟨y, rfl, hy⟩ := h hok
  exact .pure hy

theorem strict_iff {p : Prop} [Decidable p] : (R = .strict → p) ↔ ¬ (R = .strict ∧ ¬ p) := by
  rw [not_and, not_not]

/-! ### New tensors -/

variable {extents : List Nat}

theorem resizedTo_of_counted (h : Target.dynamic.Counted extents) (mr : Nat) :
    ∃ t, resizedTo D mr extents = .ok t ∧ t.extents = extents := by
  unfold resizedTo Tensor.resize
  by_cases hnil : extents = []
  · subst hnil
    exact ⟨_, rfl, rfl⟩
  · obtain ⟨n, hn⟩ := Option.isSome_iff_exists.mp (h.resolve_left hnil)
    rw [if_neg hnil, hn]
    exact ⟨_, rfl, ExtentsStore.extents_setExtents extents⟩

theorem resizedTo_of_not_counted (h : ¬ Target.dynamic.Counted extents) (mr : Nat) :
    resizedTo D mr extents = .error .exception := by
  rw [Target.Counted, not_or, Bool.not_eq_true, Option.isSome_eq_false_iff, Option.isNone_iff_eq_none] at h
  unfold resizedTo Tensor.resize
  rw [if_neg h.1, h.2]
  rfl

theorem fromExtents_of_fits {rank : Nat} (hrank : extents.length ≤ kMaxRank) (h : extents.length = rank)
    (hproduct : (Tensor.product extents).isSome = true) : fromExtents rank extents = .ok ⟨extents, h⟩ := by
  obtain ⟨n, hn⟩ := Option.isSome_iff_exists.mp hproduct
  rw [fromExtents, if_neg (Nat.not_lt.mpr hrank), dif_pos h, hn]

theorem fromExtents_of_not_fits {rank : Nat}
    (h : ¬ (extents.length = rank ∧ (Tensor.product extents).isSome = true)) :
    fromExtents rank extents = .error .exception := by
  unfold fromExtents
  split
  · rfl
  · split
    · next hrank =>
      cases hproduct : Tensor.product extents with
      | none => rfl
      | some n => exact absurd ⟨hrank, by rw [hproduct]; rfl⟩ h
    · rfl

theorem toArray_of_length {N : Nat} {elements : List α} (h : elements.length = N) : toArray N elements = .ok ⟨elements, h⟩ :=
  dif_pos h

/-! ### From a tensor of one type -/

/-- What is observed of a container with the elements. -/
def Target.observed (extents : List Nat) (elements : List α) : Target → List Nat × List α
  | .vector | .array _ => ([elements.length], elements)
  | .dynamic | .partlyStatic _ _ => (extents, elements)
  | .static dstExtents _ => (dstExtents, elements)

variable {t : Tensor S.Val} {x : Shaped S.Val} {mr : Nat}

theorem castElements_eq (h : Represents t x) : castElements platform D t = x.elements.map (staticCast platform S D) := by
  rw [castElements, h.data]

theorem Gives.types {observed : List Nat × List α}
    (h : Gives rest C observed) :
    Gives (checkTypes S D P >>= fun _ => rest) (conversionAllowed S D P = true ∧ C) observed := by
  refine .check (fun hallowed => if_pos hallowed) (fun hallowed => ⟨refusal S D, if_neg hallowed⟩) fun _ => h

theorem length_cast (x : Shaped S.Val) : (x.elements.map (staticCast platform S D)).length = x.elements.length :=
  List.length_map _

theorem vector_gives (h : Represents t x) :
    Gives (T := .vector) (tensorToTensor platform D P R mr .vector t)
      (conversionAllowed S D P = true ∧ Target.vector.Fits R x.extents x.elements.length)
      (Target.vector.observed x.extents (x.elements.map (staticCast platform S D))) := by
  refine .types ?_
  rw [h.rank, castElements_eq h]
  exact .last strict_iff fun _ => ⟨_, rfl, rfl⟩

theorem array_gives {N : Nat} (h : Represents t x) :
    Gives (T := .array N) (tensorToTensor platform D P R mr (.array N) t)
      (conversionAllowed S D P = true ∧ (Target.array N).Fits R x.extents x.elements.length)
      ((Target.array N).observed x.extents (x.elements.map (staticCast platform S D))) := by
  refine .types ?_
  rw [h.rank, h.size, castElements_eq h]
  refine .guard strict_iff fun _ => .last not_not.symm fun hsize => ?_
  exact ⟨_, toArray_of_length ((length_cast x).trans hsize), rfl⟩

theorem dynamic_gives (h : Represents t x) :
    Gives (T := .dynamic) (tensorToTensor platform D P R mr .dynamic t)
      (conversionAllowed S D P = true ∧ (S = D ∨ Target.dynamic.Counted x.extents))
      (Target.dynamic.observed x.extents (x.elements.map (staticCast platform S D))) := by
  refine .types ?_
  rw [castElements_eq h, h.extents]
  by_cases heq : S = D
  · rw [if_pos heq]
    refine .congr (.pure ?_) (iff_of_true (Or.inl heq) trivial)
    exact Prod.ext h.extents rfl
  · rw [if_neg heq]
    constructor
    · rintro (hself | hcounted)
      · exact absurd hself heq
      · obtain ⟨result, hresult, hextents⟩ := resizedTo_of_counted (D := D) hcounted mr
        rw [hresult]
        exact ⟨_, rfl, Prod.ext hextents rfl⟩
    · intro hnot
      rw [resizedTo_of_not_counted (D := D) (fun hcounted => hnot (Or.inr hcounted)) mr]
      exact ⟨.exception, rfl, nofun⟩

variable {dstExtents : List (Option Nat)}

theorem counted_iff_of_partlyStatic {some_dynamic : none ∈ dstExtents}
    (h : extents.length = dstExtents.length) :
    (Target.partlyStatic dstExtents some_dynamic).Counted extents ↔ (Tensor.product extents).isSome = true := by
  have hne : extents ≠ [] := by
    rintro rfl
    rw [List.eq_nil_of_length_eq_zero h.symm] at some_dynamic
    cases some_dynamic
  exact or_iff_right hne

/-- The extents of a tensor with a rank that is no other than the list's. -/
theorem fromExtents_gives {some_dynamic : none ∈ dstExtents} {x : Shaped α}
    {rest : { extents : List Nat // extents.length = dstExtents.length } →
      Except Failure ((Target.partlyStatic dstExtents some_dynamic).Val β)} {observed : List Nat × List β}
    (h : ∀ hlen : x.extents.length = dstExtents.length,
      Gives (T := .partlyStatic dstExtents some_dynamic) (rest ⟨x.extents, hlen⟩) C observed) :
    Gives (T := .partlyStatic dstExtents some_dynamic)
      ((if R = .strict ∧ x.extents.length ≠ dstExtents.length then .error (.error .rankMismatch) else .ok () :
        Except Failure Unit) >>= fun _ => fromExtents dstExtents.length x.extents >>= rest)
      ((Target.partlyStatic dstExtents some_dynamic).Fits R x.extents x.elements.length ∧
        (Target.partlyStatic dstExtents some_dynamic).Counted x.extents ∧ C) observed := by
  constructor
  · rintro ⟨hlen, hcounted, hC⟩
    rw [if_neg fun hbad => hbad.2 hlen,
      fromExtents_of_fits x.rank_le hlen ((counted_iff_of_partlyStatic hlen).mp hcounted)]
    exact (h hlen).ok hC
  · intro hnot
    by_cases hbad : R = .strict ∧ x.extents.length ≠ dstExtents.length
    · rw [if_pos hbad]
      exact ⟨.error .rankMismatch, rfl, nofun⟩
    rw [if_neg hbad]
    by_cases hfits : x.extents.length = dstExtents.length ∧ (Tensor.product x.extents).isSome = true
    · obtain ⟨hlen, hproduct⟩ := hfits
      have hcounted : (Target.partlyStatic dstExtents some_dynamic).Counted x.extents :=
        (counted_iff_of_partlyStatic hlen).mpr hproduct
      rw [fromExtents_of_fits x.rank_le hlen hproduct]
      exact (h hlen).failed fun hC => hnot ⟨hlen, hcounted, hC⟩
    · rw [fromExtents_of_not_fits hfits]
      exact ⟨.exception, rfl, nofun⟩

theorem partlyStatic_gives {some_dynamic : none ∈ dstExtents} (h : Represents t x) :
    Gives (T := .partlyStatic dstExtents some_dynamic)
      (tensorToTensor platform D P R mr (.partlyStatic dstExtents some_dynamic) t)
      (conversionAllowed S D P = true ∧ (Target.partlyStatic dstExtents some_dynamic).Fits R x.extents x.elements.length ∧
        (Target.partlyStatic dstExtents some_dynamic).Counted x.extents)
      ((Target.partlyStatic dstExtents some_dynamic).observed x.extents (x.elements.map (staticCast platform S D))) := by
  refine .types ?_
  rw [h.rank, h.extents, castElements_eq h]
  refine .congr (fromExtents_gives fun hlen => .pure rfl) ?_
  rw [and_true]

theorem static_gives {dstExtents : List Nat} {ne_nil : dstExtents ≠ []} (h : Represents t x) :
    Gives (T := .static dstExtents ne_nil) (tensorToTensor platform D P R mr (.static dstExtents ne_nil) t)
      (conversionAllowed S D P = true ∧ (Target.static dstExtents ne_nil).Fits R x.extents x.elements.length ∧
        (Target.static dstExtents ne_nil).ExtentsFit R x.extents)
      ((Target.static dstExtents ne_nil).observed x.extents (x.elements.map (staticCast platform S D))) := by
  refine .types ?_
  rw [h.rank, h.size, h.extents, castElements_eq h]
  refine .congr (.guard strict_iff fun _ => .guard strict_iff fun _ => .last not_not.symm fun hsize => ?_) ?_
  · exact ⟨_, toArray_of_length ((length_cast x).trans hsize), rfl⟩
  · rw [Target.Fits, Target.ExtentsFit, and_assoc, and_comm (a := x.elements.length = _)]

/-- What the target takes of a list that a tensor of its own type holds. -/
def Target.FitsTyped (S D : ElementType) (R : RankPolicy) (extents : List Nat) (size : Nat) (target : Target) : Prop :=
  target.Fits R extents size ∧ target.ExtentsFit R extents ∧ (S = D ∧ target = .dynamic ∨ target.Counted extents)

theorem tensorToTensor_gives (h : Represents t x) (target : Target) :
    Gives (tensorToTensor platform D P R mr target t)
      (conversionAllowed S D P = true ∧ target.FitsTyped S D R x.extents x.elements.length)
      (target.observed x.extents (x.elements.map (staticCast platform S D))) := by
  cases target with
  | vector => exact (vector_gives h).congr (by simp [Target.FitsTyped, Target.ExtentsFit, Target.Counted])
  | array N => exact (array_gives h).congr (by simp [Target.FitsTyped, Target.ExtentsFit, Target.Counted])
  | dynamic => exact (dynamic_gives h).congr (by simp [Target.FitsTyped, Target.ExtentsFit, Target.Fits])
  | partlyStatic dstExtents some_dynamic =>
    exact (partlyStatic_gives h).congr (by simp [Target.FitsTyped, Target.ExtentsFit])
  | static dstExtents ne_nil => exact (static_gives h).congr (by simp [Target.FitsTyped, Target.Counted])

/-! ### From a tensor of values -/

theorem convertElements_gives (hu : u.data = x.elements.map (.scalar S)) {rest : List D.Val → Except Failure (T.Val D.Val)}
    {observed : List Nat × List D.Val}
    (h : ∃ y, rest (x.elements.map (staticCast platform S D)) = .ok y ∧ T.read y = observed) :
    Gives (convertElements platform D P u >>= rest) (x.elements = [] ∨ Takes S D P) observed where
  ok htakes := by
    rw [convertElements_of_takes hu htakes]
    exact h
  failed htakes := by
    rw [not_or] at htakes
    rw [convertElements_of_not_takes hu htakes.1 htakes.2]
    exact ⟨_, rfl, nofun⟩

/-- The elements of a list as values. -/
def scalars (x : Shaped S.Val) : Shaped Element where
  extents := x.extents
  elements := x.elements.map (.scalar S)
  rank_le := x.rank_le
  elements_nil h := by rw [x.elements_nil h, List.map_nil]
  prod_extents h := by rw [x.prod_extents h, List.length_map]

theorem tensorOfValueTo_gives (h : Represents u (scalars x)) (target : Target) :
    Gives (tensorOfValueTo platform D P R mr target u)
      ((target.Fits R x.extents x.elements.length ∧ target.Counted x.extents) ∧ (x.elements = [] ∨ Takes S D P))
      (target.observed x.extents (x.elements.map (staticCast platform S D))) := by
  have hextents : u.extents = x.extents := h.extents
  have hrank : u.rank = x.extents.length := h.rank
  have hsize : u.size = x.elements.length := h.size.trans (List.length_map _)
  have hdata : u.data = x.elements.map (.scalar S) := h.data
  cases target with
  | vector =>
    unfold tensorOfValueTo
    dsimp only
    rw [hrank, ← bind_pure (convertElements platform D P u)]
    refine .congr (.guard strict_iff fun _ => convertElements_gives hdata ⟨_, rfl, rfl⟩) ?_
    simp [Target.Fits, Target.Counted]
  | array N | static dstExtents ne_nil =>
    unfold tensorOfValueTo
    dsimp only
    rw [hrank, hsize]
    refine .congr (.guard strict_iff fun _ => .guard not_not.symm fun hsize => convertElements_gives hdata ?_) ?_
    · exact ⟨_, toArray_of_length ((length_cast x).trans hsize), rfl⟩
    · simp [Target.Fits, Target.Counted, and_assoc]
  | dynamic =>
    unfold tensorOfValueTo
    dsimp only
    rw [hextents]
    constructor
    · rintro ⟨⟨-, hcounted⟩, htakes⟩
      obtain ⟨result, hresult, hshape⟩ := resizedTo_of_counted (D := D) hcounted mr
      rw [hresult]
      refine (convertElements_gives (T := .dynamic) hdata ?_).ok htakes
      exact ⟨_, rfl, congrArg (·, _) hshape⟩
    · intro hnot
      by_cases hcounted : Target.dynamic.Counted x.extents
      · obtain ⟨result, hresult, hshape⟩ := resizedTo_of_counted (D := D) hcounted mr
        rw [hresult]
        exact (convertElements_gives (T := .dynamic) hdata ⟨_, rfl, rfl⟩).failed fun htakes =>
          hnot ⟨⟨trivial, hcounted⟩, htakes⟩
      · rw [resizedTo_of_not_counted (D := D) hcounted mr]
        exact ⟨.exception, rfl, nofun⟩
  | partlyStatic dstExtents some_dynamic =>
    unfold tensorOfValueTo
    dsimp only
    rw [hrank, hextents]
    exact .congr (fromExtents_gives fun hlen => convertElements_gives hdata ⟨_, rfl, rfl⟩) and_assoc

/-! ### Values that hold a list -/

/-- A value holds the list in a tensor of its type, or in one of values. -/
inductive HeldBy (x : Shaped S.Val) : Value → Prop
  | typed {t : Tensor S.Val} (h : Represents t x) : HeldBy x (.tensor S t)
  | values {u : Tensor Element} (h : Represents u (scalars x)) : HeldBy x (.values u)

/-- When a conversion of the value gives a result. -/
def Converts (x : Shaped S.Val) (D : ElementType) (P : ConversionPolicy) (R : RankPolicy) (target : Target) : Value → Prop
  | .values _ => (target.Fits R x.extents x.elements.length ∧ target.Counted x.extents) ∧ (x.elements = [] ∨ Takes S D P)
  | _ => conversionAllowed S D P = true ∧ target.FitsTyped S D R x.extents x.elements.length

variable {v w : Value}

theorem convertTo_gives (h : HeldBy x v) (target : Target) (mr : Nat) :
    Gives (convertTo platform D P R mr target v) (Converts x D P R target v)
      (target.observed x.extents (x.elements.map (staticCast platform S D))) := by
  cases h with
  | typed ht => exact tensorToTensor_gives ht target
  | values hu => exact tensorOfValueTo_gives hu target

theorem Gives.same {observed : List Nat × List α} (h : Gives o C observed) :
    Same o o := (h.same_iff h).mpr Iff.rfl

/-! ### A value that is moved -/

theorem movedTensor_read (h : Represents t x) : Target.dynamic.read (movedTensor t mr) = (x.extents, x.elements) := by
  have hextents : (ExtentsStore.copy t.extents (List.replicate kMaxRank 0)).take t.rank = t.extents := by
    have hrank : t.extents.length = t.rank := by rw [h.extents, h.rank]
    rw [← hrank]
    exact take_copy t.extents _
  exact Prod.ext (hextents.trans h.extents) h.data

theorem tensorOf_tensor (t : Tensor S.Val) : (Value.tensor S t).tensorOf S = some t := by
  simp [Value.tensorOf]

theorem tensorOf_of_ne (h : S ≠ D) (t : Tensor S.Val) : (Value.tensor S t).tensorOf D = none := by
  rw [Value.tensorOf, dif_neg h]

theorem map_staticCast_self (elements : List S.Val) : elements.map (staticCast platform S S) = elements :=
  (List.map_congr_left fun x _ => staticCast_self S x).trans (List.map_id _)

/-- Only a tensor of the target's own type is moved. -/
theorem convertToMoved_of_tensorOf (h : v.tensorOf D = none) (target : Target) :
    convertToMoved platform D P R mr target v = convertTo platform D P R mr target v := by
  unfold convertToMoved
  rw [h]
  cases target <;> rfl

theorem movedPartlyStatic_of_rank {rank : Nat} (h : Represents t x) (hrank : x.extents.length = rank) :
    ∃ y, movedPartlyStatic rank t = .ok y ∧ y.extents.val = x.extents ∧ y.elements = x.elements := by
  have hle : t.extents.length ≤ rank := by rw [h.extents, hrank]
  rw [movedPartlyStatic, dif_pos hle]
  refine ⟨_, rfl, ?_, h.data⟩
  dsimp only
  rw [ExtentsStore.copy, h.extents, List.drop_eq_nil_of_le (by rw [List.length_replicate, hrank]), List.append_nil]

/-- A moved tensor of the type itself is compared with the rank of the target only by a strict conversion. -/
theorem same_moved_iff {some_dynamic : none ∈ dstExtents} (h : Represents t x) :
    Same (convertToMoved platform S P R mr (.partlyStatic dstExtents some_dynamic) (.tensor S t))
        (convertTo platform S P R mr (.partlyStatic dstExtents some_dynamic) (.tensor S t)) ↔
      (R = .strict ∨ x.extents.length = dstExtents.length) ∧
        (x.extents.length = dstExtents.length → (Target.partlyStatic dstExtents some_dynamic).Counted x.extents) := by
  have hgives : Gives (convertTo platform S P R mr (.partlyStatic dstExtents some_dynamic) (.tensor S t)) _ _ :=
    convertTo_gives (.typed h) _ mr
  have hmoved : convertToMoved platform S P R mr (.partlyStatic dstExtents some_dynamic) (.tensor S t) =
      checkRank R dstExtents.length t.rank >>= fun _ => movedPartlyStatic dstExtents.length t := by
    unfold convertToMoved
    rw [tensorOf_tensor]
  rw [hmoved, checkRank, h.rank]
  by_cases hrank : x.extents.length = dstExtents.length
  · obtain ⟨y, hy, hextents, helements⟩ := movedPartlyStatic_of_rank h hrank
    rw [if_neg fun hbad => hbad.2 hrank]
    have hok : Gives (T := .partlyStatic dstExtents some_dynamic) (movedPartlyStatic dstExtents.length t) True
        ((Target.partlyStatic dstExtents some_dynamic).observed x.extents (x.elements.map (staticCast platform S S))) := by
      rw [hy, map_staticCast_self]
      exact .pure (Prod.ext hextents helements)
    have hallowed : conversionAllowed S S P = true := conversionAllowed_of_takes (Or.inl rfl)
    refine (hok.same_iff hgives).trans ?_
    simp [Converts, Target.FitsTyped, Target.Fits, Target.ExtentsFit, hallowed, hrank]
  · have hfails : ¬ Converts x S P R (.partlyStatic dstExtents some_dynamic) (.tensor S t) := fun hconverts =>
      hrank hconverts.2.1
    obtain ⟨f, hf, hne⟩ := hgives.failed hfails
    rw [hf]
    by_cases hstrict : R = .strict
    · rw [if_pos ⟨hstrict, hrank⟩]
      exact iff_of_true ⟨nofun, hne⟩ ⟨Or.inl hstrict, fun h => absurd h hrank⟩
    · rw [if_neg fun hbad => hstrict hbad.1]
      refine iff_of_false ?_ fun hand => hand.1.elim hstrict hrank
      cases hresult : movedPartlyStatic dstExtents.length t with
      | ok y => exact id
      | error g =>
        -- the only failure is a write past the array
        have hpast : g = .pastArray := by
          unfold movedPartlyStatic at hresult
          split at hresult
          · cases hresult
          · exact (Except.error.inj hresult).symm
        exact fun hsame => hsame.1 hpast

/-! ### Assignments -/

variable {src : Tensor α} {capacity : Nat}

/-- A tensor that is resized to the extents of another takes its elements. -/
theorem assignResized_of_counted [Inhabited α] {x : Shaped β} (dst : Tensor α) (hextents : src.extents = x.extents)
    (hlen : src.data.length = x.elements.length) (hcounted : Target.dynamic.Counted x.extents) :
    (assignResized dst src).1 = .ok () ∧
      Target.dynamic.read (assignResized dst src).2 = (src.extents, src.data) := by
  unfold assignResized Tensor.resize
  by_cases hnil : src.extents = []
  · have hdata : src.data = [] := by
      rw [← List.length_eq_zero_iff, hlen, x.elements_nil (hextents.symm.trans hnil), List.length_nil]
    rw [if_pos hnil]
    refine ⟨rfl, Prod.ext hnil.symm ?_⟩
    simp [Target.read, Copies.overwrite, hdata, Tensor.clear]
  · obtain ⟨n, hn⟩ := Option.isSome_iff_exists.mp (hcounted.resolve_left (hextents ▸ hnil))
    have hsize : src.data.length = n := by
      rw [hlen, ← x.prod_extents (hextents ▸ hnil), Tensor.prod_of_product hn]
    rw [if_neg hnil, hextents, hn]
    refine ⟨rfl, Prod.ext (ExtentsStore.extents_setExtents x.extents) ?_⟩
    simp [Target.read, Copies.overwrite, hsize]

theorem assignTensor_of_counted [Inhabited α] {x : Shaped β} (dst : Tensor α) (capacity : Nat) (hextents : src.extents = x.extents)
    (hlen : src.data.length = x.elements.length) (hcounted : Target.dynamic.Counted x.extents) :
    (assignTensor dst capacity src).1 = .ok () ∧
      Target.dynamic.read (assignTensor dst capacity src).2 = (src.extents, src.data) := by
  unfold assignTensor
  split
  · exact assignResized_of_counted dst hextents hlen hcounted
  · exact ⟨rfl, rfl⟩

/-- The destination takes what is observed under a condition. Without it the assignment fails and leaves the destination. -/
structure Assigns (dst : T.Val α) (outcome : Except Failure Unit × T.Val α) (Condition : Prop) (observed : List Nat × List α) :
    Prop where
  ok : Condition → ∃ result, outcome = (.ok (), result) ∧ T.read result = observed
  failed : ¬ Condition → ∃ failure, outcome = (.error failure, dst) ∧ failure ≠ .pastArray

theorem Gives.assigns {dst : T.Val α} {observed : List Nat × List α}
    (h : Gives o C observed) {assign : T.Val α → Except Failure Unit × T.Val α}
    (hassign : ∀ y, C → T.read y = observed → ∃ result, assign y = (.ok (), result) ∧ T.read result = observed) :
    Assigns dst (assignResult dst assign o) C observed where
  ok hC := by
    obtain ⟨y, rfl, hy⟩ := h.ok hC
    exact hassign y hC hy
  failed hC := by
    obtain ⟨failure, rfl, hne⟩ := h.failed hC
    exact ⟨failure, rfl, hne⟩

theorem assignVector_eq [Inhabited α] (dst : List α) (capacity : Nat) (result : List α) :
    assignVector dst capacity result = result := by
  unfold assignVector
  split
  · have hlen : (Tensor.resized dst result.length).length = result.length := Tensor.length_resized dst result.length
    simp [Copies.overwrite, hlen]
  · rfl

theorem assignToTensor_assigns (h : HeldBy x v) (hcounted : S = D → Target.dynamic.Counted x.extents) (dst : Tensor D.Val) :
    Assigns (T := .dynamic) dst (assignToTensor platform D P R dst capacity v) (Converts x D P R .dynamic v)
      (x.extents, x.elements.map (staticCast platform S D)) := by
  have hconverted : Converts x D P R .dynamic v → Target.dynamic.Counted x.extents := by
    intro hC
    cases h with
    | typed ht => exact hC.2.2.2.elim (fun hself => hcounted hself.1) id
    | values hu => exact hC.1.2
  have hassigned : Assigns (T := .dynamic) dst
      (assignResult dst (assignTensor dst capacity) (convertTo platform D P R dst.resource .dynamic v))
      (Converts x D P R .dynamic v) (x.extents, x.elements.map (staticCast platform S D)) := by
    refine (convertTo_gives h .dynamic dst.resource).assigns fun y hC hy => ?_
    have hextents : y.extents = x.extents := congrArg Prod.fst hy
    have hdata : y.data = x.elements.map (staticCast platform S D) := congrArg Prod.snd hy
    obtain ⟨hok, hread⟩ := assignTensor_of_counted dst capacity hextents
      (by rw [hdata, List.length_map]) (hconverted hC)
    exact ⟨_, Prod.ext hok rfl, hread.trans hy⟩
  unfold assignToTensor
  cases h with
  | values hu => exact hassigned
  | @typed t ht =>
    by_cases hself : S = D
    · subst hself
      rw [tensorOf_tensor]
      dsimp only
      by_cases hcapacity : t.size ≤ capacity
      · rw [if_pos hcapacity]
        have hC : Converts x S P R .dynamic (.tensor S t) :=
          ⟨conversionAllowed_of_takes (Or.inl rfl), trivial, trivial, Or.inl ⟨rfl, rfl⟩⟩
        obtain ⟨hok, hread⟩ := assignResized_of_counted dst ht.extents ht.size (hcounted rfl)
        refine ⟨fun _ => ⟨_, Prod.ext hok rfl, hread.trans ?_⟩, fun hnot => absurd hC hnot⟩
        rw [ht.extents, ht.data, map_staticCast_self]
      · rw [if_neg hcapacity]
        exact hassigned
    · rw [tensorOf_of_ne hself]
      exact hassigned

theorem assignTo_assigns (h : HeldBy x v) (destination : Destination)
    (hcounted : S = D → destination = .dynamic → Target.dynamic.Counted x.extents) (dst : destination.target.Val D.Val) :
    Assigns dst (assignTo platform D P R capacity v destination dst) (Converts x D P R destination.target v)
      (destination.target.observed x.extents (x.elements.map (staticCast platform S D))) := by
  cases destination with
  | vector =>
    refine (convertTo_gives h .vector 0).assigns fun y _ hy => ⟨_, rfl, ?_⟩
    rw [assignVector_eq]
    exact hy
  | array N => exact (convertTo_gives h (.array N) 0).assigns fun y _ hy => ⟨y, rfl, hy⟩
  | dynamic => exact assignToTensor_assigns h (fun hself => hcounted hself rfl) dst
  | static extents ne_nil => exact (convertTo_gives h (.static extents ne_nil) 0).assigns fun y _ hy => ⟨y, rfl, hy⟩

theorem assignToMoved_assigns (h : HeldBy x v) (destination : Destination)
    (hcounted : S = D → destination = .dynamic → Target.dynamic.Counted x.extents) (dst : destination.target.Val D.Val) :
    Assigns dst (assignToMoved platform D P R capacity v destination dst) (Converts x D P R destination.target v)
      (destination.target.observed x.extents (x.elements.map (staticCast platform S D))) := by
  have hassigns : Assigns dst (assignTo platform D P R capacity v destination dst) _ _ :=
    assignTo_assigns h destination hcounted dst
  cases destination with
  | vector | array N | static extents ne_nil => exact hassigns
  | dynamic =>
    unfold assignToMoved
    cases h with
    | values hu => exact hassigns
    | @typed t ht =>
      by_cases hself : S = D
      · subst hself
        rw [tensorOf_tensor]
        have hC : Converts x S P R .dynamic (.tensor S t) :=
          ⟨conversionAllowed_of_takes (Or.inl rfl), trivial, trivial, Or.inl ⟨rfl, rfl⟩⟩
        refine ⟨fun _ => ⟨_, rfl, ?_⟩, fun hnot => absurd hC hnot⟩
        rw [map_staticCast_self]
        exact Prod.ext ht.extents ht.data
      · rw [tensorOf_of_ne hself]
        exact hassigns

/-! ### When the path does not matter -/

/-- A list of elements of one type, and what it is converted to. -/
structure Request where
  S : ElementType
  D : ElementType
  P : ConversionPolicy
  R : RankPolicy
  target : Target
  list : Shaped S.Val

/-- Two assignments end alike and leave the same in the destination. -/
def SameAssigned (a b : Except Failure Unit × T.Val α) : Prop :=
  (a.1 = .ok () ↔ b.1 = .ok ()) ∧ T.read a.2 = T.read b.2

/-- A conversion of the list gives the same however a value holds it and whether the value is moved, and a failed assignment
    leaves the destination. -/
structure Independent (platform : Platform) (r : Request) : Prop where
  held : ∀ (v w : Value) (mr : Nat), HeldBy r.list v → HeldBy r.list w →
    Same (convertTo platform r.D r.P r.R mr r.target v) (convertTo platform r.D r.P r.R mr r.target w)
  moved : ∀ (v : Value) (mr : Nat), HeldBy r.list v →
    Same (convertToMoved platform r.D r.P r.R mr r.target v) (convertTo platform r.D r.P r.R mr r.target v)
  assigned : ∀ (destination : Destination) (dst : destination.target.Val r.D.Val) (capacity : Nat) (v : Value),
    destination.target = r.target → HeldBy r.list v →
      SameAssigned (assignToMoved platform r.D r.P r.R capacity v destination dst)
        (assignTo platform r.D r.P r.R capacity v destination dst)
  unchanged : ∀ (destination : Destination) (dst : destination.target.Val r.D.Val) (capacity : Nat) (v : Value)
    (failure : Failure), destination.target = r.target → HeldBy r.list v →
      ((assignTo platform r.D r.P r.R capacity v destination dst).1 = .error failure →
          (assignTo platform r.D r.P r.R capacity v destination dst).2 = dst) ∧
        ((assignToMoved platform r.D r.P r.R capacity v destination dst).1 = .error failure →
          (assignToMoved platform r.D r.P r.R capacity v destination dst).2 = dst)

/-- The chain of `tryConvertElement()` has the pair of types that the traits allow. An empty list, which has no element to
    refuse, is of a type that they allow. A strict conversion to a static tensor finds the rank and the size of the target
    only with its extents. A tensor of the target's own type has the rank of a partly static target, and extents whose
    product is a `std::size_t`. -/
structure Regular (r : Request) : Prop where
  pair : r.list.elements ≠ [] → conversionAllowed r.S r.D r.P = true →
    r.target.Fits r.R r.list.extents r.list.elements.length → r.target.ExtentsFit r.R r.list.extents →
      r.target.Counted r.list.extents → Takes r.S r.D r.P
  empty : r.list.elements = [] → r.target.Fits r.R r.list.extents 0 → r.target.Counted r.list.extents →
    conversionAllowed r.S r.D r.P = true
  extents : r.target.Fits r.R r.list.extents r.list.elements.length → r.target.Counted r.list.extents →
    conversionAllowed r.S r.D r.P = true → r.list.elements = [] ∨ Takes r.S r.D r.P →
      r.target.ExtentsFit r.R r.list.extents
  rank : r.S = r.D → ∀ dstExtents some_dynamic, r.target = .partlyStatic dstExtents some_dynamic →
    r.R = .strict ∨ r.list.extents.length = dstExtents.length
  counted : r.S = r.D → r.target.Fits r.R r.list.extents r.list.elements.length → r.target.Counted r.list.extents

/-- A list is held in a tensor of its type and in one of values. -/
theorem exists_heldBy (x : Shaped S.Val) :
    ∃ (t : Tensor S.Val) (u : Tensor Element), Represents t x ∧ Represents u (scalars x) := by
  refine ⟨Tensor.withExtents x.extents x.elements 0, Tensor.withExtents x.extents (scalars x).elements 0, ?_, ?_⟩
  · exact ⟨ExtentsStore.describes_setExtents ExtentsStore.sized_default x.rank_le, rfl⟩
  · exact ⟨ExtentsStore.describes_setExtents ExtentsStore.sized_default x.rank_le, rfl⟩

variable {r : Request}

theorem Regular.converts_iff (h : Regular r) (t : Tensor r.S.Val) (u : Tensor Element) :
    Converts r.list r.D r.P r.R r.target (.tensor r.S t) ↔ Converts r.list r.D r.P r.R r.target (.values u) := by
  constructor
  · rintro ⟨hallowed, hfits, hextents, hcounted⟩
    have hcounted : r.target.Counted r.list.extents := hcounted.elim (fun hself => h.counted hself.1 hfits) id
    refine ⟨⟨hfits, hcounted⟩, ?_⟩
    by_cases hnil : r.list.elements = []
    · exact Or.inl hnil
    · exact Or.inr (h.pair hnil hallowed hfits hextents hcounted)
  · rintro ⟨⟨hfits, hcounted⟩, htakes⟩
    have hallowed : conversionAllowed r.S r.D r.P = true := by
      obtain hnil | htakes := htakes
      · rw [hnil] at hfits
        exact h.empty hnil hfits hcounted
      · exact conversionAllowed_of_takes htakes
    exact ⟨hallowed, hfits, h.extents hfits hcounted hallowed htakes, Or.inr hcounted⟩

theorem Assigns.same {dst : T.Val α} {a b : Except Failure Unit × T.Val α} {observed : List Nat × List α}
    (ha : Assigns dst a C observed) (hb : Assigns dst b C observed) : SameAssigned a b := by
  by_cases hC : C
  · obtain ⟨y, rfl, hy⟩ := ha.ok hC
    obtain ⟨z, rfl, hz⟩ := hb.ok hC
    exact ⟨Iff.rfl, hy.trans hz.symm⟩
  · obtain ⟨f, rfl, -⟩ := ha.failed hC
    obtain ⟨g, rfl, -⟩ := hb.failed hC
    exact ⟨iff_of_false nofun nofun, rfl⟩

theorem Assigns.unchanged {dst : T.Val α} {a : Except Failure Unit × T.Val α} {observed : List Nat × List α}
    (h : Assigns dst a C observed) {failure : Failure} (hfailed : a.1 = .error failure) : a.2 = dst := by
  by_cases hC : C
  · obtain ⟨y, rfl, -⟩ := h.ok hC
    cases hfailed
  · obtain ⟨f, rfl, -⟩ := h.failed hC
    rfl

theorem same_moved_dynamic (h : Represents t x) :
    Same (convertToMoved platform S P R mr .dynamic (.tensor S t)) (convertTo platform S P R mr .dynamic (.tensor S t)) := by
  have hmoved : Gives (convertToMoved platform S P R mr .dynamic (.tensor S t)) True
      (Target.dynamic.observed x.extents (x.elements.map (staticCast platform S S))) := by
    unfold convertToMoved
    rw [tensorOf_tensor, map_staticCast_self]
    exact .pure (movedTensor_read h)
  have hC : Converts x S P R .dynamic (.tensor S t) :=
    ⟨conversionAllowed_of_takes (Or.inl rfl), trivial, trivial, Or.inl ⟨rfl, rfl⟩⟩
  exact (hmoved.same_iff (convertTo_gives (.typed h) .dynamic mr)).mpr (iff_of_true trivial hC)

/-- What the ranks and the extents of a list have to be where its tensor is moved to a partly static one. -/
theorem same_moved (h : HeldBy x v) {target : Target}
    (hpartly : S = D → ∀ dstExtents some_dynamic, target = .partlyStatic dstExtents some_dynamic →
      (R = .strict ∨ x.extents.length = dstExtents.length) ∧
        (x.extents.length = dstExtents.length → target.Counted x.extents)) :
    Same (convertToMoved platform D P R mr target v) (convertTo platform D P R mr target v) := by
  have hsame : Same (convertTo platform D P R mr target v) (convertTo platform D P R mr target v) :=
    (convertTo_gives h target mr).same
  cases h with
  | values hu =>
    rw [convertToMoved_of_tensorOf rfl]
    exact hsame
  | typed ht =>
    by_cases hself : S = D
    · subst hself
      cases target with
      | vector | array N | static dstExtents ne_nil => exact hsame
      | dynamic => exact same_moved_dynamic ht
      | partlyStatic dstExtents some_dynamic => exact (same_moved_iff ht).mpr (hpartly rfl _ _ rfl)
    · rw [convertToMoved_of_tensorOf (tensorOf_of_ne hself _)]
      exact hsame

theorem Regular.counted_dynamic (h : Regular r) {destination : Destination}
    (htarget : destination.target = r.target) (hself : r.S = r.D) (hdynamic : destination = .dynamic) :
    Target.dynamic.Counted r.list.extents := by
  subst hdynamic
  have htarget : r.target = .dynamic := htarget.symm
  have hcounted := h.counted hself (by rw [htarget]; trivial)
  rwa [htarget] at hcounted

theorem independent_of_regular (h : Regular r) : Independent platform r where
  held v w mr hv hw := by
    refine ((convertTo_gives hv r.target mr).same_iff (convertTo_gives hw r.target mr)).mpr ?_
    cases hv with
    | typed ht =>
      cases hw with
      | typed ht' => exact Iff.rfl
      | values hu => exact h.converts_iff _ _
    | values hu =>
      cases hw with
      | @typed t ht => exact (h.converts_iff t _).symm
      | values hu' => exact Iff.rfl
  moved v mr hv := by
    refine same_moved hv fun hself dstExtents some_dynamic htarget => ⟨h.rank hself _ _ htarget, fun hlen => ?_⟩
    refine h.counted hself ?_
    rw [htarget]
    exact hlen
  assigned destination dst capacity v htarget hv := by
    have hcounted := h.counted_dynamic htarget
    exact (assignToMoved_assigns hv destination hcounted dst).same (assignTo_assigns hv destination hcounted dst)
  unchanged destination dst capacity v failure htarget hv := by
    have hcounted := h.counted_dynamic htarget
    exact ⟨(assignTo_assigns hv destination hcounted dst).unchanged,
      (assignToMoved_assigns hv destination hcounted dst).unchanged⟩

theorem regular_of_independent (h : Independent platform r) : Regular r := by
  obtain ⟨t, u, ht, hu⟩ := exists_heldBy r.list
  have hiff : Converts r.list r.D r.P r.R r.target (.tensor r.S t) ↔ Converts r.list r.D r.P r.R r.target (.values u) :=
    ((convertTo_gives (.typed ht) r.target 0).same_iff (convertTo_gives (.values hu) r.target 0)).mp
      (h.held _ _ 0 (.typed ht) (.values hu))
  have hmoved : Same (convertToMoved platform r.D r.P r.R 0 r.target (.tensor r.S t))
      (convertTo platform r.D r.P r.R 0 r.target (.tensor r.S t)) := h.moved _ 0 (.typed ht)
  clear h
  obtain ⟨S, D, P, R, target, x⟩ := r
  dsimp only at *
  have hpartly : S = D → ∀ dstExtents some_dynamic, target = .partlyStatic dstExtents some_dynamic →
      (R = .strict ∨ x.extents.length = dstExtents.length) ∧
        (x.extents.length = dstExtents.length → target.Counted x.extents) := by
    rintro rfl dstExtents some_dynamic rfl
    exact (same_moved_iff ht).mp hmoved
  constructor
  · intro hne hallowed hfits hextents hcounted
    exact (hiff.mp ⟨hallowed, hfits, hextents, Or.inr hcounted⟩).2.resolve_left hne
  · intro hnil hfits hcounted
    refine (hiff.mpr ⟨⟨?_, hcounted⟩, Or.inl hnil⟩).1
    rw [hnil]
    exact hfits
  · intro hfits hcounted _ htakes
    exact (hiff.mpr ⟨⟨hfits, hcounted⟩, htakes⟩).2.2.1
  · intro hself dstExtents some_dynamic htarget
    exact (hpartly hself dstExtents some_dynamic htarget).1
  · intro hself hfits
    have hself : S = D := hself
    subst hself
    cases target with
    | vector | array N | static dstExtents ne_nil => trivial
    | dynamic =>
      exact (hiff.mp ⟨conversionAllowed_of_takes (Or.inl rfl), trivial, trivial, Or.inl ⟨rfl, rfl⟩⟩).1.2
    | partlyStatic dstExtents some_dynamic => exact (hpartly rfl dstExtents some_dynamic rfl).2 hfits

/-- The path of a conversion does not matter if and only if the request is regular. -/
theorem independent_iff_regular (platform : Platform) (r : Request) : Independent platform r ↔ Regular r :=
  ⟨regular_of_independent, independent_of_regular⟩

theorem five_mem_uint8 : IntType.min .uint8 ≤ 5 ∧ (5 : Int) ≤ IntType.max .uint8 := by
  decide

theorem five_mem_int16 : IntType.min .int16 ≤ 5 ∧ (5 : Int) ≤ IntType.max .int16 := by
  decide

/-- An integer of 8 bits without a sign becomes one of 16 bits with a sign, but is refused in a tensor of values. -/
theorem values_refused :
    convertTo silent .int16 .narrowing .strict 0 .vector (.tensor .uint8 (Tensor.withExtents [1] [⟨5, five_mem_uint8⟩] 0)) =
        .ok [⟨5, five_mem_int16⟩] ∧
      convertTo silent .int16 .narrowing .strict 0 .vector
          (.values (Tensor.withExtents [1] [.scalar .uint8 ⟨5, five_mem_uint8⟩] 0)) =
        .error (.error (.elementTypeMismatch 0)) :=
  ⟨rfl, rfl⟩

end GnuRadio.Pmt.Containers
