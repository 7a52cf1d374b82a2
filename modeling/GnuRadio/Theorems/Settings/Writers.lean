import GnuRadio.Settings.Writers

/-! A writer that throws leaves the block as it was, less the meta information that loadParametersFromPropertyMap() has
    written by then. -/

namespace GnuRadio.Settings

variable {κ ν : Type} {τ : Key → Type} [LinearOrder κ]
variable {d : BlockDescriptor κ ν τ} {values : Values κ ν}

namespace CtxSettings

variable {s : CtxSettings κ ν τ}

/-! ### What set() refuses -/

omit [LinearOrder κ] in
theorem takeParameter_ok_iff (taken : Taken ν) (key : Key) (value : ν) :
    (∃ taken', takeParameter d taken key value = .ok taken') ↔ Block.Takes d key value := by
  unfold takeParameter Block.Takes
  split
  · next h => exact ⟨fun _ => Or.inl h, fun _ => ⟨_, rfl⟩⟩
  · next h =>
    rw [or_iff_right h]
    split
    · next hnone => exact ⟨fun _ m hm => (by rw [hnone] at hm; cases hm), fun _ => ⟨_, rfl⟩⟩
    · next m hm =>
      unfold Member.setParameter Member.refuseByLimits
      cases hx : m.convertParameter value with
      | error error =>
        refine ⟨fun ⟨_, heq⟩ => (by cases heq), fun htakes => ?_⟩
        obtain ⟨x, hx', -⟩ := htakes m hm
        rw [hx] at hx'
        cases hx'
      | ok x =>
        cases hvalid : m.validate x with
        | false =>
          refine ⟨fun ⟨_, heq⟩ => (by simp [Except.map, hvalid] at heq), fun htakes => ?_⟩
          obtain ⟨y, hy, hvalid'⟩ := htakes m hm
          rw [hx] at hy
          cases hy
          rw [hvalid] at hvalid'
          cases hvalid'
        | true =>
          refine ⟨fun _ m' hm' => ?_, fun _ => ⟨_, by simp [Except.map, hvalid]; rfl⟩⟩
          rw [hm] at hm'
          cases hm'
          exact ⟨x, hx, hvalid⟩

omit [LinearOrder κ] in
theorem foldlM_takeParameter_ok_iff (entries : List (Sigma fun _ : Key => ν)) (taken : Taken ν) :
    (∃ taken', entries.foldlM (fun taken e => takeParameter d taken e.1 e.2) taken = .ok taken') ↔
      ∀ e ∈ entries, Block.Takes d e.1 e.2 := by
  induction entries generalizing taken with
  | nil => exact ⟨fun _ e he => absurd he List.not_mem_nil, fun _ => ⟨taken, rfl⟩⟩
  | cons e entries ih =>
    rw [List.foldlM_cons, List.forall_mem_cons]
    cases htake : takeParameter d taken e.1 e.2 with
    | error refusal =>
      refine iff_of_false (fun ⟨_, heq⟩ => (by cases heq)) fun htakes => ?_
      obtain ⟨taken', heq⟩ := (takeParameter_ok_iff taken e.1 e.2).mpr htakes.1
      rw [htake] at heq
      cases heq
    | ok taken' =>
      have htakes : Block.Takes d e.1 e.2 := (takeParameter_ok_iff taken e.1 e.2).mp ⟨taken', htake⟩
      exact (ih taken').trans ⟨fun h => ⟨htakes, h⟩, fun h => h.2⟩

omit [LinearOrder κ] in
/-- A map of settings leaves no value over. -/
theorem foldlM_takeParameter_ret {entries : List (Sigma fun _ : Key => ν)} {taken taken' : Taken ν}
    (hall : ∀ e ∈ entries, (d.writable e.1).isSome)
    (h : entries.foldlM (fun taken e => takeParameter d taken e.1 e.2) taken = .ok taken') : taken'.ret = taken.ret := by
  induction entries generalizing taken with
  | nil =>
    cases h
    rfl
  | cons e entries ih =>
    rw [List.foldlM_cons] at h
    obtain ⟨hhead, htail⟩ := List.forall_mem_cons.mp hall
    cases htake : takeParameter d taken e.1 e.2 with
    | error refusal =>
      rw [htake] at h
      cases h
    | ok next =>
      rw [htake] at h
      refine (ih htail h).trans ?_
      unfold takeParameter at htake
      split at htake
      · cases htake
        rfl
      · split at htake
        · next hnone =>
          rw [hnone] at hhead
          cases hhead
        · split at htake
          · cases htake
          · split at htake
            · cases htake
            · cases htake
              rfl

end CtxSettings

open CtxSettings

namespace Block

variable {b : Block κ ν τ}

omit [LinearOrder κ] in
theorem Untouched.refl (b : Block κ ν τ) : Untouched b b := ⟨rfl, rfl, rfl, rfl, rfl⟩

variable (d values) in
/-- `setImpl()` throws when a cap or a value refuses, and then it has written nothing. -/
theorem set_cases (b : Block κ ν τ) (parameters : PropertyMap ν) (ctx : SettingsCtx κ) (now pruneTime : Nat) :
    (∃ taken settings, b.Accepts d parameters ctx now ∧ b.settings.newSet d parameters ctx now = .ok taken ∧
      b.set d values parameters ctx now pruneTime =
        (.ok taken.ret, ⟨settings, b.metaInformation.map (updateMaps values taken.ret)⟩)) ∨
    (∃ refusal, ¬ b.Accepts d parameters ctx now ∧
      b.set d values parameters ctx now pruneTime = (.error (.refusal refusal), b)) := by
  unfold Block.set CtxSettings.set
  cases hnew : b.settings.newSet d parameters ctx now with
  | error refusal =>
    refine Or.inr ⟨refusal, fun haccepts => ?_, rfl⟩
    obtain ⟨taken, htaken⟩ := (foldlM_takeParameter_ok_iff _ _).mpr haccepts.values
    unfold CtxSettings.newSet at hnew
    rw [haccepts.caps] at hnew
    exact absurd (htaken.symm.trans hnew) (by simp)
  | ok taken =>
    refine Or.inl ⟨taken, _, ?_, rfl, rfl⟩
    unfold CtxSettings.newSet at hnew
    split at hnew
    · cases hnew
    · next hcaps => exact ⟨hcaps, (foldlM_takeParameter_ok_iff _ _).mp ⟨taken, hnew⟩⟩

/-! ### The parameters that are loaded -/

omit [LinearOrder κ] in
theorem sortParameters_eq (parameters : PropertyMap ν) (ctx : SettingsCtx κ) :
    b.sortParameters d values parameters ctx =
      (parameters.entries.foldl (fun m e => if (d.writable e.1).isSome then m.insert e.1 e.2 else m) ∅,
        b.metaInformation.map fun m => parameters.entries.foldl (fun m e =>
          if decide (values.contextText ctx.context = "") && (d.writable e.1).isNone then m.insert e.1 e.2 else m) m) := by
  unfold sortParameters
  generalize (∅ : PropertyMap ν) = settings
  generalize b.metaInformation = info
  generalize decide (values.contextText ctx.context = "") = toMeta
  induction parameters.entries generalizing settings info with
  | nil => cases info <;> rfl
  | cons e entries ih =>
    rw [List.foldl_cons, ih]
    unfold sortParameter
    cases hw : d.writable e.1 with
    | some m => simp [hw]
    | none => cases toMeta <;> cases info <;> simp [hw]

omit [LinearOrder κ] in
theorem lookup_sortParameters (parameters : PropertyMap ν) (ctx : SettingsCtx κ) (key : Key) :
    (b.sortParameters d values parameters ctx).1.lookup key =
      if (d.writable key).isSome then parameters.lookup key else none := by
  rw [sortParameters_eq]
  have h := AList.lookup_foldl_insert (fun key => (d.writable key).isSome) parameters.nodupKeys (∅ : PropertyMap ν) key
  rw [AList.lookup_empty, Option.or_none] at h
  exact h

omit [LinearOrder κ] in
theorem mem_sortParameters {parameters : PropertyMap ν} {ctx : SettingsCtx κ} {e : Sigma fun _ : Key => ν} :
    e ∈ (b.sortParameters d values parameters ctx).1.entries ↔ e ∈ parameters.entries ∧ (d.writable e.1).isSome := by
  obtain ⟨key, value⟩ := e
  rw [← AList.mem_lookup_iff, ← AList.mem_lookup_iff, Option.mem_def, lookup_sortParameters, Option.mem_def]
  split
  · next h => simp [h]
  · next h => simp [h]

/-- The caps and the values refuse the parameters to set exactly when they refuse those that are loaded. -/
theorem accepts_sortParameters_iff (parameters : PropertyMap ν) (ctx : SettingsCtx κ) (now : Nat)
    (info : Option (PropertyMap ν)) :
    Accepts d { b with metaInformation := info } (b.sortParameters d values parameters ctx).1 ctx now ↔
      b.Accepts d parameters ctx now := by
  constructor
  · rintro ⟨hcaps, hvalues⟩
    refine ⟨hcaps, fun e he => ?_⟩
    cases hw : d.writable e.1 with
    | none => exact Or.inr fun m hm => (by rw [hw] at hm; cases hm)
    | some m => exact hvalues e (mem_sortParameters.mpr ⟨he, by rw [hw]; rfl⟩)
  · rintro ⟨hcaps, hvalues⟩
    exact ⟨hcaps, fun e he => hvalues e (mem_sortParameters.mp he).1⟩

variable (d values) in
theorem load_cases (b : Block κ ν τ) (parameters : PropertyMap ν) (ctx : SettingsCtx κ) (now pruneTime : Nat) :
    (∃ b', b.Accepts d parameters ctx now ∧
      b.loadParametersFromPropertyMap d values parameters ctx now pruneTime = (.ok (), b')) ∨
    (∃ thrown, ¬ b.Accepts d parameters ctx now ∧
      b.loadParametersFromPropertyMap d values parameters ctx now pruneTime =
        (.error thrown, { b with metaInformation := (b.sortParameters d values parameters ctx).2 })) := by
  unfold loadParametersFromPropertyMap
  dsimp only
  obtain ⟨taken, settings, haccepts, hnew, heq⟩ | ⟨refusal, haccepts, heq⟩ :=
    set_cases d values { b with metaInformation := (b.sortParameters d values parameters ctx).2 }
      (b.sortParameters d values parameters ctx).1 ctx now pruneTime
  · rw [accepts_sortParameters_iff] at haccepts
    have hret : taken.ret = ∅ := by
      unfold CtxSettings.newSet at hnew
      split at hnew
      · cases hnew
      · exact foldlM_takeParameter_ret (fun e he => (mem_sortParameters.mp he).2) hnew
    rw [heq]
    dsimp only
    rw [hret, if_pos (show (∅ : PropertyMap ν).entries = [] from rfl)]
    exact Or.inl ⟨_, haccepts, rfl⟩
  · rw [accepts_sortParameters_iff] at haccepts
    rw [heq]
    exact Or.inr ⟨_, haccepts, rfl⟩

omit [LinearOrder κ] in
/-- The meta information is unchanged exactly when it holds the parameters that are no settings. -/
theorem sortParameters_meta_iff (parameters : PropertyMap ν) (ctx : SettingsCtx κ) :
    ((b.sortParameters d values parameters ctx).2.map (fun m key => m.lookup key) =
      b.metaInformation.map fun m key => m.lookup key) ↔ b.HoldsOthers d values parameters ctx := by
  rw [sortParameters_eq]
  unfold HoldsOthers
  cases b.metaInformation with
  | none => exact iff_of_true rfl fun _ m hm => (by cases hm)
  | some m =>
    simp only [Option.map_some, Option.some.injEq, funext_iff]
    have hlookup := AList.lookup_foldl_insert
      (fun key => decide (values.contextText ctx.context = "") && (d.writable key).isNone) parameters.nodupKeys m
    constructor
    · rintro hsame hdefault m' rfl e he hnone
      have hvalue := (hsame e.1).symm.trans (hlookup e.1)
      rw [hvalue]
      have hin : parameters.entries.dlookup e.1 = some e.2 := (List.mem_dlookup_iff parameters.nodupKeys).mpr he
      simp [hdefault, hnone, hin]
    · intro hholds key
      refine (hlookup key).trans ?_
      split
      · next h =>
        obtain ⟨hdefault, hnone⟩ : values.contextText ctx.context = "" ∧ d.writable key = none := by simpa using h
        cases hin : parameters.entries.dlookup key with
        | none => rw [Option.none_or]
        | some value =>
          rw [Option.some_or]
          exact (hholds hdefault m rfl ⟨key, value⟩ ((List.mem_dlookup_iff parameters.nodupKeys).mp hin) hnone).symm
      · rw [Option.none_or]

/-! ### Writers -/

/-- A writer that throws leaves the block untouched exactly when it is no loadParametersFromPropertyMap() that refuses
    its parameters after it has written new meta information. -/
theorem write_untouched_iff (b : Block κ ν τ) (call : Write κ ν) :
    (((b.write d values call).1.isSome → Untouched b (b.write d values call).2) ↔ b.LeavesWhole d values call) := by
  cases call with
  | set parameters ctx now pruneTime =>
    refine iff_of_true ?_ trivial
    unfold write
    dsimp only
    obtain ⟨taken, settings, -, -, heq⟩ | ⟨refusal, -, heq⟩ :=
      set_cases d values b parameters ctx now pruneTime
    · rw [heq]
      exact fun h => (by cases h)
    · rw [heq]
      exact fun _ => Untouched.refl b
  | setStaged parameters =>
    refine iff_of_true ?_ trivial
    unfold write Block.setStaged CtxSettings.setStaged
    dsimp only
    cases parameters.entries.foldlM (fun converted e => convertStaged d converted e.1 e.2) (∅, ∅) with
    | error refusal => exact fun _ => Untouched.refl b
    | ok converted => exact fun h => (by cases h)
  | setTagCouplings couplings =>
    refine iff_of_true ?_ trivial
    unfold write Block.setTagCouplings
    dsimp only
    cases couplings.entries.foldlM (fun coupled e => couple d values coupled e.1 e.2) ⟨b.settings.tagCouplings, []⟩ with
    | error thrown => exact fun _ => Untouched.refl b
    | ok coupled => exact fun h => (by cases h)
  | loadParametersFromPropertyMap parameters ctx now pruneTime =>
    unfold write LeavesWhole
    dsimp only
    obtain ⟨b', haccepts, heq⟩ | ⟨thrown, haccepts, heq⟩ :=
      load_cases d values b parameters ctx now pruneTime
    · rw [heq]
      exact iff_of_true (nofun) (Or.inl haccepts)
    · rw [heq, or_iff_right haccepts, ← sortParameters_meta_iff]
      exact ⟨fun h => (h rfl).metaInformation, fun h _ => ⟨rfl, rfl, rfl, rfl, h⟩⟩

/-! ### A block with a limited gain -/

/-- A setting that holds a number up to 1. -/
def limited : Member Nat Nat := { number with validate := fun x => x ≤ 1, describeLimits := "[0, 1]" }

def limitedGain : BlockDescriptor Nat Nat fun _ => Nat :=
  { gainBlock none with
    member := fun k => if k = "gain" then some limited else none
    mem_memberNames := fun k => by by_cases h : k = "gain" <;> simp [gainBlock, h]
    notControlKey := fun k h => by
      by_cases hk : k = "gain"
      · exact hk ▸ by decide
      · simp [hk] at h }

/-- Values without strings and maps. The default context has no name. -/
def numbers : Values Nat Nat where
  asString _ := none
  contextText context := if context = 0 then "" else "named"
  mergeMaps _ _ := none

def limitedStart : Option (CtxSettings Nat Nat fun _ => Nat) :=
  (CtxSettings.constructed limitedGain (fun _ => 0) ∅).init limitedGain ∅ ⟨10, 10, 10, 20, 20⟩

/-- A gain that the limits refuse, with a parameter that is no setting. -/
def noteAndGain : PropertyMap Nat := (AList.singleton "gain" 2).insert "note" 7

/-- The refused parameters leave their note in the meta information. -/
theorem noteAndGain_kept : ∃ settings, limitedStart = some settings ∧
    ¬ ∀ call, ((Block.write limitedGain numbers ⟨settings, some ∅⟩ call).1.isSome →
      Untouched ⟨settings, some ∅⟩ (Block.write limitedGain numbers ⟨settings, some ∅⟩ call).2) := by
  refine ⟨limitedStart.get (by decide), (Option.some_get _).symm, fun h => ?_⟩
  have hinfo := (h (.loadParametersFromPropertyMap noteAndGain ⟨0, 0⟩ 30 30) (by decide)).metaInformation
  have hnote := congrFun (Option.some.inj hinfo) "note"
  revert hnote
  decide

end Block

end GnuRadio.Settings
