import GnuRadio.Library.Fallible
import GnuRadio.Settings.Conversions
import GnuRadio.Settings.Runs
import GnuRadio.Theorems.Settings.Frames

/-! Setting values survive their conversions: what set() or a tag takes is what the apply sets and what get() gives back. -/

namespace GnuRadio.Settings.Conversions

open Fallible
open Pmt (ConversionError NumericType Platform)
open Yaml (Bytes)

variable {μ : Type} {platform : Platform}

/-! ### Enumerations -/

theorem find?_fst {entries : List (Bytes × Int)} (nodup : (entries.map Prod.fst).Nodup) {entry : Bytes × Int}
    (hentry : entry ∈ entries) : entries.find? (fun e => entry.1 = e.1) = some entry := by
  induction entries with
  | nil => cases hentry
  | cons e entries ih =>
    rw [List.map_cons, List.nodup_cons] at nodup
    obtain rfl | hmem := List.mem_cons.mp hentry
    · simp
    · have hne : entry.1 ≠ e.1 := fun h => nodup.1 (h ▸ List.mem_map_of_mem hmem)
      rw [List.find?_cons_of_neg (by simpa using hne)]
      exact ih nodup.2 hmem

/-- The name of a value is the name of that value, also where several enumerators have it. -/
theorem Enumeration.parse_name (E : Enumeration) {value : Int} (h : value ∈ E.entries.map Prod.snd) :
    E.parse (E.name value) = some value := by
  obtain ⟨entry, hentry, hvalue⟩ := List.mem_map.mp h
  have hfound : (E.entries.find? fun e => value = e.2).isSome := by
    rw [List.find?_isSome]
    exact ⟨entry, hentry, by simp [hvalue]⟩
  obtain ⟨found, hfound⟩ := Option.isSome_iff_exists.mp hfound
  have hmem := List.mem_of_find?_eq_some hfound
  have heq : value = found.2 := by simpa using List.find?_some hfound
  rw [Enumeration.name, hfound, Option.map_some, Option.getD_some, Enumeration.parse, find?_fst E.nodup hmem,
    Option.map_some, heq]

/-! ### Lists -/

theorem scalarOf_scalar (K : Kind) (x : K.Val) : (Value.scalar K x : Value μ).scalarOf K = some x := by
  simp [Value.scalarOf]

theorem tensorOf_tensor (K : Kind) (elements : List K.Val) : (Value.tensor K elements : Value μ).tensorOf K = some elements := by
  simp [Value.tensorOf]

variable {size : Option Nat}

theorem checkSize_of_length {n : Nat} (h : ∀ m ∈ size, n = m) : checkSize size n = .ok () := by
  cases size with
  | none => rfl
  | some m => rw [checkSize, if_pos (h m rfl)]

variable {K : Kind} {elements : List K.Val}

theorem sized_of_length (h : ∀ n ∈ size, elements.length = n) :
    sized (μ := μ) size elements = .ok ⟨elements, h⟩ := by
  unfold sized
  split
  · rfl
  · next heq =>
    rw [checkSize_of_length h] at heq
    cases heq

theorem val_of_sized {x : MemberType.Val μ (.list K size)}
    (h : sized size elements = .ok x) : x.val = elements := by
  unfold sized at h
  split at h
  · cases h
    rfl
  · cases h

theorem textOrEmpty_scalar (s : Bytes) : textOrEmpty (Value.scalar .text s : Value μ) = s := by
  rw [textOrEmpty, scalarOf_scalar]
  rfl

theorem map_textOrEmpty (texts : List Bytes) : (texts.map (Value.scalar .text)).map (textOrEmpty (μ := μ)) = texts := by
  rw [List.map_map]
  exact (List.map_congr_left fun s _ => textOrEmpty_scalar s).trans (List.map_id _)

/-! ### What get() gives converts to the member -/

theorem tryExtractEnumValue_name (E : Enumeration) (value : MemberType.Val μ (.enumeration E)) :
    tryExtractEnumValue E (Value.scalar .text (E.name value.val) : Value μ) = .ok value := by
  have hparse := E.parse_name value.property
  unfold tryExtractEnumValue
  rw [scalarOf_scalar]
  dsimp only
  split
  · next h =>
    rw [hparse] at h
    cases h
  · next x h =>
    rw [hparse] at h
    congr 1
    exact Subtype.ext (Option.some.inj h).symm

variable (platform) in
theorem convertNumbers_tensor (K : Kind) (size : Option Nat) (elements : MemberType.Val μ (.list K size)) :
    convertNumbers platform K size (Value.tensor K elements.val : Value μ) = .ok elements := by
  rw [convertNumbers.eq_def]
  dsimp only
  rw [tensorOf_tensor]
  exact sized_of_length elements.property

theorem convertTexts_list (size : Option Nat) (elements : MemberType.Val μ (.list .text size)) :
    convertTexts size (Value.list (elements.val.map (.scalar .text)) : Value μ) = .ok elements := by
  rw [convertTexts, map_textOrEmpty]
  exact sized_of_length elements.property

theorem convertScalar_scalar (K : Kind) (x : K.Val) :
    convertScalar platform K (Value.scalar K x : Value μ) = .ok x := by
  cases K with
  | bool => rfl
  | number T => simp [convertScalar, convertToNumber, Pmt.convertSafely]
  | text =>
    rw [convertScalar, scalarOf_scalar]

theorem convertParameter_parameterValue (m : MemberType) (x : m.Val μ) :
    convertParameter platform m (parameterValue m x) = .ok x := by
  match m, x with
  | .scalar K, x =>
    rw [convertParameter, parameterValue, convertScalar_scalar]
    rfl
  | .enumeration E, value => exact tryExtractEnumValue_name E value
  | .list .text size, elements => exact convertTexts_list size elements
  | .list .bool size, elements => exact convertNumbers_tensor platform .bool size elements
  | .list (.number T) size, elements => exact convertNumbers_tensor platform (.number T) size elements
  | .map, entries => rfl

theorem extractStagedValue_parameterValue (m : MemberType) (x : m.Val μ) :
    extractStagedValue platform m (parameterValue m x) = some x := by
  match m, x with
  | .scalar K, x =>
    rw [extractStagedValue, parameterValue]
    exact scalarOf_scalar K x
  | .enumeration E, value => exact toOption_eq_some_iff.mpr (tryExtractEnumValue_name E value)
  | .list .text size, elements => exact toOption_eq_some_iff.mpr (convertTexts_list size elements)
  | .list .bool size, elements =>
    rw [extractStagedValue, parameterValue, tensorOf_tensor, Option.isSome_some, if_pos rfl]
    exact toOption_eq_some_iff.mpr (convertNumbers_tensor platform .bool size elements)
  | .list (.number T) size, elements =>
    rw [extractStagedValue, parameterValue, tensorOf_tensor, Option.isSome_some, if_pos rfl]
    exact toOption_eq_some_iff.mpr (convertNumbers_tensor platform (.number T) size elements)
  | .map, entries => rfl

/-! ### What set() gives -/

variable {m : MemberType} {x : m.Val μ}

theorem applyStaged_of_extract {w : Value μ} (h : extractStagedValue platform m w = some x)
    {limits : m.Val μ → Bool} (hlimits : limits x = true) : applyStaged platform m limits w = some x := by
  rw [applyStaged, h]
  simp [hlimits]

variable {v w : Value μ}

theorem setParameter_ok_iff :
    setParameter platform m v = .ok w ↔ ∃ x, convertParameter platform m v = .ok x ∧ w = parameterValue m x := by
  unfold setParameter
  cases convertParameter platform m v with
  | error error => simp [Except.map]
  | ok x => simp [Except.map, eq_comm]

/-! ### The elements of a sequence -/

theorem convertElements_ok {elements : List (Value μ)} {xs : List K.Val}
    (h : convertElements platform K elements = .ok xs) :
    List.Forall₂ (fun element x => convertScalar platform K element = .ok x) elements xs :=
  (mapM_eq_ok_iff.mp h).imp fun _ _ hx => mapError_eq_ok hx

theorem convertNumbers_list {elements : List (Value μ)}
    {x : MemberType.Val μ (.list K size)} (h : convertNumbers platform K size (.list elements) = .ok x) :
    List.Forall₂ (fun element y => convertScalar platform K element = .ok y) elements x.val := by
  unfold convertNumbers at h
  dsimp only at h
  split at h
  · cases h
  · cases hconverted : convertElements platform K elements with
    | error error =>
      rw [hconverted] at h
      cases h
    | ok converted =>
      rw [hconverted] at h
      rw [val_of_sized h]
      exact convertElements_ok hconverted

/-! ### What a value is, from what it holds -/

variable {v : Value μ}

theorem eq_of_scalarOf {x : K.Val} (h : v.scalarOf K = some x) : v = .scalar K x := by
  cases v with
  | scalar L y =>
    simp only [Value.scalarOf] at h
    split at h
    · next hL =>
      subst hL
      cases h
      rfl
    · cases h
  | _ => cases h

theorem eq_of_tensorOf (h : v.tensorOf K = some elements) :
    v = .tensor K elements := by
  cases v with
  | tensor L y =>
    simp only [Value.tensorOf] at h
    split at h
    · next hL =>
      subst hL
      cases h
      rfl
    · cases h
  | _ => cases h

theorem eq_of_isString (h : v.isString = true) : ∃ s : Bytes, v = .scalar .text s := by
  obtain ⟨s, hs⟩ := Option.isSome_iff_exists.mp h
  exact ⟨s, eq_of_scalarOf hs⟩

theorem eq_of_mapOf {entries : μ} (h : v.mapOf = some entries) : v = .map entries := by
  cases v with
  | map _ =>
    cases h
    rfl
  | _ => cases h

theorem mapM_scalarOf_map (texts : List Bytes) :
    (texts.map (Value.scalar .text) : List (Value μ)).mapM (Value.scalarOf .text) = some texts := by
  induction texts with
  | nil => rfl
  | cons s texts ih =>
    rw [List.map_cons, List.mapM_cons, scalarOf_scalar, ih]
    rfl

theorem eq_map_of_isString : ∀ {elements : List (Value μ)}, (elements.all Value.isString) = true →
    ∃ texts : List Bytes, elements = texts.map (.scalar .text)
  | [], _ => ⟨[], rfl⟩
  | element :: elements, h => by
    rw [List.all_cons, Bool.and_eq_true] at h
    obtain ⟨hstring, hrest⟩ := h
    obtain ⟨texts, rfl⟩ := eq_map_of_isString hrest
    obtain ⟨s, rfl⟩ := eq_of_isString hstring
    exact ⟨s :: texts, rfl⟩

/-! ### What a tag gives -/

/-- A tag stages the strings of the value for a list of strings, as a sequence. -/
theorem stagedStringList_texts (h : stagedStringList v = some w) :
    ∃ texts : List Bytes, v.texts = some texts ∧ v.length = texts.length ∧ w = .list (texts.map (.scalar .text)) := by
  unfold stagedStringList at h
  split at h
  · next elements =>
    cases h
    exact ⟨elements, rfl, rfl, rfl⟩
  · split at h
    · next hall =>
      cases h
      obtain ⟨texts, rfl⟩ := eq_map_of_isString hall
      refine ⟨texts, ?_, ?_, rfl⟩
      · rw [Value.texts]
        exact mapM_scalarOf_map texts
      · rw [Value.length, List.length_map]
    · cases h
  · cases h

theorem denoted_parameterValue (m : MemberType) (x : m.Val μ) : denoted platform m (parameterValue m x) = some x := by
  match m, x with
  | .list .text size, elements =>
    rw [parameterValue, denoted, Value.texts, mapM_scalarOf_map, Option.bind_some, sized_of_length elements.property]
    rfl
  | .scalar K, x => exact toOption_eq_some_iff.mpr (convertParameter_parameterValue (.scalar K) x)
  | .enumeration E, x => exact toOption_eq_some_iff.mpr (convertParameter_parameterValue (.enumeration E) x)
  | .list .bool size, x => exact toOption_eq_some_iff.mpr (convertParameter_parameterValue (.list .bool size) x)
  | .list (.number T) size, x => exact toOption_eq_some_iff.mpr (convertParameter_parameterValue (.list (.number T) size) x)
  | .map, x => rfl

/-- `w` is staged for a member that `v` stands for, and the apply gives it that member. -/
def Staged (platform : Platform) (m : MemberType) (v w : Value μ) : Prop :=
  ∃ x, denoted platform m v = some x ∧ extractStagedValue platform m w = some x

theorem staged_parameterValue (m : MemberType) (x : m.Val μ) :
    Staged platform m (parameterValue m x) (parameterValue m x) :=
  ⟨x, denoted_parameterValue m x, extractStagedValue_parameterValue m x⟩

theorem staged_holds (h : (if (v.scalarOf K).isSome then some v else none) = some w) :
    Staged platform (.scalar K) v w := by
  split at h
  · next hholds =>
    cases h
    obtain ⟨x, hx⟩ := Option.isSome_iff_exists.mp hholds
    obtain rfl := eq_of_scalarOf hx
    exact staged_parameterValue (.scalar K) x
  · cases h

theorem staged_convertNumerically {T : NumericType} (h : convertNumerically platform T v = some w) :
    Staged platform (.scalar (.number T)) v w := by
  unfold convertNumerically at h
  split at h
  · obtain ⟨y, hy, rfl⟩ := Option.map_eq_some_iff.mp h
    have hconvert : convertParameter platform (.scalar (.number T)) v = .ok y := by
      rw [convertParameter, convertScalar, toOption_eq_some_iff.mp hy]
      rfl
    exact ⟨y, toOption_eq_some_iff.mpr hconvert, extractStagedValue_parameterValue (.scalar (.number T)) y⟩
  · cases h

theorem staged_number {T : NumericType} (h : autoUpdate platform (.scalar (.number T)) v = some w) :
    Staged platform (.scalar (.number T)) v w := by
  have hreal : (if (v.scalarOf (.number T)).isSome then some v else convertNumerically platform T v) = some w →
      Staged platform (.scalar (.number T)) v w := by
    intro h
    split at h
    · next hholds => exact staged_holds (by rw [if_pos hholds, Option.some.inj h])
    · exact staged_convertNumerically h
  cases T with
  | integer S => exact hreal h
  | floating F => exact hreal h
  | complex F => exact staged_holds h

theorem staged_tensor (hK : K ≠ .text)
    (h : (v.tensorOf K).map (Value.tensor K) = some w) (hfits : (MemberType.list K size).Fits v) :
    Staged platform (.list K size) v w := by
  obtain ⟨elements, helements, rfl⟩ := Option.map_eq_some_iff.mp h
  obtain rfl := eq_of_tensorOf helements
  have hlength : ∀ n ∈ size, elements.length = n := by
    rintro n rfl
    exact hfits
  match K with
  | .bool => exact staged_parameterValue (.list .bool size) ⟨elements, hlength⟩
  | .number T => exact staged_parameterValue (.list (.number T) size) ⟨elements, hlength⟩
  | .text => exact absurd rfl hK

theorem staged_texts (h : stagedStringList v = some w)
    (hfits : (MemberType.list .text size).Fits v) : Staged platform (.list .text size) v w := by
  obtain ⟨texts, htexts, hlen, rfl⟩ := stagedStringList_texts h
  have hlength : ∀ n ∈ size, texts.length = n := by
    rintro n rfl
    exact hlen.symm.trans hfits
  refine ⟨⟨texts, hlength⟩, ?_, extractStagedValue_parameterValue (.list .text size) ⟨texts, hlength⟩⟩
  rw [denoted, htexts, Option.bind_some, sized_of_length hlength]
  rfl

theorem staged_name {E : Enumeration} (h : autoUpdate platform (.enumeration E) v = some w)
    (hnamed : (MemberType.enumeration E).Named v) : Staged platform (.enumeration E) v w := by
  rw [autoUpdate] at h
  split at h
  · next hstring =>
    cases h
    obtain ⟨s, rfl⟩ := eq_of_isString hstring
    have hparse : (E.parse s).isSome = true := hnamed s (scalarOf_scalar .text s)
    have hvalue : ∃ value, tryExtractEnumValue E (Value.scalar .text s : Value μ) = .ok value := by
      unfold tryExtractEnumValue
      rw [scalarOf_scalar]
      dsimp only
      split
      · next hnone =>
        rw [hnone] at hparse
        cases hparse
      · exact ⟨_, rfl⟩
    obtain ⟨value, hvalue⟩ := hvalue
    exact ⟨value, toOption_eq_some_iff.mpr hvalue, toOption_eq_some_iff.mpr hvalue⟩
  · cases h

theorem autoUpdate_staged (h : autoUpdate platform m v = some w) (hnamed : m.Named v)
    (hfits : m.Fits v) : Staged platform m v w := by
  match m with
  | .enumeration E => exact staged_name h hnamed
  | .scalar .text => exact staged_holds h
  | .scalar .bool => exact staged_holds h
  | .scalar (.number T) => exact staged_number h
  | .list .text size => exact staged_texts h hfits
  | .list .bool size => exact staged_tensor (by simp) h hfits
  | .list (.number T) size => exact staged_tensor (by simp) h hfits
  | .map =>
    rw [autoUpdate] at h
    split at h
    · next hmap =>
      cases h
      obtain ⟨entries, hentries⟩ := Option.isSome_iff_exists.mp hmap
      obtain rfl := eq_of_mapOf hentries
      exact staged_parameterValue .map entries
    · cases h

/-! ### What set() and a tag take -/

theorem length_of_sized {x : MemberType.Val μ (.list K size)}
    (h : sized size elements = .ok x) : ∀ n ∈ size, elements.length = n := by
  rw [← val_of_sized h]
  exact x.property

theorem named_of_convert (h : convertParameter platform m v = .ok x) :
    m.Named v := by
  match m with
  | .enumeration E =>
    intro s hs
    rw [convertParameter] at h
    unfold tryExtractEnumValue at h
    rw [hs] at h
    dsimp only at h
    split at h
    · cases h
    · next hparse => rw [hparse, Option.isSome_some]
  | .scalar _ | .list _ _ | .map => trivial

theorem convertNumbers_length {x : MemberType.Val μ (.list K size)}
    (h : convertNumbers platform K size v = .ok x) : ∀ n ∈ size, v.length = n := by
  unfold convertNumbers at h
  split at h
  · next elements =>
    split at h
    · cases h
    · next hsize => exact checkSize_length hsize
  · split at h
    · next elements helements =>
      obtain rfl := eq_of_tensorOf helements
      exact length_of_sized h
    · cases h

theorem convertTexts_length {x : MemberType.Val μ (.list .text size)}
    (h : convertTexts size v = .ok x) : ∀ n ∈ size, v.length = n := by
  unfold convertTexts at h
  split at h
  · intro n hn
    rw [← length_of_sized h n hn, Value.length, List.length_map]
  · cases h

theorem fits_of_convert (h : convertParameter platform m v = .ok x) :
    m.Fits v := by
  match m with
  | .list .text (some n) => exact convertTexts_length h n rfl
  | .list .bool (some n) => exact convertNumbers_length h n rfl
  | .list (.number T) (some n) => exact convertNumbers_length h n rfl
  | .list _ none | .scalar _ | .enumeration _ | .map => trivial

/-- Where a tag takes the value too, set() gives what the value stands for. -/
theorem denoted_of_convert (h : convertParameter platform m v = .ok x)
    (htag : autoUpdate platform m v = some w) : denoted platform m v = some x := by
  match m with
  | .list .text size =>
    obtain ⟨texts, htexts, -, -⟩ := stagedStringList_texts htag
    rw [convertParameter] at h
    unfold convertTexts at h
    split at h
    · next elements =>
      have helements : elements.all Value.isString = true := by
        rw [autoUpdate, stagedStringList] at htag
        split at htag
        · assumption
        · cases htag
      obtain ⟨strings, rfl⟩ := eq_map_of_isString helements
      rw [map_textOrEmpty] at h
      rw [denoted, Value.texts, mapM_scalarOf_map, Option.bind_some, h]
      rfl
    · cases h
  | .list .bool size | .list (.number T) size | .scalar K | .enumeration E | .map => exact toOption_eq_some_iff.mpr h

/-! ### The conversions of a setting -/

theorem setParameter_survives (h : setParameter platform m v = .ok w) :
    ∃ x, convertParameter platform m v = .ok x ∧ extractStagedValue platform m w = some x := by
  obtain ⟨x, hx, rfl⟩ := setParameter_ok_iff.mp h
  exact ⟨x, hx, extractStagedValue_parameterValue m x⟩

/-- The apply makes one member of what set() and of what a tag puts there for one value. -/
theorem setParameter_agrees_autoUpdate {v w w' : Value μ} (hset : setParameter platform m v = .ok w)
    (htag : autoUpdate platform m v = some w') : extractStagedValue platform m w = extractStagedValue platform m w' := by
  obtain ⟨x, hx, hw⟩ := setParameter_survives hset
  obtain ⟨y, hy, hw'⟩ := autoUpdate_staged htag (named_of_convert hx) (fits_of_convert hx)
  rw [denoted_of_convert hx htag] at hy
  rw [hw, hw', hy]

theorem setParameter_numbers (hK : K ≠ .text) {elements : List (Value μ)} {w : Value μ}
    (h : setParameter platform (.list K size) (.list elements) = .ok w) :
    ∃ xs, List.Forall₂ (fun element x => convertScalar platform K element = .ok x) elements xs ∧ w = .tensor K xs := by
  obtain ⟨x, hx, rfl⟩ := setParameter_ok_iff.mp h
  match K with
  | .bool => exact ⟨x.val, convertNumbers_list hx, rfl⟩
  | .number T => exact ⟨x.val, convertNumbers_list hx, rfl⟩
  | .text => exact absurd rfl hK

theorem tensorOf_of_ne {K L : Kind} (h : L ≠ K) (elements : List L.Val) :
    (Value.tensor L elements : Value μ).tensorOf K = none := by
  rw [Value.tensorOf, dif_neg h]

theorem tensor_refused {K L : Kind} (h : L ≠ K) (size : Option Nat) (elements : List L.Val) :
    autoUpdate platform (.list K size) (.tensor L elements : Value μ) = none ∧
      setParameter platform (.list K size) (.tensor L elements : Value μ) = .error .notATensor := by
  match K with
  | .text =>
    refine ⟨?_, rfl⟩
    match L with
    | .bool | .number _ => rfl
    | .text => exact absurd rfl h
  | .bool =>
    constructor
    · rw [autoUpdate, tensorOf_of_ne h]
      rfl
    · rw [setParameter, convertParameter, convertNumbers.eq_def]
      dsimp only
      rw [tensorOf_of_ne h]
      rfl
  | .number T =>
    constructor
    · rw [autoUpdate, tensorOf_of_ne h]
      rfl
    · rw [setParameter, convertParameter, convertNumbers.eq_def]
      dsimp only
      rw [tensorOf_of_ne h]
      rfl

/-- What set() or a coupled tag takes is what the apply sets, get() gives it back, and they agree. -/
theorem settings_survive (platform : Platform) (μ : Type) : Survive platform μ where
  set m v w h := by
    obtain ⟨x, hx, hw⟩ := setParameter_survives h
    exact ⟨x, hx, fun limits => applyStaged_of_extract hw⟩
  tag m v w h hnamed hfits := by
    obtain ⟨x, hx, hw⟩ := autoUpdate_staged h hnamed hfits
    exact ⟨x, hx, fun limits => applyStaged_of_extract hw⟩
  get m x :=
    ⟨parameterValue m x, setParameter_ok_iff.mpr ⟨x, convertParameter_parameterValue m x, rfl⟩,
      fun limits => applyStaged_of_extract (extractStagedValue_parameterValue m x)⟩
  same m v w w' hset htag limits := by
    rw [applyStaged, applyStaged, setParameter_agrees_autoUpdate hset htag]
  numbers K size elements hK := by
    refine ⟨?_, fun w h => setParameter_numbers hK h⟩
    match K with
    | .bool => rfl
    | .number T => rfl
    | .text => exact absurd rfl hK
  strings size v w h := by
    obtain ⟨texts, htexts, -, rfl⟩ := stagedStringList_texts h
    exact ⟨texts, htexts, rfl⟩
  kinds K L size elements h := tensor_refused h size elements

/-- A platform for values that are no floating-point numbers. -/
def noFloats : Platform := ⟨fun _ _ _ => .nan, fun _ _ => none⟩

def int32 : Kind := .number (.integer .int32)

theorem three_mem : Yaml.IntType.min .int32 ≤ 3 ∧ (3 : Int) ≤ Yaml.IntType.max .int32 := by
  decide

/-- A text in a list for numbers becomes a number, and a number in a list for strings becomes a text. -/
theorem element_becomes_other :
    setParameter noFloats (.list int32 none) (.list [.scalar .text ['3']] : Value Unit) = .ok (.tensor int32 [⟨3, three_mem⟩]) ∧
      setParameter noFloats (.list .text none) (.list [.scalar int32 ⟨3, three_mem⟩] : Value Unit) =
        .ok (.list [.scalar .text []]) :=
  ⟨rfl, rfl⟩

end GnuRadio.Settings.Conversions

/-! Stored values are values of their members' types, so that they convert to themselves: staging a stored set does not
    throw, and what it stages is what is stored. -/

namespace GnuRadio.Settings

variable {κ ν : Type} {τ : Key → Type}

namespace Member

variable {σ : Type} (m : Member ν σ)

theorem setParameter_read (x : σ) : m.setParameter (m.read x) = .ok (m.read x) := by
  rw [setParameter, m.convert_read]
  rfl

theorem setParameter_ok {value converted : ν} (h : m.setParameter value = .ok converted) : ∃ x, converted = m.read x := by
  unfold setParameter at h
  cases hc : m.convertParameter value with
  | error error =>
    rw [hc] at h
    cases h
  | ok x =>
    rw [hc] at h
    cases h
    exact ⟨x, rfl⟩

theorem applyStaged_read {x : σ} (hx : m.validate x = true) : m.applyStaged (m.read x) = some x := by
  rw [applyStaged, m.extract_read, Option.filter_some, if_pos hx]

theorem applyStaged_read_some {x y : σ} (h : m.applyStaged (m.read x) = some y) : y = x := by
  rw [applyStaged, m.extract_read, Option.filter_some] at h
  split at h
  · exact (Option.some.inj h).symm
  · cases h

end Member

namespace BlockDescriptor

variable (d : BlockDescriptor κ ν τ)

/-- The values of writable members in the map are values that the members can have. -/
def Converted (parameters : PropertyMap ν) : Prop :=
  ∀ k m v, d.writable k = some m → parameters.lookup k = some v → ∃ x, v = m.read x

variable {d} {parameters other : PropertyMap ν} {k : Key}

theorem writable_member {m : Member ν (τ k)} (h : d.writable k = some m) : d.member k = some m :=
  (Option.filter_eq_some_iff.mp h).1

theorem Converted.empty : d.Converted ∅ := by
  intro k m v _ hv
  rw [AList.lookup_empty] at hv
  cases hv

theorem Converted.insert {v : ν} (h : d.Converted parameters) (hv : ∀ m, d.member k = some m → ∃ x, v = m.read x) :
    d.Converted (parameters.insert k v) := by
  intro k' m v' hm hv'
  rw [AList.lookup_insert_eq] at hv'
  split at hv'
  · next heq =>
    subst heq
    cases hv'
    exact hv m (writable_member hm)
  · exact h k' m v' hm hv'

theorem Converted.filter (h : d.Converted parameters) (p : Key → ν → Bool) : d.Converted (parameters.filter p) :=
  fun k m v hm hv => h k m v hm (AList.mem_lookup_filter.mp hv).1

theorem Converted.storeCurrentParameters (h : d.Converted parameters) (members : Members τ) :
    d.Converted (d.storeCurrentParameters members parameters) := by
  unfold BlockDescriptor.storeCurrentParameters
  induction d.memberNames generalizing parameters with
  | nil => exact h
  | cons name names ih =>
    have hnext : d.Converted (d.readParameter members parameters name) := by
      unfold readParameter
      split
      · next m hm =>
        refine h.insert fun m' hm' => ?_
        rw [hm] at hm'
        cases hm'
        exact ⟨members name, rfl⟩
      · exact h
    exact ih hnext

/-- The map takes the value of each member and keeps its other values. -/
theorem lookup_storeCurrentParameters (members : Members τ) (parameters : PropertyMap ν) (k : Key) :
    (d.storeCurrentParameters members parameters).lookup k =
      ((d.member k).map fun m => m.read (members k)).or (parameters.lookup k) := by
  have fold : ∀ (names : List Key) (parameters : PropertyMap ν),
      (names.foldl (d.readParameter members) parameters).lookup k =
        (if k ∈ names then (d.member k).map fun m => m.read (members k) else none).or (parameters.lookup k) := by
    intro names
    induction names with
    | nil => exact fun parameters => rfl
    | cons name names ih =>
      intro parameters
      rw [List.foldl_cons, ih, readParameter]
      by_cases hk : k = name
      · subst hk
        cases hm : d.member k with
        | none => simp
        | some m =>
          simp only [AList.lookup_insert, List.mem_cons, true_or, ↓reduceIte]
          split <;> rfl
      · have hmem : k ∈ name :: names ↔ k ∈ names := by simp [hk]
        simp only [hmem]
        cases d.member name with
        | none => rfl
        | some m => rw [AList.lookup_insert_ne hk]
  rw [BlockDescriptor.storeCurrentParameters, fold]
  split
  · rfl
  · next hk =>
    have hm : d.member k = none := by
      rw [d.mem_memberNames] at hk
      simpa using hk
    rw [hm]
    rfl

end BlockDescriptor

/-! ### Staging converted values -/

namespace CtxSettings

variable {d : BlockDescriptor κ ν τ} {s : CtxSettings κ ν τ} {parameters : PropertyMap ν} {k : Key}

theorem convertStaged_ok {acc acc' : PropertyMap ν × PropertyMap ν} {key : Key} {value : ν}
    (h : convertStaged d acc key value = .ok acc') :
    (d.writable key = none ∧ acc' = (acc.1, acc.2.insert key value)) ∨
      ∃ m v, d.writable key = some m ∧ m.setParameter value = .ok v ∧ acc' = (acc.1.insert key v, acc.2) := by
  unfold convertStaged at h
  split at h
  · next hm =>
    cases h
    exact Or.inl ⟨hm, rfl⟩
  · next m hm =>
    split at h
    · cases h
    · next v hv =>
      cases h
      exact Or.inr ⟨m, v, hm, hv, rfl⟩

/-- A key is converted only when it is in the map and writable. -/
theorem mem_of_convertStaged {entries : List (Sigma fun _ : Key => ν)} {acc converted : PropertyMap ν × PropertyMap ν}
    (h : entries.foldlM (fun converted e => convertStaged d converted e.1 e.2) acc = .ok converted)
    (hk : k ∈ converted.1) : k ∈ acc.1 ∨ (k ∈ entries.map Sigma.fst ∧ (d.writable k).isSome) := by
  induction entries generalizing acc with
  | nil =>
    cases h
    exact Or.inl hk
  | cons e entries ih =>
    rw [List.foldlM_cons] at h
    cases hacc : convertStaged d acc e.1 e.2 with
    | error refusal =>
      rw [hacc] at h
      cases h
    | ok acc' =>
      rw [hacc] at h
      rcases ih h with hk' | ⟨hmem, hw⟩
      · obtain ⟨-, rfl⟩ | ⟨m, v, hm, -, rfl⟩ := convertStaged_ok hacc
        · exact Or.inl hk'
        · rcases (AList.mem_insert _).mp hk' with rfl | hk'
          · exact Or.inr ⟨.head _, by rw [hm]; rfl⟩
          · exact Or.inl hk'
      · exact Or.inr ⟨.tail _ hmem, hw⟩

/-- Values that members can have are all taken, as they are. -/
theorem convertStaged_of_converted {entries : List (Sigma fun _ : Key => ν)} (hnodup : entries.NodupKeys)
    (hconv : ∀ e ∈ entries, ∀ m, d.writable e.1 = some m → ∃ x, e.2 = m.read x) (acc : PropertyMap ν × PropertyMap ν) :
    ∃ converted, entries.foldlM (fun converted e => convertStaged d converted e.1 e.2) acc = .ok converted ∧
      ∀ k, converted.1.lookup k =
        (if (d.writable k).isSome then entries.dlookup k else none).or (acc.1.lookup k) := by
  induction entries generalizing acc with
  | nil => exact ⟨acc, rfl, fun k => by simp⟩
  | cons e entries ih =>
    obtain ⟨key, value⟩ := e
    have htail := ih (List.nodupKeys_cons.mp hnodup).2 fun e he => hconv e (.tail _ he)
    have hnot : entries.dlookup key = none :=
      List.dlookup_eq_none.mpr (List.nodupKeys_cons.mp hnodup).1
    cases hm : d.writable key with
    | none =>
      obtain ⟨converted, hfold, hlookup⟩ := htail (acc.1, acc.2.insert key value)
      refine ⟨converted, ?_, fun k => ?_⟩
      · rw [List.foldlM_cons, convertStaged, hm]
        exact hfold
      · rw [hlookup k]
        by_cases hk : k = key
        · subst hk
          simp [hm]
        · rw [List.dlookup_cons_ne _ _ hk]
    | some m =>
      obtain ⟨x, hx⟩ := hconv ⟨key, value⟩ (.head _) m hm
      obtain ⟨converted, hfold, hlookup⟩ := htail (acc.1.insert key value, acc.2)
      refine ⟨converted, ?_, fun k => ?_⟩
      · dsimp only at hx
        rw [List.foldlM_cons, convertStaged, hm]
        simp only [hx, m.setParameter_read]
        rw [hx] at hfold
        exact hfold
      · rw [hlookup k]
        by_cases hk : k = key
        · subst hk
          simp [hm, hnot]
        · rw [List.dlookup_cons_ne _ _ hk, AList.lookup_insert_ne hk]

/-- The settings with the converted values staged. -/
def staging (s : CtxSettings κ ν τ) (converted : PropertyMap ν) : CtxSettings κ ν τ :=
  { s with
    taggedKeys := s.taggedKeys \ converted.keys.toFinset
    stagedParameters := converted ∪ s.stagedParameters
    changed := s.changed || (converted ∪ s.stagedParameters).entries ≠ [] }

theorem setStaged_cases (s : CtxSettings κ ν τ) (parameters : PropertyMap ν) :
    (∃ refusal, s.setStaged d parameters = (.error refusal, s)) ∨
      ∃ ret converted, s.setStaged d parameters = (.ok ret, s.staging converted) ∧
        ∀ k, k ∈ converted → k ∈ parameters ∧ (d.writable k).isSome := by
  unfold setStaged
  split
  · next refusal _ => exact Or.inl ⟨refusal, rfl⟩
  · next converted ret hfold =>
    refine Or.inr ⟨ret, converted, rfl, fun k hk => ?_⟩
    rcases mem_of_convertStaged hfold hk with hk | hk
    · exact absurd hk (AList.notMem_empty k)
    · exact hk

theorem setStaged_of_converted (s : CtxSettings κ ν τ) (h : d.Converted parameters) :
    ∃ ret converted, s.setStaged d parameters = (.ok ret, s.staging converted) ∧
      ∀ k, converted.lookup k = if (d.writable k).isSome then parameters.lookup k else none := by
  have hentries : ∀ e ∈ parameters.entries, ∀ m, d.writable e.1 = some m → ∃ x, e.2 = m.read x :=
    fun e he m hm => h e.1 m e.2 hm (AList.mem_lookup_iff.mpr he)
  obtain ⟨⟨converted, ret⟩, hfold, hlookup⟩ :=
    convertStaged_of_converted parameters.nodupKeys hentries (∅, ∅)
  refine ⟨ret, converted, ?_, fun k => ?_⟩
  · rw [setStaged, hfold]
    rfl
  · rw [hlookup k, AList.lookup_empty, Option.or_none]
    rfl

end CtxSettings

end GnuRadio.Settings
