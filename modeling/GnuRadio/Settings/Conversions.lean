import GnuRadio.Pmt.Conversion
import GnuRadio.Settings.CtxSettings

/-! What the settings of a block make of a `pmt::Value`: `convertParameter()` for set(), `autoUpdateImpl()` for a coupled tag,
    `extractStagedValue()` for the apply and `readMember()` for get() (Settings.hpp). `μ` is the type of a property map. The
    shape of a tensor is not read. -/

namespace GnuRadio.Settings.Conversions

open Pmt (ConversionError Floating Integer NumericType Platform nearbyint truncate)
open Yaml (Bytes)

/-! ### Values -/

/-- What a value holds that is no container, and what a `Tensor<T>` holds. -/
inductive Kind
  | bool
  | number (T : NumericType)
  | text
  deriving DecidableEq

abbrev Kind.Val : Kind → Type
  | .bool => Bool
  | .number T => T.Val
  | .text => Bytes

/-- `pmt::Value`. `list` is a `Tensor<pmt::Value>`, and `tensor` one of another type. -/
inductive Value (μ : Type)
  | monostate
  | scalar (K : Kind) (x : K.Val)
  | tensor (K : Kind) (elements : List K.Val)
  | list (elements : List (Value μ))
  | map (entries : μ)

variable {μ : Type}

namespace Value

/-- `get_if<T>()` of a scalar, and `value_or(std::string_view{})` of a text. -/
def scalarOf (K : Kind) : Value μ → Option K.Val
  | .scalar L x => if h : L = K then some (h ▸ x) else none
  | _ => none

/-- `get_if<Tensor<T>>()` -/
def tensorOf (K : Kind) : Value μ → Option (List K.Val)
  | .tensor L elements => if h : L = K then some (h ▸ elements) else none
  | _ => none

def mapOf : Value μ → Option μ
  | .map entries => some entries
  | _ => none

def isString (v : Value μ) : Bool := (v.scalarOf .text).isSome

/-- A number that is neither a bool nor complex. -/
def isRealNumber : Value μ → Bool
  | .scalar (.number (.integer _)) _ | .scalar (.number (.floating _)) _ => true
  | _ => false

end Value

/-! ### `convert_safely()` -/

variable (platform : Platform)

def convertToNumber (T : NumericType) : Value μ → Except ConversionError T.Val
  | .scalar (.number S) x => Pmt.convertSafely platform S T x
  | .scalar .text s => Pmt.convertText platform T s
  | _ => .error .noSafeConversion

/-- A bool is an integer of one digit. -/
def integerToBool {S : Yaml.IntType} (srcValue : Integer S) : Except ConversionError Bool :=
  if S.signed = true ∧ srcValue.val < 0 then .error .negativeInteger
  else if Pmt.uintmax srcValue.val ≤ 1 then .ok (decide (srcValue.val ≠ 0))
  else .error .integerOutOfRange

def floatingToBool {S : Yaml.FloatType} : Floating S → Except ConversionError Bool
  | .infinite _ | .nan => .error .notFinite
  | .finite srcValue _ =>
    if srcValue < 0 ∨ 2 ≤ srcValue then .error .outside
    else if srcValue ≠ nearbyint srcValue then .error .notAnInteger
    else .ok (decide (truncate srcValue ≠ 0))

def textToBool (srcValue : Bytes) : Except ConversionError Bool :=
  let s := srcValue.map Char.toLower
  if s = ['t', 'r', 'u', 'e'] ∨ s = ['1'] then .ok true
  else if s = ['f', 'a', 'l', 's', 'e'] ∨ s = ['0'] then .ok false
  else .error .cannotParse

def convertToBool : Value μ → Except ConversionError Bool
  | .scalar .bool b => .ok b
  | .scalar (.number (.integer _)) n => integerToBool n
  | .scalar (.number (.floating _)) x => floatingToBool x
  | .scalar (.number (.complex _)) x => if x.2.isNonzero then .error .notRealValued else .error (.noComplexConversion .noSafeConversion)
  | .scalar .text s => textToBool s
  | _ => .error .noSafeConversion

/-- `convert_safely<T, false>()` for the type of a scalar setting. A text is no other value. -/
def convertScalar : (K : Kind) → Value μ → Except ConversionError K.Val
  | .bool, v => convertToBool v
  | .number T, v => convertToNumber platform T v
  | .text, v => match v.scalarOf .text with
    | some s => .ok s
    | none => .error .noSafeConversion

/-! ### Members -/

/-- The enumerators of an enumeration with their values. -/
structure Enumeration where
  entries : List (Bytes × Int)
  nodup : (entries.map Prod.fst).Nodup

/-- `parseEnum()` -/
def Enumeration.parse (E : Enumeration) (s : Bytes) : Option Int := (E.entries.find? fun entry => s = entry.1).map Prod.snd

/-- `enumName()`, empty for a value without a name. -/
def Enumeration.name (E : Enumeration) (value : Int) : Bytes :=
  ((E.entries.find? fun entry => value = entry.2).map Prod.fst).getD []

/-- The type of a writable member. A list has a size where it is a `std::array`. -/
inductive MemberType
  | scalar (K : Kind)
  | enumeration (E : Enumeration)
  | list (K : Kind) (size : Option Nat)
  | map

abbrev MemberType.Val (μ : Type) : MemberType → Type
  | .scalar K => K.Val
  | .enumeration E => { value : Int // value ∈ E.entries.map Prod.snd }
  | .list K size => { elements : List K.Val // ∀ n ∈ size, elements.length = n }
  | .map => μ

/-- Why a value does not convert. -/
inductive ParameterError
  | wrongType
  | expectsEnumString
  | invalidEnumValue (text : Bytes)
  | notATensor
  | size (n arraySize : Nat)
  | element (reason : ConversionError)
  deriving DecidableEq

theorem Enumeration.parse_mem {E : Enumeration} {s : Bytes} {value : Int} (h : E.parse s = some value) :
    value ∈ E.entries.map Prod.snd := by
  obtain ⟨entry, hentry, rfl⟩ := Option.map_eq_some_iff.mp h
  exact List.mem_map_of_mem (List.mem_of_find?_eq_some hentry)

/-- `tryExtractEnumValue()` -/
def tryExtractEnumValue (E : Enumeration) (v : Value μ) : Except ParameterError (MemberType.Val μ (.enumeration E)) :=
  match v.scalarOf .text with
  | none => .error .expectsEnumString
  | some s =>
    match h : E.parse s with
    | none => .error (.invalidEnumValue s)
    | some value => .ok ⟨value, Enumeration.parse_mem h⟩

/-- The size that an array has for a list of `n` elements. -/
def checkSize (size : Option Nat) (n : Nat) : Except ParameterError Unit :=
  match size with
  | some arraySize => if n = arraySize then .ok () else .error (.size n arraySize)
  | none => .ok ()

theorem checkSize_length {size : Option Nat} {n : Nat} (h : checkSize size n = .ok ()) : ∀ m ∈ size, n = m := by
  rintro m rfl
  simp only [checkSize] at h
  split at h
  · assumption
  · cases h

/-- The list with the elements, which an array has place for. -/
def sized {K : Kind} (size : Option Nat) (elements : List K.Val) : Except ParameterError (MemberType.Val μ (.list K size)) :=
  match h : checkSize size elements.length with
  | .ok () => .ok ⟨elements, checkSize_length h⟩
  | .error error => .error error

/-- The elements of a sequence of values, each converted by the rule of a scalar setting. -/
def convertElements (K : Kind) (elements : List (Value μ)) : Except ParameterError (List K.Val) :=
  elements.mapM fun element => (convertScalar platform K element).mapError .element

/-- `TValue(in.value_or(std::string_view{}))`: empty for a value that is no text. -/
def textOrEmpty (v : Value μ) : Bytes := (v.scalarOf .text).getD []

/-- A list of numbers from a sequence of values, or from a tensor of its element type. -/
def convertNumbers (K : Kind) (size : Option Nat) : Value μ → Except ParameterError (MemberType.Val μ (.list K size))
  | .list elements =>
    match checkSize size elements.length with
    | .error error => .error error
    | .ok () => (convertElements platform K elements).bind fun converted => sized size converted
  | v =>
    match v.tensorOf K with
    | some elements => sized size elements
    | none => .error .notATensor

/-- A list of strings from a sequence of values. -/
def convertTexts (size : Option Nat) : Value μ → Except ParameterError (MemberType.Val μ (.list .text size))
  | .list elements => sized size (elements.map textOrEmpty : List Kind.text.Val)
  | _ => .error .notATensor

/-- `convertParameter()` -/
def convertParameter : (m : MemberType) → Value μ → Except ParameterError (m.Val μ)
  | .scalar K, v => (convertScalar platform K v).mapError fun _ => .wrongType
  | .enumeration E, v => tryExtractEnumValue E v
  | .list .text size, v => convertTexts size v
  | .list .bool size, v => convertNumbers platform .bool size v
  | .list (.number T) size, v => convertNumbers platform (.number T) size v
  | .map, v => match v.mapOf with
    | some entries => .ok entries
    | none => .error .wrongType

/-- What set() puts into a map for a converted value, and get() for a member. -/
def parameterValue : (m : MemberType) → m.Val μ → Value μ
  | .scalar K, x => .scalar K x
  | .enumeration E, value => .scalar .text (E.name value.val)
  | .list .text _, elements => .list (elements.val.map (.scalar .text))
  | .list .bool _, elements => .tensor .bool elements.val
  | .list (.number T) _, elements => .tensor (.number T) elements.val
  | .map, entries => .map entries

/-- `setParameterImpl()` -/
def setParameter (m : MemberType) (v : Value μ) : Except ParameterError (Value μ) :=
  (convertParameter platform m v).map (parameterValue m)

/-! ### Tags -/

/-- The sequence of strings that a list of strings or a sequence of strings is. -/
def stagedStringList : Value μ → Option (Value μ)
  | .tensor .text elements => some (.list (elements.map (.scalar .text)))
  | .list elements => if elements.all Value.isString then some (.list elements) else none
  | _ => none

/-- `convert_numerically()` for a type that the value does not hold. -/
def convertNumerically (T : NumericType) (v : Value μ) : Option (Value μ) :=
  if v.isRealNumber then (convertToNumber platform T v).toOption.map (.scalar (.number T)) else none

/-- `autoUpdateImpl()`: the value that a coupled tag stages, none for a value that it does not take. -/
def autoUpdate : MemberType → Value μ → Option (Value μ)
  | .enumeration _, v | .scalar .text, v => if v.isString then some v else none
  | .list .text _, v => stagedStringList v
  | .list .bool _, v => (v.tensorOf .bool).map (.tensor .bool)
  | .list (.number T) _, v => (v.tensorOf (.number T)).map (.tensor (.number T))
  | .scalar .bool, v => if (v.scalarOf .bool).isSome then some v else none
  | .scalar (.number (.complex F)), v => if (v.scalarOf (.number (.complex F))).isSome then some v else none
  | .scalar (.number T), v => if (v.scalarOf (.number T)).isSome then some v else convertNumerically platform T v
  | .map, v => if v.mapOf.isSome then some v else none

/-! ### The apply -/

/-- `extractStagedValue()` -/
def extractStagedValue : (m : MemberType) → Value μ → Option (m.Val μ)
  | .enumeration E, v => (tryExtractEnumValue E v).toOption
  | .scalar K, v => v.scalarOf K
  | .list .text size, v => (convertTexts size v).toOption
  | .list .bool size, v => if (v.tensorOf .bool).isSome then (convertNumbers platform .bool size v).toOption else none
  | .list (.number T) size, v =>
    if (v.tensorOf (.number T)).isSome then (convertNumbers platform (.number T) size v).toOption else none
  | .map, v => v.mapOf

/-- `applyStagedMember()` with the limits of the member: its new value, none for a staged value that it refuses. -/
def applyStaged (m : MemberType) (limits : m.Val μ → Bool) (stagedValue : Value μ) : Option (m.Val μ) :=
  (extractStagedValue platform m stagedValue).filter limits

/-! ### What the conversions are for -/

/-- The strings of a list or of a sequence of strings. -/
def Value.texts : Value μ → Option (List Bytes)
  | .tensor .text elements => some elements
  | .list elements => elements.mapM (Value.scalarOf .text)
  | _ => none

/-- The value of a member that a value stands for. -/
def denoted : (m : MemberType) → Value μ → Option (m.Val μ)
  | .list .text size, v => v.texts.bind fun texts => (sized size texts : Except _ (MemberType.Val μ (.list .text size))).toOption
  | .list .bool size, v => (convertParameter platform (.list .bool size) v).toOption
  | .list (.number T) size, v => (convertParameter platform (.list (.number T) size) v).toOption
  | .scalar K, v => (convertParameter platform (.scalar K) v).toOption
  | .enumeration E, v => (convertParameter platform (.enumeration E) v).toOption
  | .map, v => (convertParameter platform .map v).toOption

/-- A text for an enumeration is the name of one of its values. -/
def MemberType.Named (v : Value μ) : MemberType → Prop
  | .enumeration E => ∀ s : Bytes, v.scalarOf .text = some s → (E.parse s).isSome = true
  | _ => True

def Value.length : Value μ → Nat
  | .tensor _ elements => elements.length
  | .list elements => elements.length
  | _ => 0

/-- An array has as many elements as the list. -/
def MemberType.Fits (v : Value μ) : MemberType → Prop
  | .list _ (some n) => v.length = n
  | _ => True

/-- What set() and a tag take is what the apply sets, where the limits allow it; get() gives it back; set() and a tag agree.
    The elements of a sequence for a list of numbers convert by the rule of a scalar, and a tag takes no such sequence; a tag
    takes strings only for a list of strings; a tensor of another element type is refused. -/
structure Survive (μ : Type) : Prop where
  set : ∀ (m : MemberType) (v w : Value μ), setParameter platform m v = .ok w →
    ∃ x, convertParameter platform m v = .ok x ∧ ∀ limits, limits x = true → applyStaged platform m limits w = some x
  tag : ∀ (m : MemberType) (v w : Value μ), autoUpdate platform m v = some w → m.Named v → m.Fits v →
    ∃ x, denoted platform m v = some x ∧ ∀ limits, limits x = true → applyStaged platform m limits w = some x
  get : ∀ (m : MemberType) (x : m.Val μ), ∃ w, setParameter platform m (parameterValue m x) = .ok w ∧
    ∀ limits, limits x = true → applyStaged platform m limits w = some x
  same : ∀ (m : MemberType) (v w w' : Value μ), setParameter platform m v = .ok w → autoUpdate platform m v = some w' →
    ∀ limits, applyStaged platform m limits w = applyStaged platform m limits w'
  numbers : ∀ (K : Kind) (size : Option Nat) (elements : List (Value μ)), K ≠ .text →
    autoUpdate platform (.list K size) (.list elements) = none ∧
      ∀ w, setParameter platform (.list K size) (.list elements) = .ok w →
        ∃ xs, List.Forall₂ (fun element x => convertScalar platform K element = .ok x) elements xs ∧ w = .tensor K xs
  strings : ∀ (size : Option Nat) (v w : Value μ), autoUpdate platform (.list .text size) v = some w →
    ∃ texts, v.texts = some texts ∧ w = .list (texts.map (.scalar .text))
  kinds : ∀ (K L : Kind) (size : Option Nat) (elements : List L.Val), L ≠ K →
    autoUpdate platform (.list K size) (.tensor L elements : Value μ) = none ∧
      setParameter platform (.list K size) (.tensor L elements : Value μ) = .error .notATensor

end GnuRadio.Settings.Conversions
