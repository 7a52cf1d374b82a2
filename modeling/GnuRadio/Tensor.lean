import GnuRadio.Library.Transition
import Mathlib.Algebra.Ring.Nat

/-! `Tensor<T>` with dynamic extents (`core/include/gnuradio-4.0/Tensor.hpp`): the meta information and
    the data it keeps, its constructors, and what each operation does to them.

    An operation that throws has an outcome of its own, since it may have written before it throws. A
    copy of more extents than the arrays hold makes the list longer than `kMaxRank`: in the code it
    writes past the array. -/

namespace GnuRadio

open Function

/-- `GR_TENSOR_MAX_RANK`. -/
def kMaxRank : Nat := 8

/-- The values of `std::size_t`. -/
def sizeModulus : Nat := 2 ^ 64

/-- `dynamic_extents_store`: the arrays hold `kMaxRank` entries, of which `rank` are in use. -/
structure ExtentsStore where
  rank : Nat := 0
  extents : List Nat := List.replicate kMaxRank 0
  strides : List Nat := List.replicate kMaxRank 0
deriving DecidableEq, Repr

/-- `Tensor<T>`: `resource` names the memory resource of `_data`. -/
structure Tensor (α : Type) where
  metaInfo : ExtentsStore := {}
  data : List α := []
  resource : Nat := 0
deriving DecidableEq, Repr

/-- How a call ends: what it leaves of the tensor, and whether it throws. -/
structure Outcome (α : Type) where
  tensor : Tensor α
  thrown : Bool := false

/-- The extents and elements of a tensor of another type, each element cast to `T`. The rank of one with static
    extents has no bound. -/
structure Source (α : Type) where
  extents : List Nat
  elements : List α
  elements_nil : extents = [] → elements = []
  prod_extents : extents ≠ [] → extents.prod = elements.length

namespace ExtentsStore

/-- `std::ranges::copy_n` to the front of an array. -/
def copy (values array : List Nat) : List Nat := values ++ array.drop values.length

/-- The strides that `recomputeStrides` fills in from the back. -/
def rowMajor : List Nat → List Nat
  | [] => []
  | [_] => [1]
  | _ :: e :: es =>
    let strides := rowMajor (e :: es)
    strides.headD 1 * e % sizeModulus :: strides

/-- `recomputeStrides()`: nothing is written at rank 0. -/
def recomputeStrides (m : ExtentsStore) : ExtentsStore :=
  { m with strides := copy (rowMajor (m.extents.take m.rank)) m.strides }

/-- The shape of a tensor of rank 1. -/
def setFlat (m : ExtentsStore) (count : Nat) : ExtentsStore :=
  { m with rank := 1, extents := m.extents.set 0 count }

/-- `rank = newExtents.size()` and the copy of the extents. -/
def setExtents (m : ExtentsStore) (newExtents : List Nat) : ExtentsStore :=
  { m with rank := newExtents.length, extents := copy newExtents m.extents }

end ExtentsStore

namespace Tensor

open ExtentsStore

variable {α : Type}

/-- `product()`: it throws where the product so far would pass the largest `std::size_t`. -/
def productFrom : Nat → List Nat → Option Nat
  | n, [] => some n
  | n, e :: es => if e ≠ 0 ∧ n > (sizeModulus - 1) / e then none else productFrom (n * e) es

def product (extents : List Nat) : Option Nat := productFrom 1 extents

def rank (t : Tensor α) : Nat := t.metaInfo.rank

def extents (t : Tensor α) : List Nat := t.metaInfo.extents.take t.rank

def strides (t : Tensor α) : List Nat := t.metaInfo.strides.take t.rank

def size (t : Tensor α) : Nat := t.data.length

/-- `_data.resize(newSize)`: new elements are value-initialised. -/
def resized [Inhabited α] (data : List α) (newSize : Nat) : List α :=
  data.take newSize ++ List.replicate (newSize - data.length) default

/-! ### Construction -/

/-- The constructors, by what they read. -/
inductive Construct (α : Type)
  /-- `Tensor(mr)`. -/
  | default (mr : Nat)
  /-- `Tensor(v, mr)`. -/
  | value (v : α) (mr : Nat)
  /-- `Tensor(extents, mr)`, with or without `extents_from`. -/
  | extentsFrom (extents : List Nat) (mr : Nat)
  /-- `Tensor(values, mr)` from a list, a range, a vector or two iterators, with or without `data_from`. -/
  | dataFrom (values : List α) (mr : Nat)
  /-- `Tensor(count, value, mr)`. -/
  | countValue (count : Nat) (value : α) (mr : Nat)
  /-- `Tensor(extents, data, mr)`. -/
  | extentsAndData (extents : List Nat) (data : List α) (mr : Nat)
  /-- `Tensor(const Tensor<OtherT, OtherEx...>&, mr)`. -/
  | convertedCopy (other : Source α) (mr : Nat)
  /-- `Tensor(Tensor<OtherT, OtherEx...>&&, mr)`. -/
  | convertedMove (other : Source α) (mr : Nat)

/-- A tensor with given extents, its strides computed from them. -/
def withExtents (extents : List Nat) (data : List α) (mr : Nat) : Tensor α where
  metaInfo := (ExtentsStore.setExtents {} extents).recomputeStrides
  data := data
  resource := mr

/-- The new object, none where the constructor throws. -/
def construct [Inhabited α] : Construct α → Option (Tensor α)
  | .default mr => some { resource := mr }
  | .value _ mr => some { resource := mr }
  | .extentsFrom extents mr =>
    if extents.length > kMaxRank then none
    else (product extents).map fun n => withExtents extents (List.replicate n default) mr
  | .dataFrom values mr =>
    some { metaInfo := (ExtentsStore.setFlat {} values.length).recomputeStrides, data := values, resource := mr }
  | .countValue count value mr =>
    some
      { metaInfo := (ExtentsStore.setFlat {} count).recomputeStrides
        data := List.replicate count value
        resource := mr }
  | .extentsAndData extents data mr =>
    if extents.length > kMaxRank then none
    else if product extents = some data.length then some (withExtents extents data mr)
    else none
  | .convertedCopy other mr =>
    if other.extents.length > kMaxRank then none
    else some (withExtents other.extents other.elements mr)
  | .convertedMove other mr =>
    some
      { metaInfo :=
          { rank := other.extents.length
            extents := copy other.extents (List.replicate kMaxRank 0)
            strides := copy (rowMajor other.extents) (List.replicate kMaxRank 0) }
        data := other.elements
        resource := mr }

/-- `Tensor(const Tensor&, mr)`. -/
def copyOf (other : Tensor α) (mr : Nat) : Tensor α where
  metaInfo := other.metaInfo.recomputeStrides
  data := other.data
  resource := mr

/-- What the move of `_data` leaves: the meta information is copied. -/
def movedFrom (other : Tensor α) : Tensor α := { other with data := [] }

/-! ### Operations on one tensor -/

inductive Modify (α : Type)
  /-- `push_back(const T&)`. -/
  | pushBackCopy (value : α)
  /-- `push_back(T&&)`. -/
  | pushBackMove (value : α)
  | emplaceBack (value : α)
  | popBack
  | assignRange (values : List α)
  | assignCount (count : Nat) (value : α)
  /-- `operator=(const T&)`. -/
  | setValue (value : α)
  /-- `operator=(const Range&)`. -/
  | setRange (values : List α)
  /-- `operator=(std::initializer_list<T>)`. -/
  | setList (values : List α)
  /-- `operator=(const Tensor<OtherT, OtherEx...>&)`. -/
  | setConverted (other : Source α)
  | resize (newExtents : List Nat) (value : α)
  | resizeDim (dim newExtent : Nat)
  | reshape (newExtents : List Nat)
  | clear
  | reserve (newCap : Nat)
  | shrinkToFit

def pushBackCopy (t : Tensor α) (value : α) : Tensor α :=
  let m :=
    if t.rank > 1 then
      { t.metaInfo with rank := 1, extents := t.size :: (t.metaInfo.extents.drop 1).map fun _ => 0 }
    else if t.rank = 0 then t.metaInfo.setFlat 0
    else t.metaInfo
  { t with
    metaInfo := { m.recomputeStrides with extents := m.extents.modify 0 (· + 1) }
    data := t.data ++ [value] }

/-- The overload for temporaries leaves the strides. -/
def pushBackMove (t : Tensor α) (value : α) : Tensor α :=
  let m :=
    if t.rank > 1 then t.metaInfo.setFlat t.size
    else if t.rank = 0 then t.metaInfo.setFlat 0
    else t.metaInfo
  { t with
    metaInfo := { m with extents := m.extents.modify 0 (· + 1) }
    data := t.data ++ [value] }

/-- `extents = {count}` sets the first entry and zeroes the others. -/
def onlyFirst (count : Nat) : List Nat := count :: List.replicate (kMaxRank - 1) 0

def emplaceBack (t : Tensor α) (value : α) : Tensor α :=
  let extents :=
    if t.rank > 1 then onlyFirst t.size
    else if t.rank = 0 then onlyFirst 0
    else t.metaInfo.extents
  { t with
    metaInfo := { t.metaInfo with extents := extents.modify 0 (· + 1) }
    data := t.data ++ [value] }

/-- `--` on a `std::size_t`. -/
def decremented (n : Nat) : Nat := if n = 0 then sizeModulus - 1 else n - 1

def popBack (t : Tensor α) : Outcome α :=
  if t.data = [] then ⟨t, true⟩
  else if t.rank ≤ 1 then
    let extents := t.metaInfo.extents.modify 0 decremented
    let extents := if extents.head? = some 0 then extents.map fun _ => 0 else extents
    ⟨{ t with
        metaInfo := if t.rank = 1 then { t.metaInfo with extents := extents } else t.metaInfo
        data := t.data.dropLast }, false⟩
  else
    ⟨{ t with
        metaInfo := { t.metaInfo with extents := (onlyFirst t.size).modify 0 decremented }
        data := t.data.dropLast }, false⟩

/-- The strides are left, also where the shape is set from the values. -/
def assignRange (t : Tensor α) (values : List α) : Outcome α :=
  if t.extents = [] then ⟨{ t with metaInfo := t.metaInfo.setFlat values.length, data := values }, false⟩
  else if values.length ≠ t.size then ⟨t, true⟩
  else ⟨{ t with data := values }, false⟩

def assignCount (t : Tensor α) (count : Nat) (value : α) : Tensor α :=
  { t with metaInfo := (t.metaInfo.setFlat count).recomputeStrides, data := List.replicate count value }

/-- `fill`. -/
def setValue (t : Tensor α) (value : α) : Tensor α := { t with data := t.data.map fun _ => value }

/-- The assignments from a range and from a list are written out alike. -/
def setRange (t : Tensor α) (values : List α) : Outcome α :=
  if t.rank = 0 then
    ⟨{ t with metaInfo := (t.metaInfo.setFlat values.length).recomputeStrides, data := values }, false⟩
  else if values.length ≠ t.size then ⟨t, true⟩
  else ⟨{ t with data := values }, false⟩

/-- A temporary is made in the tensor's resource and swapped with it: the conversion throws above `kMaxRank`. -/
def setConverted [Inhabited α] (t : Tensor α) (other : Source α) : Outcome α :=
  match construct (.convertedCopy other t.resource) with
  | some temp => ⟨temp, false⟩
  | none => ⟨t, true⟩

def clear (t : Tensor α) : Tensor α :=
  { t with
    metaInfo := { t.metaInfo with rank := 0, extents := t.metaInfo.extents.map fun _ => 0 }
    data := [] }

/-- The rank is set before the product is checked, and never compared with `kMaxRank`. -/
def resize (t : Tensor α) (newExtents : List Nat) (value : α) : Outcome α :=
  if newExtents = [] then ⟨t.clear, false⟩
  else
    match product newExtents with
    | none => ⟨{ t with metaInfo := { t.metaInfo with rank := newExtents.length } }, true⟩
    | some newSize =>
      ⟨{ t with
          metaInfo := (t.metaInfo.setExtents newExtents).recomputeStrides
          data := List.replicate newSize value }, false⟩

/-- The extent is written before the product is checked. -/
def resizeDim [Inhabited α] (t : Tensor α) (dim newExtent : Nat) : Outcome α :=
  if dim ≥ t.rank then ⟨t, true⟩
  else if t.metaInfo.extents[dim]? = some newExtent then ⟨t, false⟩
  else
    let m := { t.metaInfo with extents := t.metaInfo.extents.set dim newExtent }
    match product (m.extents.take m.rank) with
    | none => ⟨{ t with metaInfo := m }, true⟩
    | some newTotalSize =>
      ⟨{ t with metaInfo := m.recomputeStrides, data := resized t.data newTotalSize }, false⟩

def reshape (t : Tensor α) (newExtents : List Nat) : Outcome α :=
  if product newExtents = some t.size then
    ⟨{ t with metaInfo := (t.metaInfo.setExtents newExtents).recomputeStrides }, false⟩
  else ⟨t, true⟩

def modify [Inhabited α] (t : Tensor α) : Modify α → Outcome α
  | .pushBackCopy value => ⟨t.pushBackCopy value, false⟩
  | .pushBackMove value => ⟨t.pushBackMove value, false⟩
  | .emplaceBack value => ⟨t.emplaceBack value, false⟩
  | .popBack => t.popBack
  | .assignRange values => t.assignRange values
  | .assignCount count value => ⟨t.assignCount count value, false⟩
  | .setValue value => ⟨t.setValue value, false⟩
  | .setRange values => t.setRange values
  | .setList values => t.setRange values
  | .setConverted other => t.setConverted other
  | .resize newExtents value => t.resize newExtents value
  | .resizeDim dim newExtent => t.resizeDim dim newExtent
  | .reshape newExtents => t.reshape newExtents
  | .clear => ⟨t.clear, false⟩
  | .reserve _ => ⟨t, false⟩
  | .shrinkToFit => ⟨t, false⟩

/-! ### Several tensors -/

/-- Operations on the tensors of a program, each under a name of its own. -/
inductive Act (ι : Type) (α : Type)
  | construct (i : ι) (c : Construct α)
  /-- `Tensor i(j, mr)`. -/
  | constructCopy (i j : ι) (mr : Nat)
  /-- `Tensor i(std::move(j))`. -/
  | constructMove (i j : ι)
  | modify (i : ι) (m : Modify α)
  /-- `i = j`. -/
  | assignCopy (i j : ι)
  /-- `i = std::move(j)`. -/
  | assignMove (i j : ι)
  | swap (i j : ι)

section Store

variable {ι : Type} [DecidableEq ι] [Inhabited α]

/-- `operator=(const Tensor&)`: the data goes to the tensor's own resource. -/
def assignCopy (t other : Tensor α) : Tensor α :=
  { t with metaInfo := other.metaInfo, data := other.data }

/-- The tensors after an operation, and whether it throws. A name whose constructor throws keeps its object. -/
def act (s : ι → Tensor α) : Act ι α → (ι → Tensor α) × Bool
  | .construct i c =>
    match construct c with
    | some t => (update s i t, false)
    | none => (s, true)
  | .constructCopy i j mr => (update s i (copyOf (s j) mr), false)
  | .constructMove i j => (update (update s j (movedFrom (s j))) i (s j), false)
  | .modify i m => (update s i ((s i).modify m).tensor, ((s i).modify m).thrown)
  | .assignCopy i j => (if i = j then s else update s i ((s i).assignCopy (s j)), false)
  | .assignMove i j =>
    if i = j then (s, false)
    else if (s i).resource = (s j).resource then
      (update (update s j (movedFrom (s j))) i (s j), false)
    else (update s i ((s i).assignCopy (s j)), false)
  | .swap i j => (update (update s i (s j)) j (s i), false)

/-- A program starts with default-constructed tensors. -/
def system (ι α : Type) [DecidableEq ι] [Inhabited α] : Transition.System (ι → Tensor α) (Act ι α) where
  start s := ∀ i, s i = { resource := (s i).resource }
  step s a := some (act s a).1

end Store

end Tensor

end GnuRadio

/-! What a tensor is for: a list of elements in a shape that they fill. Each operation works on the list,
    and is refused where its elements do not fill the shape that it asks for. Appending and removing
    elements, and assigning values where there is no shape yet, give the list its own length as shape. -/

namespace GnuRadio

open Function

/-- Elements in a shape that they fill. Nothing is in a shape of rank 0. -/
structure Shaped (α : Type) where
  extents : List Nat
  elements : List α
  rank_le : extents.length ≤ kMaxRank
  elements_nil : extents = [] → elements = []
  prod_extents : extents ≠ [] → extents.prod = elements.length

namespace Shaped

open Tensor (Construct Modify Act product resized)

variable {α : Type}

def empty : Shaped α := ⟨[], [], Nat.zero_le _, fun _ => rfl, fun h => absurd rfl h⟩

/-- A list in the shape of its length. -/
def flat (elements : List α) : Shaped α where
  extents := [elements.length]
  elements := elements
  rank_le := Nat.succ_le_succ (Nat.zero_le 7)
  elements_nil := nofun
  prod_extents _ := Nat.mul_one _

/-- Elements in a given shape, none where they do not fill it. -/
def ofShape (extents : List Nat) (elements : List α) : Option (Shaped α) :=
  if h : extents.length ≤ kMaxRank ∧ (extents = [] → elements = []) ∧
      (extents ≠ [] → extents.prod = elements.length) then
    some ⟨extents, elements, h.1, h.2.1, h.2.2⟩
  else none

/-- New elements in the shape there is. -/
def overwrite (x : Shaped α) (elements : List α) : Option (Shaped α) := ofShape x.extents elements

theorem overwrite_eq_none {x : Shaped α} {elements : List α} (hne : x.extents ≠ [])
    (h : elements.length ≠ x.elements.length) : x.overwrite elements = none :=
  dif_neg fun h' => h (((x.prod_extents hne).symm.trans (h'.2.2 hne)).symm)

/-- Values where there is no shape yet take their own, and otherwise have to fill the shape there is. -/
def assign (x : Shaped α) (values : List α) : Option (Shaped α) :=
  if x.extents = [] then some (flat values) else x.overwrite values

/-- The new tensor of a constructor, none where it is refused. -/
def construct [Inhabited α] : Construct α → Option (Shaped α)
  | .default _ => some empty
  | .value _ _ => some empty
  | .extentsFrom extents _ =>
    if extents = [] then some empty
    else (product extents).bind fun n => ofShape extents (List.replicate n default)
  | .dataFrom values _ => some (flat values)
  | .countValue count value _ => some (flat (List.replicate count value))
  | .extentsAndData extents data _ => if product extents = some data.length then ofShape extents data else none
  | .convertedCopy other _ => ofShape other.extents other.elements
  | .convertedMove other _ => ofShape other.extents other.elements

/-- A tensor after an operation on it, none where the operation is refused. -/
def modify [Inhabited α] (x : Shaped α) : Modify α → Option (Shaped α)
  | .pushBackCopy value => some (flat (x.elements ++ [value]))
  | .pushBackMove value => some (flat (x.elements ++ [value]))
  | .emplaceBack value => some (flat (x.elements ++ [value]))
  | .popBack => if x.elements = [] then none else some (flat x.elements.dropLast)
  | .assignRange values => x.assign values
  | .assignCount count value => some (flat (List.replicate count value))
  | .setValue value => x.overwrite (x.elements.map fun _ => value)
  | .setRange values => x.assign values
  | .setList values => x.assign values
  | .setConverted other => ofShape other.extents other.elements
  | .resize newExtents value =>
    if newExtents = [] then some empty
    else (product newExtents).bind fun n => ofShape newExtents (List.replicate n value)
  | .resizeDim dim newExtent =>
    if dim < x.extents.length then
      if x.extents[dim]? = some newExtent then some x
      else
        (product (x.extents.set dim newExtent)).bind fun n =>
          ofShape (x.extents.set dim newExtent) (resized x.elements n)
    else none
  | .reshape newExtents =>
    if product newExtents = some x.elements.length then ofShape newExtents x.elements else none
  | .clear => some empty
  | .reserve _ => some x
  | .shrinkToFit => some x

/-- What a tensor may hold after its data was moved away: what it held, or nothing. -/
def MovedFrom (x y : Shaped α) : Prop := y = x ∨ y.elements = []

/-- The tensors after an operation, with whether it throws. One that throws changes nothing. -/
inductive Next {ι : Type} [DecidableEq ι] [Inhabited α] (g : ι → Shaped α) :
    Act ι α × Bool → (ι → Shaped α) → Prop
  | construct {i : ι} {c : Construct α} {x : Shaped α} (h : construct c = some x) :
      Next g (.construct i c, false) (update g i x)
  | constructRefused {i : ι} {c : Construct α} (h : construct c = none) : Next g (.construct i c, true) g
  | constructCopy {i j : ι} {mr : Nat} : Next g (.constructCopy i j mr, false) (update g i (g j))
  | constructMove {i j : ι} {x : Shaped α} (h : MovedFrom (g j) x) :
      Next g (.constructMove i j, false) (update (update g j x) i (g j))
  | modify {i : ι} {m : Modify α} {x : Shaped α} (h : (g i).modify m = some x) :
      Next g (.modify i m, false) (update g i x)
  | modifyRefused {i : ι} {m : Modify α} (h : (g i).modify m = none) : Next g (.modify i m, true) g
  | assignCopy {i j : ι} : Next g (.assignCopy i j, false) (update g i (g j))
  | assignMove {i j : ι} {x : Shaped α} (h : MovedFrom (g j) x) :
      Next g (.assignMove i j, false) (update (update g j x) i (g j))
  | swap {i j : ι} : Next g (.swap i j, false) (update (update g i (g j)) j (g i))

theorem Next.refused {ι : Type} [DecidableEq ι] [Inhabited α] {g g' : ι → Shaped α} {a : Act ι α}
    (h : Next g (a, true) g') : g' = g := by
  cases h <;> rfl

end Shaped

end GnuRadio
