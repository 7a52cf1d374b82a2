import GnuRadio.Tensor
import GnuRadio.Library.Arrays

/-! `TensorView<T>` (Tensor.hpp): a pointer into the data of a tensor, with extents and strides of its own. What
    `slice()` and `transpose()` make of a tensor or a view, and which elements each access reads or writes. -/

namespace GnuRadio

open Arrays (Window)

/-- `offset` stands for the pointer: the position in the data of the tensor. `size` is the size of `_data`. -/
structure TensorView where
  offset : Nat
  extents : List Nat
  strides : List Nat
  size : Nat
  deriving DecidableEq, Repr

namespace TensorView

variable {α : Type}

/-- `TensorView(Tensor&)` -/
def ofTensor (t : Tensor α) : TensorView := ⟨0, t.extents, t.strides, t.size⟩

/-- `TensorView(data, extents, strides)`, none where `checked_size` throws. -/
def new (offset : Nat) (extents strides : List Nat) : Option TensorView :=
  (Tensor.product extents).map fun size => ⟨offset, extents, strides, size⟩

/-! ### Slicing and permuting -/

/-- The loop of `slice` over the axes: the new extents and the offset. -/
def sliced : List (Nat × Nat) → List Nat → List Nat → List Nat × Nat
  | (start, stop) :: ranges, _ :: extents, stride :: strides =>
    let (newExtents, offset) := sliced ranges extents strides
    ((stop - start) :: newExtents, start * stride + offset)
  | _, extents, _ => (extents, 0)

inductive Op
  | slice (ranges : List (Nat × Nat))
  | transpose
  | transposeAxes (axes : List Nat)
  deriving DecidableEq, Repr

def apply (v : TensorView) : Op → Option TensorView
  | .slice ranges =>
    let (newExtents, offset) := sliced ranges v.extents v.strides
    new (v.offset + offset) newExtents v.strides
  | .transpose => new v.offset v.extents.reverse v.strides.reverse
  | .transposeAxes axes => new v.offset (axes.map fun axis => v.extents.getD axis 0) (axes.map fun axis => v.strides.getD axis 0)

/-- A chain of views, from the view of a tensor. -/
def chain (v : TensorView) (ops : List Op) : Option TensorView := ops.foldlM apply v

/-! ### Accesses -/

/-- `strided_iterator::operator*`: each coordinate from the linear index. -/
def iteratorOffset (linearIdx : Nat) : List Nat → List Nat → Nat
  | e :: extents, s :: strides => extents.foldl (· / ·) linearIdx % e * s + iteratorOffset linearIdx extents strides
  | _, _ => 0

/-- The positions of the elements from `begin()` to `end()`. -/
def iterated (v : TensorView) : List Nat :=
  (List.range v.size).map fun n => v.offset + iteratorOffset n v.extents v.strides

/-- `index_of` -/
def indexOf (v : TensorView) : List Nat → Nat
  | [i] => i
  | indices => (List.zipWith (· * ·) indices v.strides).sum

/-- The position that `operator[]` accesses. -/
def element (v : TensorView) (indices : List Nat) : Nat := v.offset + v.indexOf indices

/-- `bounds_check`, false where it throws. -/
def boundsCheck (v : TensorView) : List Nat → Bool
  | [i] => decide (i < v.size)
  | indices =>
    indices.length == v.extents.length && (List.zipWith (fun i e => decide (i < e)) indices v.extents).all id

/-- The position that `at` accesses, none where it throws. -/
def at? (v : TensorView) (indices : List Nat) : Option Nat :=
  if v.boundsCheck indices then some (v.element indices) else none

/-- The elements from `begin()` to `end()`, none where there is none. -/
def elements (v : TensorView) (data : List α) : List (Option α) := v.iterated.map (data[·]?)

/-- `operator==`, with the `==` of the elements. -/
def equal (eq : Option α → Option α → Bool) (v w : TensorView) (data data' : List α) : Bool :=
  v.extents.length == w.extents.length && v.extents == w.extents && (v.elements data).isEqv (w.elements data') eq

/-- `operator==` with a contiguous range. -/
def equalRange (eq : Option α → Option α → Bool) (v : TensorView) (data container : List α) : Bool :=
  v.extents.length == 1 && v.size == container.length && (v.elements data).isEqv (container.map some) eq

/-- `std::lexicographical_compare_three_way` -/
def lexicographicalCompare {β : Type} (cmp : β → β → Ordering) : List β → List β → Ordering
  | [], [] => .eq
  | [], _ :: _ => .lt
  | _ :: _, [] => .gt
  | x :: xs, y :: ys => (cmp x y).then (lexicographicalCompare cmp xs ys)

/-- `operator<=>`, with the `<=>` of the elements. -/
def threeWay (cmp : Option α → Option α → Ordering) (v w : TensorView) (data data' : List α) : Ordering :=
  (compare v.extents.length w.extents.length).then
    ((lexicographicalCompare compare v.extents w.extents).then
      (lexicographicalCompare cmp (v.elements data) (w.elements data')))

/-- `operator<=>` with a contiguous range. -/
def threeWayRange (cmp : Option α → Option α → Ordering) (v : TensorView) (data container : List α) : Ordering :=
  if v.extents.length = 1 then
    (compare v.size container.length).then (lexicographicalCompare cmp (v.elements data) (container.map some))
  else .gt

/-- `operator Tensor<T>()`: the elements are written over those of a new tensor. -/
def toTensor (v : TensorView) (data : List α) (mr : Nat) : Option (Tensor (Option α)) :=
  (Tensor.construct (.extentsFrom v.extents mr)).map fun result =>
    { result with data := v.elements data ++ result.data.drop (v.elements data).length }

/-- `std::fill` on `_data` -/
def fill (v : TensorView) (value : α) (data : List α) : List α :=
  (List.range v.size).foldl (fun data n => data.set (v.offset + n) value) data

/-- `operator=` of a view: the view, and the data that it leaves. -/
def assign (_ other : TensorView) (data : List α) : TensorView × List α := (other, data)

/-! ### What the view is of -/

/-- The array that an operation makes of one. -/
def Op.window (a : Window) : Op → Window
  | .slice ranges => a.slice ranges
  | .transpose => a.transpose (List.range a.extents.length).reverse
  | .transposeAxes axes => a.transpose axes

/-- The ranges lie within the extents, and the axes are a permutation. -/
def Op.Fits (a : Window) : Op → Prop
  | .slice ranges => Arrays.Within ranges a.extents
  | .transpose => True
  | .transposeAxes axes => axes.Perm (List.range a.extents.length)

def windowOf (a : Window) (ops : List Op) : Window := ops.foldl Op.window a

def ChainFits (a : Window) : List Op → Prop
  | [] => True
  | op :: ops => op.Fits a ∧ ChainFits (op.window a) ops

/-- The elements lie side by side, in the order of the view. -/
def SideBySide (a : Window) : Prop := ∃ first, a.positions = (List.range a.extents.prod).map (first + ·)

/-- The elements of an array, in row-major order. -/
def read (a : Window) (data : List α) : List (Option α) := a.positions.map (data[·]?)

/-- The storage with a value at the given positions. -/
def filled (positions : List Nat) (value : α) (data : List α) : List α :=
  data.mapIdx fun n x => if n ∈ positions then value else x

end TensorView

end GnuRadio
