import Mathlib

/-! # Nodes of the expression store (`fncas/node.h`, lines 44-156)

The data model that every other module reads:

* what the missing `base.h` declares and `node.h` uses: `NodeIndexType` (`node_index_type`),
  the tag enumerations `OperationT` and `FunctionT`, and `growingVectorAccess`;
* the numeric tables `applyFunction` and `applyOperation`, over `Float` (`double_t`);
* `NodeImpl`, one node of `node_vector_`, as the tagged variant that the packed `data_` bytes
  encode.

Transcription choices:

* `node_impl` reinterprets 18 bytes through its tag byte. A node is written only by
  `node_index_allocator(allocate_new)` (all bytes zero) and by the constructions, which write one
  of the four tags, so every node the source can hold is one of the four constructors below, and
  the source's fallback branches for a fifth tag cannot be taken.
* A node index is a signed 64-bit integer (`BitVec 64`). The post-marker of node `i` in
  `eval_node` is its bitwise complement `~~~i`, told apart from a node index by the signed test
  `i > ~i` (`not_slt_self`).
* `node_computed_` holds `int8_t` flags that are only ever `0` or `1`: they are `Bool` here.
-/

namespace FnCAS

/-! ## Declarations of `base.h` -/

/-- Modelled from the spec: `node_index_type`, declared in the missing `base.h`. The source
stores `-1` in `df_` for "unknown" and asserts `sizeof(V) == 8`: a signed 64-bit integer. -/
abbrev NodeIndexType := BitVec 64

/-- Modelled from the spec: `operation_t` of the missing `base.h`, in the order of the
evaluator table of `apply_operation`, with the sentinel `end` the source compares against. -/
inductive OperationT
  | add | subtract | multiply | divide | «end»
  deriving DecidableEq, Repr

/-- Modelled from the spec: `function_t` of the missing `base.h`, in the order of the
evaluator table of `apply_function`, with the sentinel `end`. -/
inductive FunctionT
  | sqr | sqrt | exp | log | sin | cos | tan | asin | acos | atan | unitStep | ramp | «end»
  deriving DecidableEq, Repr

/-- `reuse_cache`: whether `eval_node` clears `node_computed_` before it starts. -/
inductive ReuseCache
  | invalidate | reuse
  deriving DecidableEq, Repr

/-- Modelled from the spec: `growing_vector_access(vector, index, fill)` of the missing
`base.h`, as the vector it leaves behind: grown with `fill` to `index + 1` entries when it is
shorter ("extend the backing storage with a default value on out-of-range access"). -/
def growingVectorAccess {α : Type} (v : List α) (index : Nat) (fill : α) : List α :=
  v ++ List.replicate (index + 1 - v.length) fill

/-- `growing_vector_access(v, index, fill) = a`: grow, then write entry `index`. -/
def growingVectorAssign {α : Type} (v : List α) (index : Nat) (fill a : α) : List α :=
  (growingVectorAccess v index fill).set index a

section Growing

variable {α : Type} (v : List α) (index : Nat) (fill a : α)

theorem length_growingVectorAccess :
    (growingVectorAccess v index fill).length = max v.length (index + 1) := by
  simp only [growingVectorAccess, List.length_append, List.length_replicate]
  omega

theorem getElem?_growingVectorAccess_of_lt {j : Nat} (hj : j < v.length) :
    (growingVectorAccess v index fill)[j]? = v[j]? :=
  List.getElem?_append_left hj

@[simp] theorem getD_growingVectorAccess (j : Nat) :
    (growingVectorAccess v index fill)[j]?.getD fill = v[j]?.getD fill := by
  by_cases hj : j < v.length
  · rw [getElem?_growingVectorAccess_of_lt _ _ _ hj]
  · rw [growingVectorAccess, List.getElem?_append_right (Nat.le_of_not_lt hj),
      List.getElem?_eq_none (Nat.le_of_not_lt hj), List.getElem?_replicate]
    split <;> rfl

@[simp] theorem getD_growingVectorAssign (j : Nat) :
    (growingVectorAssign v index fill a)[j]?.getD fill =
      if j = index then a else v[j]?.getD fill := by
  have hlen : index < (growingVectorAccess v index fill).length := by
    rw [length_growingVectorAccess]; omega
  simp only [growingVectorAssign, List.getElem?_set]
  by_cases hj : j = index
  · simp [hj, hlen]
  · simp only [Ne.symm hj, hj, ite_false, getD_growingVectorAccess]

theorem getElem?_growingVectorAssign_self : (growingVectorAssign v index fill a)[index]? = some a :=
  List.getElem?_set_self (by rw [length_growingVectorAccess]; omega)

theorem getElem?_growingVectorAssign_of_ne {j : Nat} (hj : j ≠ index) (hjv : j < v.length) :
    (growingVectorAssign v index fill a)[j]? = v[j]? := by
  rw [growingVectorAssign, List.getElem?_set_ne (Ne.symm hj),
    getElem?_growingVectorAccess_of_lt _ _ _ hjv]

theorem length_growingVectorAssign :
    (growingVectorAssign v index fill a).length = max v.length (index + 1) := by
  rw [growingVectorAssign, List.length_set, length_growingVectorAccess]

end Growing

/-! ## Post-markers

`eval_node` pushes `~i` to stand for "all operands of node `i` are done". -/

/-- The signed test `i > ~i` of `eval_node` holds exactly for the nonnegative indices. -/
theorem not_slt_self (i : NodeIndexType) : (~~~i).slt i = decide (i.toNat < 2 ^ 63) := by
  have := i.isLt
  simp only [BitVec.slt, BitVec.toInt_eq_toNat_cond, BitVec.toNat_not]
  split <;> split <;> simp <;> omega

theorem toInt_nonneg_iff (i : NodeIndexType) : 0 ≤ i.toInt ↔ i.toNat < 2 ^ 63 := by
  rw [BitVec.toInt_eq_toNat_cond]
  have := i.isLt
  split <;> omega

/-- A node index is read as a first visit. -/
theorem slt_of_nonneg {i : NodeIndexType} (h : 0 ≤ i.toInt) : (~~~i).slt i = true := by
  rw [not_slt_self, decide_eq_true_iff]
  exact (toInt_nonneg_iff i).1 h

/-- The post-marker `~i` of a node index is read as a second visit, of node `~~i = i`. -/
theorem not_slt_marker {i : NodeIndexType} (h : 0 ≤ i.toInt) : i.slt (~~~i) = false := by
  have hi := (toInt_nonneg_iff i).1 h
  have := not_slt_self (~~~i)
  rw [BitVec.not_not, BitVec.toNat_not] at this
  rw [this, decide_eq_false_iff_not]
  omega

/-! ## Numeric tables -/

/-- `fncas::sqr`. -/
def sqr (x : Float) : Float := x * x

/-- `fncas::unit_step`. -/
def unitStep (x : Float) : Float := if x >= 0 then 1 else 0

/-- `fncas::ramp`. -/
def ramp (x : Float) : Float := if x > 0 then x else 0

/-- `std::numeric_limits<double_t>::quiet_NaN()`. -/
def quietNaN : Float := 0 / 0

/-- `apply_function<double_t>`: the evaluator table of the twelve math functions. -/
def applyFunction (function : FunctionT) (argument : Float) : Float :=
  match function with
  | .sqr => sqr argument
  | .sqrt => argument.sqrt
  | .exp => argument.exp
  | .log => argument.log
  | .sin => argument.sin
  | .cos => argument.cos
  | .tan => argument.tan
  | .asin => argument.asin
  | .acos => argument.acos
  | .atan => argument.atan
  | .unitStep => unitStep argument
  | .ramp => ramp argument
  | .end => quietNaN

/-- `apply_operation<double_t>`: `std::plus`, `std::minus`, `std::multiplies`, `std::divides`. -/
def applyOperation (operation : OperationT) (lhs rhs : Float) : Float :=
  match operation with
  | .add => lhs + rhs
  | .subtract => lhs - rhs
  | .multiply => lhs * rhs
  | .divide => lhs / rhs
  | .end => quietNaN

/-! ## Nodes -/

/-- `node_impl`: a value, an input variable, an operation or a math function application.
The variable index is the `int32_t` the source keeps at `data_[2]`. -/
inductive NodeImpl
  | variable (index : BitVec 32)
  | value (value : Float)
  | operation (operation : OperationT) (lhsIndex rhsIndex : NodeIndexType)
  | function (function : FunctionT) (argumentIndex : NodeIndexType)
  deriving Repr

/-- Modelled from the spec: a node as `resize` value-initialises it, eighteen zero bytes. The
enumeration `type_t` is in the missing `base.h`; its first enumerator is taken to be
`variable`, the tag `eval_node` and `debug_as_string` test first, so the node is variable `0`. -/
def NodeImpl.zero : NodeImpl := .variable 0

end FnCAS
