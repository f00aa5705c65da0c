import FnCAS.Graph

/-! # `eval_node` (`fncas/node.h`, lines 91-217)

* `InternalsImpl`: the thread-local singleton `internals_impl`, with `reset`.
* `evalStep`: one pass of the `while` loop of `eval_node` on the entry it popped. An entry
  `i > ~i` is a first visit of node `i`; any other entry is the post-marker of node `~i`.
* `evalLoop`: the loop, stopped after `fuel` passes; `evalNode`: the whole function, whose loop
  gets `evalFuel` passes (`3 · |node_vector_| + 1`, enough on every well-formed store:
  `EvalCorrect.evalNode_correct`).

`none` stands for a failed `CURRENT_ASSERT` (fatal, the spec's `MalformedGraphError`), for an
unchecked access out of range (`node_vector_singleton()[i]`, `V[lhs]`, `x[v]`), and for a loop
still running when its passes run out. The branches of `evalStep` each get an equation
(`evalStep_computed` ... `evalStep_post_function`) that later proofs use instead of unfolding it.
-/

namespace FnCAS

/-- `internals_impl`, the thread-local singleton behind the recording API. -/
structure InternalsImpl where
  /-- `dim_`: the dimensionality of the function being worked with. -/
  dim : Nat
  /-- `x_ptr_`: the address of the `X` holding the session, `none` for `nullptr`. -/
  xPtr : Option Nat
  /-- `node_vector_`: all expression nodes created so far, with fixed indexes. -/
  nodeVector : List NodeImpl
  /-- `node_value_`: values per node computed so far. -/
  nodeValue : List Float
  /-- `node_computed_`: whether `node_value_` holds the value of the node. -/
  nodeComputed : List Bool
  /-- `df_`: derivative node per variable and node, `-1` if unknown. -/
  df : List (List NodeIndexType)
  /-- `heap_for_compiled_evaluations_`: scratch memory for compiled functions. -/
  heapForCompiledEvaluations : List Float

namespace InternalsImpl

/-- The singleton as a thread first sees it: storage of thread duration starts zeroed. -/
def initial : InternalsImpl := ⟨0, none, [], [], [], [], []⟩

/-- `internals_impl::reset`: clears the nodes, `df_` and the compiled-evaluation heap. -/
def reset (s : InternalsImpl) : InternalsImpl :=
  { s with dim := 0, xPtr := none, nodeVector := [], df := [], heapForCompiledEvaluations := [] }

@[simp] theorem reset_nodeVector (s : InternalsImpl) : s.reset.nodeVector = [] := rfl
@[simp] theorem reset_nodeValue (s : InternalsImpl) : s.reset.nodeValue = s.nodeValue := rfl
@[simp] theorem reset_nodeComputed (s : InternalsImpl) : s.reset.nodeComputed = s.nodeComputed :=
  rfl
@[simp] theorem reset_xPtr (s : InternalsImpl) : s.reset.xPtr = none := rfl
@[simp] theorem reset_dim (s : InternalsImpl) : s.reset.dim = 0 := rfl

end InternalsImpl

/-- The locals of the loop of `eval_node`: its explicit stack (top first), `V` and `B`. -/
structure EvalState where
  stack : List NodeIndexType
  V : List Float
  B : List Bool

/-- One pass of the loop of `eval_node`, on the entry `i` it popped; `s.stack` is the rest. -/
def evalStep (nodes : List NodeImpl) (x : List Float) (i : NodeIndexType) (s : EvalState) :
    Option EvalState :=
  let dependentI := ~~~i
  if dependentI.slt i then
    let B := growingVectorAccess s.B i.toNat false
    if B[i.toNat]?.getD false then some { s with B }
    else
      match nodes[i.toNat]? with
      | some (.variable v) =>
        if (0 : BitVec 32).sle v && v.slt (BitVec.ofNat 32 x.length) then
          x[v.toNat]?.map fun xv =>
            { s with V := growingVectorAssign s.V i.toNat 0 xv,
                     B := growingVectorAssign B i.toNat false true }
        else none
      | some (.value c) =>
        some { s with V := growingVectorAssign s.V i.toNat 0 c,
                      B := growingVectorAssign B i.toNat false true }
      | some (.operation _ lhs rhs) => some { s with stack := rhs :: lhs :: ~~~i :: s.stack, B }
      | some (.function _ argument) => some { s with stack := argument :: ~~~i :: s.stack, B }
      | none => none
  else
    match nodes[dependentI.toNat]? with
    | some (.operation op lhs rhs) => do
      let a ← s.V[lhs.toNat]?
      let b ← s.V[rhs.toNat]?
      some { s with V := growingVectorAssign s.V dependentI.toNat 0 (applyOperation op a b),
                    B := growingVectorAssign s.B dependentI.toNat false true }
    | some (.function fn argument) => do
      let a ← s.V[argument.toNat]?
      some { s with V := growingVectorAssign s.V dependentI.toNat 0 (applyFunction fn a),
                    B := growingVectorAssign s.B dependentI.toNat false true }
    | _ => none

/-- The `while (!stack.empty())` loop of `eval_node`, stopped after `fuel` passes. -/
def evalLoop (nodes : List NodeImpl) (x : List Float) : Nat → EvalState → Option EvalState
  | _, ⟨[], V, B⟩ => some ⟨[], V, B⟩
  | 0, ⟨_ :: _, _, _⟩ => none
  | fuel + 1, ⟨i :: stack, V, B⟩ => (evalStep nodes x i ⟨stack, V, B⟩).bind (evalLoop nodes x fuel)

/-- The passes `evalNode` gives its loop: each node is expanded at most once and pushes at most
three entries. -/
def evalFuel (s : InternalsImpl) : Nat := 3 * s.nodeVector.length + 1

/-- `eval_node(index, x, reuse)`, with `mode` for `reuse`: its value, and the singleton with
`node_value_` and `node_computed_` as the loop left them. -/
def evalNode (s : InternalsImpl) (index : NodeIndexType) (x : List Float)
    (mode : ReuseCache := .invalidate) : Option (Float × InternalsImpl) :=
  let B := if mode = .invalidate then [] else s.nodeComputed
  match evalLoop s.nodeVector x (evalFuel s) ⟨[index], s.nodeValue, B⟩ with
  | some ⟨_, V, B⟩ =>
    if B[index.toNat]?.getD false then
      V[index.toNat]?.map fun v => (v, { s with nodeValue := V, nodeComputed := B })
    else none
  | none => none

/-- `eval_node` changes nothing of the singleton but `node_value_` and `node_computed_`. -/
theorem evalNode_frame {s s' : InternalsImpl} {index : NodeIndexType} {x : List Float}
    {mode : ReuseCache} {v : Float} (h : evalNode s index x mode = some (v, s')) :
    ∃ V B, s' = { s with nodeValue := V, nodeComputed := B } := by
  simp only [evalNode] at h
  split at h
  · split at h
    · obtain ⟨_, -, h⟩ := Option.map_eq_some'.1 h
      exact ⟨_, _, (Prod.mk.inj h).2.symm⟩
    · cases h
  · cases h

/-! ## The loop, pass by pass -/

section Loop

variable {nodes : List NodeImpl} {x : List Float}

@[simp] theorem evalLoop_nil (fuel : Nat) (V : List Float) (B : List Bool) :
    evalLoop nodes x fuel ⟨[], V, B⟩ = some ⟨[], V, B⟩ := by
  cases fuel <;> rfl

theorem evalLoop_cons (fuel : Nat) (i : NodeIndexType) (stack : List NodeIndexType)
    (V : List Float) (B : List Bool) :
    evalLoop nodes x (fuel + 1) ⟨i :: stack, V, B⟩ =
      (evalStep nodes x i ⟨stack, V, B⟩).bind (evalLoop nodes x fuel) := rfl

theorem evalLoop_step {fuel : Nat} {i : NodeIndexType} {stack : List NodeIndexType}
    {V : List Float} {B : List Bool} {s' : EvalState}
    (h : evalStep nodes x i ⟨stack, V, B⟩ = some s') :
    evalLoop nodes x (fuel + 1) ⟨i :: stack, V, B⟩ = evalLoop nodes x fuel s' := by
  rw [evalLoop_cons, h, Option.some_bind]

/-- The run lemma of the loop: what every pass keeps, a loop that ends keeps, and it ends with an
empty stack. -/
theorem evalLoop_induction (P : EvalState → Prop)
    (hstep : ∀ i stack V B s', evalStep nodes x i ⟨stack, V, B⟩ = some s' →
      P ⟨i :: stack, V, B⟩ → P s')
    {fuel : Nat} {s s' : EvalState} (hl : evalLoop nodes x fuel s = some s') (hs : P s) :
    P s' ∧ s'.stack = [] := by
  induction fuel generalizing s with
  | zero =>
    rcases s with ⟨_ | _, V, B⟩ <;> cases hl
    exact ⟨hs, rfl⟩
  | succ fuel ih =>
    rcases s with ⟨_ | ⟨i, stack⟩, V, B⟩
    · cases hl
      exact ⟨hs, rfl⟩
    · obtain ⟨s₁, h₁, hl⟩ := Option.bind_eq_some.1 hl
      exact ih hl (hstep _ _ _ _ _ h₁ hs)

end Loop

/-! ## One equation per branch of `evalStep` -/

section Step

variable {nodes : List NodeImpl} {x : List Float} {i : NodeIndexType}
  {stack : List NodeIndexType} {V : List Float} {B : List Bool}

/-- The range check of a variable index, read in `int32_t`: for an input of fewer than `2^31`
entries it is the index being an index of `x`. -/
theorem variable_check {k : BitVec 32} (hx : x.length < 2 ^ 31) :
    ((0 : BitVec 32).sle k && k.slt (BitVec.ofNat 32 x.length)) = decide (VariableInRange x k) := by
  have hlen : (BitVec.ofNat 32 x.length).toInt = x.length := by
    rw [BitVec.toInt_eq_toNat_cond, BitVec.toNat_ofNat, Nat.mod_eq_of_lt (by omega)]
    split <;> omega
  have hzero : (0 : BitVec 32).toInt = 0 := rfl
  simp only [BitVec.sle, BitVec.slt, hzero, hlen, VariableInRange, Bool.decide_and]

theorem getElem?_of_variableInRange {k : BitVec 32} (hk : VariableInRange x k) :
    x[k.toNat]? = some (x.getD k.toNat 0) := by
  have : k.toNat < x.length := by
    obtain ⟨h0, h1⟩ := hk
    rw [BitVec.toInt_eq_toNat_cond] at h0 h1
    split at h0 <;> omega
  rw [List.getD_eq_getElem?_getD, List.getElem?_eq_getElem this, Option.getD_some]

theorem evalStep_computed (h0 : 0 ≤ i.toInt) (hc : B[i.toNat]?.getD false = true) :
    evalStep nodes x i ⟨stack, V, B⟩ = some ⟨stack, V, growingVectorAccess B i.toNat false⟩ := by
  simp only [evalStep, slt_of_nonneg h0, getD_growingVectorAccess, hc, ite_true]

theorem evalStep_variable {k : BitVec 32} {xv : Float} (h0 : 0 ≤ i.toInt)
    (hc : B[i.toNat]?.getD false = false) (hn : nodes[i.toNat]? = some (.variable k))
    (hk : ((0 : BitVec 32).sle k && k.slt (BitVec.ofNat 32 x.length)) = true)
    (hx : x[k.toNat]? = some xv) :
    evalStep nodes x i ⟨stack, V, B⟩ = some ⟨stack, growingVectorAssign V i.toNat 0 xv,
      growingVectorAssign (growingVectorAccess B i.toNat false) i.toNat false true⟩ := by
  simp only [evalStep, slt_of_nonneg h0, getD_growingVectorAccess, hc, hn, hk, hx, ite_true,
    Bool.false_eq_true, ite_false, Option.map_some']

theorem evalStep_value {c : Float} (h0 : 0 ≤ i.toInt) (hc : B[i.toNat]?.getD false = false)
    (hn : nodes[i.toNat]? = some (.value c)) :
    evalStep nodes x i ⟨stack, V, B⟩ = some ⟨stack, growingVectorAssign V i.toNat 0 c,
      growingVectorAssign (growingVectorAccess B i.toNat false) i.toNat false true⟩ := by
  simp only [evalStep, slt_of_nonneg h0, getD_growingVectorAccess, hc, hn, ite_true,
    Bool.false_eq_true, ite_false]

theorem evalStep_operation {op : OperationT} {lhs rhs : NodeIndexType} (h0 : 0 ≤ i.toInt)
    (hc : B[i.toNat]?.getD false = false) (hn : nodes[i.toNat]? = some (.operation op lhs rhs)) :
    evalStep nodes x i ⟨stack, V, B⟩ =
      some ⟨rhs :: lhs :: ~~~i :: stack, V, growingVectorAccess B i.toNat false⟩ := by
  simp only [evalStep, slt_of_nonneg h0, getD_growingVectorAccess, hc, hn, ite_true,
    Bool.false_eq_true, ite_false]

theorem evalStep_function {fn : FunctionT} {argument : NodeIndexType} (h0 : 0 ≤ i.toInt)
    (hc : B[i.toNat]?.getD false = false) (hn : nodes[i.toNat]? = some (.function fn argument)) :
    evalStep nodes x i ⟨stack, V, B⟩ =
      some ⟨argument :: ~~~i :: stack, V, growingVectorAccess B i.toNat false⟩ := by
  simp only [evalStep, slt_of_nonneg h0, getD_growingVectorAccess, hc, hn, ite_true,
    Bool.false_eq_true, ite_false]

theorem evalStep_post_operation {op : OperationT} {lhs rhs : NodeIndexType} {a b : Float}
    (h0 : 0 ≤ i.toInt) (hn : nodes[i.toNat]? = some (.operation op lhs rhs))
    (ha : V[lhs.toNat]? = some a) (hb : V[rhs.toNat]? = some b) :
    evalStep nodes x (~~~i) ⟨stack, V, B⟩ = some ⟨stack,
      growingVectorAssign V i.toNat 0 (applyOperation op a b),
      growingVectorAssign B i.toNat false true⟩ := by
  simp only [evalStep, BitVec.not_not, not_slt_marker h0, hn, ha, hb, Bool.false_eq_true,
    ite_false, Option.bind_eq_bind, Option.some_bind]

theorem evalStep_post_function {fn : FunctionT} {argument : NodeIndexType} {a : Float}
    (h0 : 0 ≤ i.toInt) (hn : nodes[i.toNat]? = some (.function fn argument))
    (ha : V[argument.toNat]? = some a) :
    evalStep nodes x (~~~i) ⟨stack, V, B⟩ = some ⟨stack,
      growingVectorAssign V i.toNat 0 (applyFunction fn a),
      growingVectorAssign B i.toNat false true⟩ := by
  simp only [evalStep, BitVec.not_not, not_slt_marker h0, hn, ha, Bool.false_eq_true,
    ite_false, Option.bind_eq_bind, Option.some_bind]

/-- What a pass can do to the stack and to `B`, guards included: skip a computed node, compute
a variable or a constant, expand an operation or a function, or compute the node of a marker. -/
theorem evalStep_cases {s' : EvalState} (h : evalStep nodes x i ⟨stack, V, B⟩ = some s') :
    ((~~~i).slt i = true ∧ B[i.toNat]?.getD false = true ∧
        s'.stack = stack ∧ s'.B = growingVectorAccess B i.toNat false) ∨
      ((~~~i).slt i = true ∧ B[i.toNat]?.getD false = false ∧
        ((∃ k, nodes[i.toNat]? = some (.variable k)) ∨ ∃ c, nodes[i.toNat]? = some (.value c)) ∧
        s'.stack = stack ∧
        s'.B = growingVectorAssign (growingVectorAccess B i.toNat false) i.toNat false true) ∨
      ((~~~i).slt i = true ∧ B[i.toNat]?.getD false = false ∧
        ∃ op lhs rhs, nodes[i.toNat]? = some (.operation op lhs rhs) ∧
          s'.stack = rhs :: lhs :: ~~~i :: stack ∧ s'.B = growingVectorAccess B i.toNat false) ∨
      ((~~~i).slt i = true ∧ B[i.toNat]?.getD false = false ∧
        ∃ fn argument, nodes[i.toNat]? = some (.function fn argument) ∧
          s'.stack = argument :: ~~~i :: stack ∧ s'.B = growingVectorAccess B i.toNat false) ∨
      ((~~~i).slt i = false ∧ s'.stack = stack ∧
        s'.B = growingVectorAssign B (~~~i).toNat false true) := by
  by_cases hv : (~~~i).slt i = true
  · simp only [evalStep, hv, ite_true, getD_growingVectorAccess] at h
    by_cases hc : B[i.toNat]?.getD false = true
    · simp only [hc, ite_true, Option.some.injEq] at h
      subst h
      exact .inl ⟨hv, hc, rfl, rfl⟩
    simp only [hc, Bool.false_eq_true, ite_false] at h
    simp only [Bool.not_eq_true] at hc
    rcases hn : nodes[i.toNat]? with _ | (k | c | ⟨op, lhs, rhs⟩ | ⟨fn, argument⟩) <;>
      simp only [hn, reduceCtorEq] at h
    · split at h
      · obtain ⟨_, -, rfl⟩ := Option.map_eq_some'.1 h
        exact .inr (.inl ⟨hv, hc, .inl ⟨_, rfl⟩, rfl, rfl⟩)
      · cases h
    · cases h; exact .inr (.inl ⟨hv, hc, .inr ⟨_, rfl⟩, rfl, rfl⟩)
    · cases h; exact .inr (.inr (.inl ⟨hv, hc, _, _, _, rfl, rfl, rfl⟩))
    · cases h; exact .inr (.inr (.inr (.inl ⟨hv, hc, _, _, rfl, rfl, rfl⟩)))
  · simp only [Bool.not_eq_true] at hv
    simp only [evalStep, hv, Bool.false_eq_true, ite_false] at h
    refine .inr (.inr (.inr (.inr ⟨hv, ?_⟩)))
    rcases hn : nodes[(~~~i).toNat]? with _ | (k | c | ⟨op, lhs, rhs⟩ | ⟨fn, argument⟩) <;>
      simp only [hn, reduceCtorEq, Option.bind_eq_bind, Option.bind_eq_some,
        Option.some.injEq] at h
    · obtain ⟨_, -, _, -, rfl⟩ := h
      exact ⟨rfl, rfl⟩
    · obtain ⟨_, -, rfl⟩ := h
      exact ⟨rfl, rfl⟩

end Step

end FnCAS
