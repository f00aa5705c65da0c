import FnCAS.Graph

/-! # Recording (`fncas/node.h`, lines 219-271, 372-392 and 483-557)

* `allocateNew`, `V.build`: `node_index_allocator(allocate_new)` hands out the index
  `node_vector_.size()` and grows the store by one blank node, which the construction then writes
  through `node_vector_singleton()[index_]`.
* The constructions: `V.ofDouble`, `V.variable`, the `DECLARE_OP` family `declareOp` with its
  compound forms `declareOpAssign`, the `DECLARE_FUNCTION` family `declareFunction`, unary `+`
  and `-`.
* `X.initVector`: what `X::X(dim)` does to the store once it holds the session: `resize(dim)`
  default-constructs `dim` handles, each allocating a blank node, and the loop then writes the
  handle of a fresh variable node `i` over entry `i`.
* `Recorded d hs nodes`: the stores and issued handles of a session of dimension `d`.

Node indices are 64-bit, so the results need the store to stay below `2^63` nodes, the bound
`std::vector::max_size()` already keeps it under.
-/

namespace FnCAS

/-- `V` (`GenericV`): a handle, the index of its node in `node_vector_`. -/
structure V where
  index : NodeIndexType
  deriving DecidableEq, Repr

/-- `node_index_allocator(allocate_new)`: the index `node_vector_.size()`, and the store resized
by one value-initialised node. -/
def allocateNew (nodes : List NodeImpl) : V × List NodeImpl :=
  (⟨BitVec.ofNat 64 nodes.length⟩, nodes ++ [NodeImpl.zero])

/-- `V result;` followed by the writes of a construction into its node. -/
def V.build (node : NodeImpl) (nodes : List NodeImpl) : V × List NodeImpl :=
  let (result, nodes) := allocateNew nodes
  (result, nodes.set result.index.toNat node)

/-- `V(double_t x)`. -/
def V.ofDouble (x : Float) : List NodeImpl → V × List NodeImpl :=
  V.build (.value x)

/-- `V::variable(index)`: `result.variable() = index` narrows the 64-bit index to the `int32_t`
field. -/
def V.variable (index : NodeIndexType) : List NodeImpl → V × List NodeImpl :=
  V.build (.variable (index.setWidth 32))

/-- `DECLARE_OP(OP, OP2, NAME)`: `lhs OP rhs`. -/
def declareOp (name : OperationT) (lhs rhs : V) : List NodeImpl → V × List NodeImpl :=
  V.build (.operation name lhs.index rhs.index)

/-- `DECLARE_OP(OP, OP2, NAME)`: `lhs OP2 rhs` is `lhs = lhs OP rhs`; the handle returned is the
one `lhs` is rebound to. -/
def declareOpAssign (name : OperationT) (lhs rhs : V) : List NodeImpl → V × List NodeImpl :=
  declareOp name lhs rhs

/-- `operator+`. -/
def V.add : V → V → List NodeImpl → V × List NodeImpl := declareOp .add
/-- `operator-`. -/
def V.subtract : V → V → List NodeImpl → V × List NodeImpl := declareOp .subtract
/-- `operator*`. -/
def V.multiply : V → V → List NodeImpl → V × List NodeImpl := declareOp .multiply
/-- `operator/`. -/
def V.divide : V → V → List NodeImpl → V × List NodeImpl := declareOp .divide
/-- `operator+=`. -/
def V.addAssign : V → V → List NodeImpl → V × List NodeImpl := declareOpAssign .add
/-- `operator-=`. -/
def V.subtractAssign : V → V → List NodeImpl → V × List NodeImpl := declareOpAssign .subtract
/-- `operator*=`. -/
def V.multiplyAssign : V → V → List NodeImpl → V × List NodeImpl := declareOpAssign .multiply
/-- `operator/=`. -/
def V.divideAssign : V → V → List NodeImpl → V × List NodeImpl := declareOpAssign .divide

/-- `DECLARE_FUNCTION(F)`: `F(argument)`. -/
def declareFunction (F : FunctionT) (argument : V) : List NodeImpl → V × List NodeImpl :=
  V.build (.function F argument.index)

/-- `fncas::sqr`. -/
def V.sqr : V → List NodeImpl → V × List NodeImpl := declareFunction .sqr
/-- `fncas::sqrt`. -/
def V.sqrt : V → List NodeImpl → V × List NodeImpl := declareFunction .sqrt
/-- `fncas::exp`. -/
def V.exp : V → List NodeImpl → V × List NodeImpl := declareFunction .exp
/-- `fncas::log`. -/
def V.log : V → List NodeImpl → V × List NodeImpl := declareFunction .log
/-- `fncas::sin`. -/
def V.sin : V → List NodeImpl → V × List NodeImpl := declareFunction .sin
/-- `fncas::cos`. -/
def V.cos : V → List NodeImpl → V × List NodeImpl := declareFunction .cos
/-- `fncas::tan`. -/
def V.tan : V → List NodeImpl → V × List NodeImpl := declareFunction .tan
/-- `fncas::asin`. -/
def V.asin : V → List NodeImpl → V × List NodeImpl := declareFunction .asin
/-- `fncas::acos`. -/
def V.acos : V → List NodeImpl → V × List NodeImpl := declareFunction .acos
/-- `fncas::atan`. -/
def V.atan : V → List NodeImpl → V × List NodeImpl := declareFunction .atan
/-- `fncas::unit_step`. -/
def V.unitStep : V → List NodeImpl → V × List NodeImpl := declareFunction .unitStep
/-- `fncas::ramp`. -/
def V.ramp : V → List NodeImpl → V × List NodeImpl := declareFunction .ramp

/-- Unary `operator+`: the handle itself. -/
def V.unaryPlus (x : V) (nodes : List NodeImpl) : V × List NodeImpl := (x, nodes)

/-- Unary `operator-`: `0.0 - x`, the constant converted to its own node first. -/
def V.unaryMinus (x : V) (nodes : List NodeImpl) : V × List NodeImpl :=
  let (zero, nodes) := V.ofDouble 0.0 nodes
  V.subtract zero x nodes

/-! ## Allocation -/

section Build

variable (node : NodeImpl) (nodes : List NodeImpl)

theorem length_build : (V.build node nodes).2.length = nodes.length + 1 := by
  simp [V.build, allocateNew]

/-- Below `2^64` nodes a construction appends its node at the index it returns. -/
theorem build_eq (h : nodes.length < 2 ^ 64) :
    V.build node nodes = (⟨BitVec.ofNat 64 nodes.length⟩, nodes ++ [node]) := by
  simp only [V.build, allocateNew, BitVec.toNat_ofNat, Nat.mod_eq_of_lt h]
  rw [List.set_append_right _ _ (Nat.le_refl _), Nat.sub_self, List.set_cons_zero]

theorem setWidth_ofNat (i : Nat) : (BitVec.ofNat 64 i).setWidth 32 = BitVec.ofNat 32 i := by
  apply BitVec.eq_of_toNat_eq
  simp only [BitVec.toNat_setWidth, BitVec.toNat_ofNat]
  exact Nat.mod_mod_of_dvd i (Nat.pow_dvd_pow 2 (by decide))

end Build

/-! ## `X::X(dim)` -/

/-- `super_t::resize(dim)` on the handle vector of `X`: `dim` default-constructed handles, each
allocating a blank node. -/
def resizeHandles : Nat → List NodeImpl → List V × List NodeImpl
  | 0, nodes => ([], nodes)
  | n + 1, nodes =>
    let (handle, nodes) := allocateNew nodes
    let (handles, nodes) := resizeHandles n nodes
    (handle :: handles, nodes)

/-- The loop `super_t::operator[](i) = V::variable(i)` over the indices `is`. -/
def assignVariables (xs : List V) (nodes : List NodeImpl) : List Nat → List V × List NodeImpl
  | [] => (xs, nodes)
  | i :: is =>
    let (v, nodes) := V.variable (BitVec.ofNat 64 i) nodes
    assignVariables (xs.set i v) nodes is

/-- What `X::X(dim)` does to the handles and the store once it holds the session. -/
def X.initVector (dim : Nat) (nodes : List NodeImpl) : List V × List NodeImpl :=
  let (xs, nodes) := resizeHandles dim nodes
  assignVariables xs nodes (List.range xs.length)

theorem resizeHandles_eq (n : Nat) (nodes : List NodeImpl) :
    (resizeHandles n nodes).1.length = n ∧
      (resizeHandles n nodes).2 = nodes ++ List.replicate n .zero := by
  induction n generalizing nodes with
  | zero => simp [resizeHandles]
  | succ n ih =>
    simp only [resizeHandles, allocateNew, List.length_cons, ih, List.append_assoc,
      List.singleton_append, List.replicate_succ, and_self]

theorem length_assignVariables (xs : List V) (nodes : List NodeImpl) (is : List Nat) :
    (assignVariables xs nodes is).2.length = nodes.length + is.length := by
  induction is generalizing xs nodes with
  | nil => simp [assignVariables]
  | cons i is ih =>
    simp only [assignVariables, V.variable, ih, length_build, List.length_cons]
    omega

/-- The loop writes the handle of a fresh variable node `i` over entry `i`, for `i` from `k` on. -/
theorem assignVariables_range' (xs : List V) (nodes : List NodeImpl) (k m : Nat)
    (hk : k + m = xs.length) (hn : nodes.length + m ≤ 2 ^ 64) :
    assignVariables xs nodes (List.range' k m) =
      (xs.take k ++ (List.range m).map fun j => ⟨BitVec.ofNat 64 (nodes.length + j)⟩,
        nodes ++ (List.range' k m).map fun i => .variable (BitVec.ofNat 32 i)) := by
  induction m generalizing k xs nodes with
  | zero => simp [assignVariables, ← hk]
  | succ m ih =>
    have hlt : k < xs.length := by omega
    rw [List.range'_succ, assignVariables, V.variable, build_eq _ _ (by omega), setWidth_ofNat]
    simp only
    rw [ih _ _ _ (by simp; omega) (by simp; omega)]
    have htake : (xs.set k ⟨BitVec.ofNat 64 nodes.length⟩).take (k + 1) =
        xs.take k ++ [⟨BitVec.ofNat 64 nodes.length⟩] := by
      rw [List.take_succ, List.set_take, List.set_eq_of_length_le (by simp [Nat.min_le_left]),
        List.getElem?_set_self hlt]
      rfl
    rw [htake, List.range_succ_eq_map, List.map_cons, List.map_map]
    simp [Function.comp_def, Nat.add_assoc, Nat.add_comm 1]

theorem length_initVector (dim : Nat) (nodes : List NodeImpl) :
    (X.initVector dim nodes).2.length = nodes.length + 2 * dim := by
  simp only [X.initVector, length_assignVariables, (resizeHandles_eq dim nodes).2,
    (resizeHandles_eq dim nodes).1, List.length_append, List.length_replicate, List.length_range]
  omega

/-- `X(dim)` on a store of `n` nodes: `dim` blank nodes, then variable `i` at index `n + dim + i`,
whose handle is entry `i` of the `X` vector. -/
theorem initVector_eq (dim : Nat) (nodes : List NodeImpl) (h : nodes.length + 2 * dim ≤ 2 ^ 64) :
    X.initVector dim nodes =
      ((List.range dim).map fun i => ⟨BitVec.ofNat 64 (nodes.length + dim + i)⟩,
        nodes ++ List.replicate dim .zero ++
          (List.range dim).map fun i => .variable (BitVec.ofNat 32 i)) := by
  obtain ⟨h₁, h₂⟩ := resizeHandles_eq dim nodes
  simp only [X.initVector, h₁, List.range_eq_range']
  rw [assignVariables_range' _ _ 0 dim (by omega) (by simp [h₂]; omega), h₂]
  simp [List.range_eq_range']

/-! ## Stores the recording API builds -/

/-- The operands of `node`, stored at index `i`, sit below it. -/
def NodeImpl.Below : NodeImpl → Nat → Prop
  | .operation _ lhs rhs, i => lhs.toNat < i ∧ rhs.toNat < i
  | .function _ argument, i => argument.toNat < i
  | _, _ => True

/-- Every operation node's operands and every function node's argument sit below it. -/
def Topological (nodes : List NodeImpl) : Prop :=
  ∀ (i : Nat) (node : NodeImpl), nodes[i]? = some node → node.Below i

/-- Every variable node reads an index in `[0, d)`. -/
def VariablesBelow (d : Nat) (nodes : List NodeImpl) : Prop :=
  ∀ (i : Nat) (k : BitVec 32), nodes[i]? = some (.variable k) → 0 ≤ k.toInt ∧ k.toInt < d

theorem Topological.append {nodes more : List NodeImpl} (ht : Topological nodes)
    (hm : ∀ (j : Nat) (node : NodeImpl), more[j]? = some node → node.Below (nodes.length + j)) :
    Topological (nodes ++ more) := by
  intro i node h
  rcases Nat.lt_or_ge i nodes.length with hi | hi
  · exact ht i node (by rwa [List.getElem?_append_left hi] at h)
  · rw [List.getElem?_append_right hi] at h
    simpa [Nat.add_sub_cancel' hi] using hm _ _ h

/-- In a topologically ordered store below `2^63` nodes, every node is well formed for any `ok`
that accepts its variable indices. -/
theorem Topological.wellFormedUnder {ok : BitVec 32 → Prop} {nodes : List NodeImpl}
    (ht : Topological nodes) (hv : ∀ (i : Nat) (k : BitVec 32), nodes[i]? = some (.variable k) → ok k)
    (hlen : nodes.length ≤ 2 ^ 63) {i : NodeIndexType} (hi : i.toNat < nodes.length) :
    WellFormedUnder ok nodes i := by
  generalize hn : i.toNat = n at hi
  induction n using Nat.strong_induction_on generalizing i with
  | _ n ih =>
    have h0 : 0 ≤ i.toInt := (toInt_nonneg_iff i).2 (by omega)
    have hget : nodes[i.toNat]? = some nodes[n] := by rw [hn]; exact List.getElem?_eq_getElem hi
    have hb := ht _ _ hget
    rw [hn] at hb
    cases h : nodes[n] with
    | «variable» k => rw [h] at hget; exact .variable h0 hget (hv _ _ hget)
    | value c => rw [h] at hget; exact .value h0 hget
    | operation op lhs rhs =>
      rw [h] at hget hb
      obtain ⟨hl, hr⟩ : lhs.toNat < n ∧ rhs.toNat < n := hb
      exact .operation h0 hget (hn ▸ hl) (hn ▸ hr) (ih _ hl rfl (by omega)) (ih _ hr rfl (by omega))
    | function fn argument =>
      rw [h] at hget hb
      have ha : argument.toNat < n := hb
      exact .function h0 hget (hn ▸ ha) (ih _ ha rfl (by omega))

/-! ## Constructions -/

/-- A construction of the recording API, on handles the program holds. -/
inductive Construction
  | ofDouble (x : Float)
  | operation (name : OperationT) (lhs rhs : V)
  | operationAssign (name : OperationT) (lhs rhs : V)
  | function (F : FunctionT) (argument : V)
  | unaryPlus (x : V)
  | unaryMinus (x : V)

/-- The handles a construction reads. -/
def Construction.operands : Construction → List V
  | .ofDouble _ => []
  | .operation _ lhs rhs => [lhs, rhs]
  | .operationAssign _ lhs rhs => [lhs, rhs]
  | .function _ argument => [argument]
  | .unaryPlus x => [x]
  | .unaryMinus x => [x]

/-- Run a construction: the handle it returns (for a compound form, the one its left operand is
rebound to) and the store it leaves. -/
def Construction.perform : Construction → List NodeImpl → V × List NodeImpl
  | .ofDouble x => V.ofDouble x
  | .operation name lhs rhs => declareOp name lhs rhs
  | .operationAssign name lhs rhs => declareOpAssign name lhs rhs
  | .function F argument => declareFunction F argument
  | .unaryPlus x => V.unaryPlus x
  | .unaryMinus x => V.unaryMinus x

/-- The nodes a construction appends to a store of `n` nodes: one for a constant, a binary
operator or a function, none for unary `+`, the constant `0.0` and a subtraction for unary `-`. -/
def Construction.appended : Construction → Nat → List NodeImpl
  | .ofDouble x, _ => [.value x]
  | .operation name lhs rhs, _ => [.operation name lhs.index rhs.index]
  | .operationAssign name lhs rhs, _ => [.operation name lhs.index rhs.index]
  | .function F argument, _ => [.function F argument.index]
  | .unaryPlus _, _ => []
  | .unaryMinus x, n => [.value 0.0, .operation .subtract (BitVec.ofNat 64 n) x.index]

/-- The handle a construction returns on a store of `n` nodes: its last node, or for unary `+`
its operand. -/
def Construction.result : Construction → Nat → V
  | .unaryPlus x, _ => x
  | .unaryMinus _, n => ⟨BitVec.ofNat 64 (n + 1)⟩
  | _, n => ⟨BitVec.ofNat 64 n⟩

section Perform

variable (c : Construction) (nodes : List NodeImpl)

theorem length_perform :
    (c.perform nodes).2.length = nodes.length + (c.appended nodes.length).length := by
  cases c <;> simp [Construction.perform, Construction.appended, V.ofDouble, declareOpAssign,
    declareOp, declareFunction, V.unaryPlus, V.unaryMinus, V.subtract, length_build]

/-- Every construction appends the nodes `appended` lists and returns `result`. -/
theorem perform_eq (h : nodes.length + 2 ≤ 2 ^ 64) :
    c.perform nodes = (c.result nodes.length, nodes ++ c.appended nodes.length) := by
  cases c <;> simp only [Construction.perform, Construction.appended, Construction.result,
    V.ofDouble, declareOpAssign, declareOp, declareFunction, V.unaryPlus, V.unaryMinus, V.subtract,
    build_eq _ nodes (by omega)]
  case unaryPlus => simp
  case unaryMinus => rw [build_eq _ _ (by simp; omega)]; simp

theorem appended_below (h : nodes.length + 2 ≤ 2 ^ 64)
    (hc : ∀ v ∈ c.operands, v.index.toNat < nodes.length) :
    ∀ (j : Nat) (node : NodeImpl), (c.appended nodes.length)[j]? = some node →
      node.Below (nodes.length + j) := by
  intro j node hj
  have hn : (BitVec.ofNat 64 nodes.length).toNat = nodes.length := by
    rw [BitVec.toNat_ofNat, Nat.mod_eq_of_lt (by omega)]
  cases c <;> simp only [Construction.appended, Construction.operands, List.mem_cons,
    List.mem_singleton, forall_eq_or_imp, forall_eq, List.not_mem_nil] at hc hj
  all_goals
    rcases j with _ | _ | j <;> simp at hj <;> subst hj <;> simp only [NodeImpl.Below, hn] <;> omega

theorem result_lt (h : nodes.length + 2 ≤ 2 ^ 64)
    (hc : ∀ v ∈ c.operands, v.index.toNat < nodes.length) :
    (c.result nodes.length).index.toNat < nodes.length + (c.appended nodes.length).length := by
  cases c <;> simp (disch := omega) only [Construction.result, Construction.appended,
    Construction.operands, List.mem_singleton, forall_eq, List.length_cons, List.length_nil,
    BitVec.toNat_ofNat, Nat.mod_eq_of_lt] at hc ⊢ <;> omega

end Perform

/-! ## Sessions -/

/-- The issued handles and the stores of a session of dimension `d`: `X(d)` on the store that
`reset` emptied, then constructions on issued handles. -/
inductive Recorded (d : Nat) : List V → List NodeImpl → Prop
  | session : Recorded d (X.initVector d []).1 (X.initVector d []).2
  | perform {hs : List V} {nodes : List NodeImpl} (c : Construction) :
      Recorded d hs nodes → (∀ h ∈ c.operands, h ∈ hs) →
      Recorded d ((c.perform nodes).1 :: hs) (c.perform nodes).2

theorem initVector_topological (d : Nat) (h : 2 * d < 2 ^ 63) :
    Topological (X.initVector d []).2 ∧
      ∀ v ∈ (X.initVector d []).1, v.index.toNat < (X.initVector d []).2.length := by
  rw [initVector_eq d [] (by simp; omega)]
  refine ⟨fun i node hi => ?_, fun v hv => ?_⟩
  · have := List.mem_iff_getElem?.2 ⟨i, hi⟩
    simp only [List.nil_append, List.mem_append, List.mem_replicate, List.mem_map,
      List.mem_range] at this
    rcases this with ⟨-, rfl⟩ | ⟨k, -, rfl⟩ <;> trivial
  · simp only [List.mem_map, List.mem_range, List.length_nil, Nat.zero_add] at hv
    obtain ⟨i, hi, rfl⟩ := hv
    simp [Nat.mod_eq_of_lt (show d + i < 2 ^ 64 by omega)]
    omega

/-- Every store a session reaches below `2^63` nodes is topologically ordered, and every handle it
has issued is one of its nodes. -/
theorem Recorded.valid {d : Nat} {hs : List V} {nodes : List NodeImpl} (hr : Recorded d hs nodes)
    (hlen : nodes.length < 2 ^ 63) :
    Topological nodes ∧ ∀ v ∈ hs, v.index.toNat < nodes.length := by
  induction hr with
  | session => exact initVector_topological d (by rw [length_initVector] at hlen; simpa using hlen)
  | @perform hs nodes c _ hc ih =>
    have hl := length_perform c nodes
    obtain ⟨ht, hv⟩ := ih (by omega)
    have hb : nodes.length + 2 ≤ 2 ^ 64 := by omega
    have hops : ∀ v ∈ c.operands, v.index.toNat < nodes.length := fun v h => hv v (hc v h)
    rw [perform_eq c nodes hb]
    refine ⟨ht.append (appended_below c nodes hb hops), ?_⟩
    simp only [List.mem_cons, List.length_append, forall_eq_or_imp]
    exact ⟨result_lt c nodes hb hops, fun v h => by have := hv v h; omega⟩

/-- Every store a session reaches below `2^63` nodes is an acyclic, topologically ordered store
in which every issued handle is an acyclic node; and every construction on issued handles appends
exactly the nodes `appended` lists, returns `result`, and keeps the meaning of every issued handle
at every input. -/
theorem recorded_store_dag {d : Nat} {hs : List V} {nodes : List NodeImpl}
    (hr : Recorded d hs nodes) (hlen : nodes.length < 2 ^ 63) :
    Topological nodes ∧ (∀ h ∈ hs, Acyclic nodes h.index) ∧
      ∀ c : Construction, (∀ h ∈ c.operands, h ∈ hs) → (c.perform nodes).2.length < 2 ^ 63 →
        c.perform nodes = (c.result nodes.length, nodes ++ c.appended nodes.length) ∧
          ∀ (x : List Float), ∀ h ∈ hs,
            denote (c.perform nodes).2 x h.index.toNat = denote nodes x h.index.toNat := by
  obtain ⟨ht, hv⟩ := hr.valid hlen
  refine ⟨ht, fun h hh => ht.wellFormedUnder (fun _ _ _ => trivial) (by omega) (hv h hh),
    fun c _ hc => ?_⟩
  have he := perform_eq c nodes (by have := length_perform c nodes; omega)
  exact ⟨he, fun x h hh => by rw [he, denote_append _ (hv h hh)]⟩

theorem recorded_store_dag_x_times_x :
    Recorded 1 [⟨2⟩, ⟨1⟩] [.variable 0, .variable 0, .operation .multiply 1 1] ∧
      [NodeImpl.variable 0, .variable 0, .operation .multiply 1 1].length < 2 ^ 63 ∧
      Topological [.variable 0, .variable 0, .operation .multiply 1 1] ∧
      (∀ h ∈ [(⟨2⟩ : V), ⟨1⟩],
        Acyclic [.variable 0, .variable 0, .operation .multiply 1 1] h.index) ∧
      ∀ c : Construction, (∀ h ∈ c.operands, h ∈ [(⟨2⟩ : V), ⟨1⟩]) →
        (c.perform [.variable 0, .variable 0, .operation .multiply 1 1]).2.length < 2 ^ 63 →
        c.perform [.variable 0, .variable 0, .operation .multiply 1 1] =
            (c.result 3, [.variable 0, .variable 0, .operation .multiply 1 1] ++ c.appended 3) ∧
          ∀ (x : List Float), ∀ h ∈ [(⟨2⟩ : V), ⟨1⟩],
            denote (c.perform [.variable 0, .variable 0, .operation .multiply 1 1]).2 x
                h.index.toNat =
              denote [.variable 0, .variable 0, .operation .multiply 1 1] x h.index.toNat :=
  have hr : Recorded 1 [⟨2⟩, ⟨1⟩] [.variable 0, .variable 0, .operation .multiply 1 1] :=
    .perform (.operation .multiply ⟨1⟩ ⟨1⟩) .session (by decide)
  ⟨hr, by decide, recorded_store_dag hr (by decide)⟩

/-- What a construction computes from the values `val` of the handles it reads. -/
def Construction.value (c : Construction) (val : V → Float) : Float :=
  match c with
  | .ofDouble x => x
  | .operation name lhs rhs => applyOperation name (val lhs) (val rhs)
  | .operationAssign name lhs rhs => applyOperation name (val lhs) (val rhs)
  | .function F argument => applyFunction F (val argument)
  | .unaryPlus x => val x
  | .unaryMinus x => applyOperation .subtract 0.0 (val x)

/-- The handle a construction returns on a store below `2^64 - 2` nodes, whose operands are nodes
of the store, means what the construction computes from the meanings of its operands. -/
theorem denote_result {c : Construction} {nodes : List NodeImpl}
    (h : nodes.length + 2 ≤ 2 ^ 64) (hops : ∀ v ∈ c.operands, v.index.toNat < nodes.length)
    (x : List Float) :
    denote (nodes ++ c.appended nodes.length) x (c.result nodes.length).index.toNat =
      c.value fun v => denote nodes x v.index.toNat := by
  have hn : ∀ k, k < 2 ^ 64 → (BitVec.ofNat 64 k).toNat = k := fun k hk => by
    rw [BitVec.toNat_ofNat, Nat.mod_eq_of_lt hk]
  have hlast : ∀ (more : List NodeImpl) (node : NodeImpl),
      (nodes ++ node :: more)[nodes.length]? = some node := fun more node => by
    rw [List.getElem?_append_right (Nat.le_refl _), Nat.sub_self, List.getElem?_cons_zero]
  cases c <;> simp only [Construction.operands, List.mem_cons, List.mem_singleton,
    List.not_mem_nil, or_false, forall_eq_or_imp, forall_eq, Construction.result,
    Construction.appended, Construction.value] at hops ⊢
  case ofDouble => rw [hn _ (by omega), denote_value (hlast [] _)]
  case operation | operationAssign =>
    rw [hn _ (by omega), denote_operation (hlast [] _) hops.1 hops.2,
      denote_append _ hops.1, denote_append _ hops.2]
  case function => rw [hn _ (by omega), denote_function (hlast [] _) hops, denote_append _ hops]
  case unaryPlus => rw [List.append_nil]
  case unaryMinus y =>
    have h₁ : (nodes ++ [.value 0.0, .operation .subtract (BitVec.ofNat 64 nodes.length)
        y.index])[nodes.length + 1]? = some (.operation .subtract (BitVec.ofNat 64 nodes.length)
        y.index) := by
      rw [List.getElem?_append_right (by omega), show nodes.length + 1 - nodes.length = 1 by omega,
        List.getElem?_cons_succ, List.getElem?_cons_zero]
    rw [hn _ (by omega), denote_operation h₁ (by rw [hn _ (by omega)]; omega) (by omega),
      hn _ (by omega), denote_value (hlast _ _), denote_append _ hops]

/-- Recording is compositional: in a session, the handle a construction returns means, at every
input, what the construction computes from the meanings of the handles it reads. -/
theorem perform_denote {d : Nat} {hs : List V} {nodes : List NodeImpl} {c : Construction}
    (hr : Recorded d hs nodes) (hc : ∀ h ∈ c.operands, h ∈ hs)
    (hlen : (c.perform nodes).2.length < 2 ^ 63) (x : List Float) :
    denote (c.perform nodes).2 x (c.perform nodes).1.index.toNat =
      c.value fun h => denote nodes x h.index.toNat := by
  have hl := length_perform c nodes
  obtain ⟨-, hv⟩ := hr.valid (by omega)
  rw [perform_eq c nodes (by omega)]
  exact denote_result (by omega) (fun h hh => hv h (hc h hh)) x

theorem perform_denote_square :
    (∀ h ∈ (Construction.operation .multiply ⟨1⟩ ⟨1⟩).operands, h ∈ (X.initVector 1 []).1) ∧
      ((Construction.operation .multiply ⟨1⟩ ⟨1⟩).perform (X.initVector 1 []).2).2.length <
        2 ^ 63 ∧
      denote ((Construction.operation .multiply ⟨1⟩ ⟨1⟩).perform (X.initVector 1 []).2).2 [3.0]
          ((Construction.operation .multiply ⟨1⟩ ⟨1⟩).perform (X.initVector 1 []).2).1.index.toNat =
        (Construction.operation .multiply ⟨1⟩ ⟨1⟩).value fun h =>
          denote (X.initVector 1 []).2 [3.0] h.index.toNat :=
  ⟨by decide, by decide, perform_denote .session (by decide) (by decide) [3.0]⟩

/-! ## The variables of a session -/

theorem build_variable {node : NodeImpl} {nodes : List NodeImpl} {i : Nat} {k : BitVec 32}
    (h : (V.build node nodes).2[i]? = some (.variable k)) :
    node = .variable k ∨ nodes[i]? = some (.variable k) ∨ k = 0 := by
  simp only [V.build, allocateNew, List.getElem?_set, List.getElem?_append] at h
  split_ifs at h with h₁ h₂ h₃
  · exact .inl (Option.some.inj h)
  · exact .inr (.inl h)
  · have := List.mem_iff_getElem?.2 ⟨_, h⟩
    simp only [NodeImpl.zero, List.mem_singleton, NodeImpl.variable.injEq] at this
    exact .inr (.inr this)

/-- A construction writes no variable node: a variable node after it is one from before, or the
blank node `0`. -/
theorem perform_variable {c : Construction} {nodes : List NodeImpl} {i : Nat} {k : BitVec 32}
    (h : (c.perform nodes).2[i]? = some (.variable k)) :
    nodes[i]? = some (.variable k) ∨ k = 0 := by
  cases c <;> simp only [Construction.perform, V.ofDouble, declareOpAssign, declareOp,
    declareFunction, V.unaryPlus, V.unaryMinus, V.subtract] at h
  case unaryPlus => exact .inl h
  case unaryMinus =>
    rcases build_variable h with h | h | h
    · cases h
    · rcases build_variable h with h | h | h
      · cases h
      · exact .inl h
      · exact .inr h
    · exact .inr h
  all_goals
    rcases build_variable h with h | h | h
    · cases h
    · exact .inl h
    · exact .inr h

theorem toInt_ofNat_of_lt {i : Nat} (h : i < 2 ^ 31) : (BitVec.ofNat 32 i).toInt = i := by
  rw [BitVec.toInt_eq_toNat_cond, BitVec.toNat_ofNat, Nat.mod_eq_of_lt (by omega), if_pos (by omega)]

/-- Entry `i` of the `X` vector of `X(d)` is the handle of node `d + i`, a variable node storing
`i` as a 32-bit integer. -/
theorem initVector_entry {d i : Nat} (hi : i < d) (hd : 2 * d ≤ 2 ^ 64) :
    (X.initVector d []).1[i]? = some ⟨BitVec.ofNat 64 (d + i)⟩ ∧
      (X.initVector d []).2[d + i]? = some (.variable (BitVec.ofNat 32 i)) := by
  rw [initVector_eq d [] (by simpa using hd)]
  simp [List.getElem?_range hi, List.getElem?_append_right, List.getElem?_map]

/-- For `0 < d ≤ 2^31`, every variable node of every store of a session of dimension `d` reads an
index in `[0, d)`. -/
theorem Recorded.variablesBelow {d : Nat} {hs : List V} {nodes : List NodeImpl} (hd : 0 < d)
    (hd' : d ≤ 2 ^ 31) (hr : Recorded d hs nodes) : VariablesBelow d nodes := by
  induction hr with
  | session =>
    rw [initVector_eq d [] (by simp; omega)]
    intro i k h
    have := List.mem_iff_getElem?.2 ⟨i, h⟩
    simp only [List.nil_append, List.mem_append, List.mem_replicate, NodeImpl.zero,
      NodeImpl.variable.injEq, List.mem_map, List.mem_range] at this
    rcases this with ⟨-, rfl⟩ | ⟨j, hj, rfl⟩
    · exact ⟨le_refl _, by simp; omega⟩
    · rw [toInt_ofNat_of_lt (by omega)]; omega
  | perform c _ _ ih =>
    intro i k h
    rcases perform_variable h with h | rfl
    · exact ih i k h
    · exact ⟨le_refl _, by simp; omega⟩

/-- For `0 < d ≤ 2^31`, entry `i` of the `X` vector of `X(d)` is the handle of a variable node
storing exactly `i`, and every variable node of every store of the session reads an index in
`[0, d)`. -/
theorem session_variables_in_range {d : Nat} (hd : 0 < d) (hd' : d ≤ 2 ^ 31) :
    (∀ i < d, (X.initVector d []).1[i]? = some ⟨BitVec.ofNat 64 (d + i)⟩ ∧
      ∃ k : BitVec 32, (X.initVector d []).2[d + i]? = some (.variable k) ∧ k.toInt = i) ∧
    ∀ (hs : List V) (nodes : List NodeImpl), Recorded d hs nodes → VariablesBelow d nodes := by
  refine ⟨fun i hi => ?_, fun hs nodes hr => hr.variablesBelow hd hd'⟩
  obtain ⟨h₁, h₂⟩ := initVector_entry hi (by omega)
  exact ⟨h₁, _, h₂, toInt_ofNat_of_lt (by omega)⟩

theorem session_variables_in_range_two :
    0 < 2 ∧ 2 ≤ 2 ^ 31 ∧
      (∀ i : Nat, i < 2 → (X.initVector 2 []).1[i]? = some ⟨BitVec.ofNat 64 (2 + i)⟩ ∧
        ∃ k : BitVec 32, (X.initVector 2 []).2[2 + i]? = some (.variable k) ∧ k.toInt = i) ∧
      Recorded 2 [⟨4⟩, ⟨2⟩, ⟨3⟩]
        [.variable 0, .variable 0, .variable 0, .variable 1, .operation .multiply 2 3] ∧
      VariablesBelow 2
        [.variable 0, .variable 0, .variable 0, .variable 1, .operation .multiply 2 3] :=
  have hr : Recorded 2 [⟨4⟩, ⟨2⟩, ⟨3⟩]
      [.variable 0, .variable 0, .variable 0, .variable 1, .operation .multiply 2 3] :=
    .perform (.operation .multiply ⟨2⟩ ⟨3⟩) .session (by decide)
  have h := session_variables_in_range (d := 2) (by decide) (by decide)
  ⟨by decide, by decide, h.1, hr, h.2 _ _ hr⟩

/-- At `d = 2^31 + 1`, entry `2^31` of the `X` vector is the handle of a variable node whose
`int32_t` index is `-2^31`. -/
theorem x_variable_narrowed :
    (X.initVector (2 ^ 31 + 1) []).1[2 ^ 31]? = some ⟨BitVec.ofNat 64 (2 ^ 31 + 1 + 2 ^ 31)⟩ ∧
      (X.initVector (2 ^ 31 + 1) []).2[2 ^ 31 + 1 + 2 ^ 31]? =
        some (.variable (BitVec.ofNat 32 (2 ^ 31))) ∧
      (BitVec.ofNat 32 (2 ^ 31)).toInt = -2 ^ 31 :=
  ⟨(initVector_entry (by decide) (by decide)).1, (initVector_entry (by decide) (by decide)).2,
    by decide⟩

end FnCAS
