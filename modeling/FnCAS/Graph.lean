import FnCAS.Node

/-! # What a store of nodes means

* `denote nodes x i`: the recursive meaning of node `i` at the input `x`, the semantics that
  `eval_node` is checked against (value `c` is `c`, variable `k` is `x[k]`, an operation or a
  function applies its table to the meanings of its operands). On a store whose operands do not
  sit below the node reading them the recursion would not end; there it is `quiet_NaN`.
* `WellFormedUnder ok nodes i`: node `i` and every node it reaches are nodes of the store, with
  each operand below the node that reads it and each variable index accepted by `ok`.
  `WellFormed nodes x` takes for `ok` "an index of `x`"; `Acyclic nodes` accepts every index.
* `Reaches nodes i j`: node `j` is `i` or an operand of an operand ... of `i`.

Appending nodes changes neither the meaning nor the well-formedness of a node already there
(`denote_append`, `WellFormedUnder.append`): the recording API only appends.
-/

namespace FnCAS

/-- The recursive meaning of node `i` of `nodes` at the input `x`. -/
def denote (nodes : List NodeImpl) (x : List Float) (i : Nat) : Float :=
  match nodes[i]? with
  | some (.variable k) => x.getD k.toNat 0
  | some (.value c) => c
  | some (.operation op lhs rhs) =>
    if _h : lhs.toNat < i ∧ rhs.toNat < i then
      applyOperation op (denote nodes x lhs.toNat) (denote nodes x rhs.toNat)
    else quietNaN
  | some (.function fn argument) =>
    if _h : argument.toNat < i then applyFunction fn (denote nodes x argument.toNat)
    else quietNaN
  | none => quietNaN
termination_by i

section Denote

variable {nodes : List NodeImpl} {x : List Float} {i : Nat}

theorem denote_variable {k : BitVec 32} (h : nodes[i]? = some (.variable k)) :
    denote nodes x i = x.getD k.toNat 0 := by
  rw [denote, h]

theorem denote_value {c : Float} (h : nodes[i]? = some (.value c)) : denote nodes x i = c := by
  rw [denote, h]

theorem denote_operation {op : OperationT} {lhs rhs : NodeIndexType}
    (h : nodes[i]? = some (.operation op lhs rhs)) (hl : lhs.toNat < i) (hr : rhs.toNat < i) :
    denote nodes x i =
      applyOperation op (denote nodes x lhs.toNat) (denote nodes x rhs.toNat) := by
  rw [denote, h]
  simp only [hl, hr, and_self, dite_true]

theorem denote_function {fn : FunctionT} {argument : NodeIndexType}
    (h : nodes[i]? = some (.function fn argument)) (ha : argument.toNat < i) :
    denote nodes x i = applyFunction fn (denote nodes x argument.toNat) := by
  rw [denote, h]
  simp only [ha, dite_true]

/-- The meaning of a node depends only on the nodes up to it. -/
theorem denote_append (more : List NodeImpl) (hi : i < nodes.length) :
    denote (nodes ++ more) x i = denote nodes x i := by
  induction i using Nat.strong_induction_on with
  | _ i ih =>
    have hget : (nodes ++ more)[i]? = nodes[i]? := List.getElem?_append_left hi
    rw [denote, denote, hget]
    split
    · rfl
    · rfl
    · split
      · rename_i h
        rw [ih _ h.1 (by omega), ih _ h.2 (by omega)]
      · rfl
    · split
      · rename_i h
        rw [ih _ h (by omega)]
      · rfl
    · rfl

end Denote

/-! ## Well-formed nodes -/

/-- Node `i` and every node it reaches are nodes of `nodes`, at a nonnegative index, with every
operand below the node that reads it and every variable index accepted by `ok`. -/
inductive WellFormedUnder (ok : BitVec 32 → Prop) (nodes : List NodeImpl) : NodeIndexType → Prop
  | variable {i : NodeIndexType} {k : BitVec 32} :
      0 ≤ i.toInt → nodes[i.toNat]? = some (.variable k) → ok k → WellFormedUnder ok nodes i
  | value {i : NodeIndexType} {c : Float} :
      0 ≤ i.toInt → nodes[i.toNat]? = some (.value c) → WellFormedUnder ok nodes i
  | operation {i : NodeIndexType} {op : OperationT} {lhs rhs : NodeIndexType} :
      0 ≤ i.toInt → nodes[i.toNat]? = some (.operation op lhs rhs) →
      lhs.toNat < i.toNat → rhs.toNat < i.toNat →
      WellFormedUnder ok nodes lhs → WellFormedUnder ok nodes rhs → WellFormedUnder ok nodes i
  | function {i : NodeIndexType} {fn : FunctionT} {argument : NodeIndexType} :
      0 ≤ i.toInt → nodes[i.toNat]? = some (.function fn argument) →
      argument.toNat < i.toNat → WellFormedUnder ok nodes argument → WellFormedUnder ok nodes i

/-- A variable index is an index of the input `x`. -/
def VariableInRange (x : List Float) (k : BitVec 32) : Prop :=
  0 ≤ k.toInt ∧ k.toInt < x.length

instance (x : List Float) (k : BitVec 32) : Decidable (VariableInRange x k) :=
  inferInstanceAs (Decidable (_ ∧ _))

/-- Node `i` is well formed for the input `x`: every node it reaches is one of the store, with
its operands below it and its variable index an index of `x`. -/
abbrev WellFormed (nodes : List NodeImpl) (x : List Float) (i : NodeIndexType) : Prop :=
  WellFormedUnder (VariableInRange x) nodes i

/-- Node `i` reaches only nodes of the store with their operands below them. -/
abbrev Acyclic (nodes : List NodeImpl) (i : NodeIndexType) : Prop :=
  WellFormedUnder (fun _ => True) nodes i

namespace WellFormedUnder

variable {ok : BitVec 32 → Prop} {nodes : List NodeImpl} {i : NodeIndexType}

theorem nonneg (h : WellFormedUnder ok nodes i) : 0 ≤ i.toInt := by
  cases h <;> assumption

theorem exists_node (h : WellFormedUnder ok nodes i) : ∃ n, nodes[i.toNat]? = some n := by
  cases h <;> exact ⟨_, by assumption⟩

theorem lt_length (h : WellFormedUnder ok nodes i) : i.toNat < nodes.length := by
  obtain ⟨n, hn⟩ := h.exists_node
  exact (List.getElem?_eq_some_iff.1 hn).1

theorem lt_two_pow (h : WellFormedUnder ok nodes i) : i.toNat < 2 ^ 63 :=
  (toInt_nonneg_iff i).1 h.nonneg

theorem mono {ok' : BitVec 32 → Prop} (hok : ∀ k, ok k → ok' k) (h : WellFormedUnder ok nodes i) :
    WellFormedUnder ok' nodes i := by
  induction h with
  | «variable» h0 hn hk => exact .variable h0 hn (hok _ hk)
  | value h0 hn => exact .value h0 hn
  | operation h0 hn hl hr _ _ ihl ihr => exact .operation h0 hn hl hr ihl ihr
  | function h0 hn ha _ iha => exact .function h0 hn ha iha

theorem append (more : List NodeImpl) (h : WellFormedUnder ok nodes i) :
    WellFormedUnder ok (nodes ++ more) i := by
  have hget : ∀ {j : NodeIndexType} {n : NodeImpl}, nodes[j.toNat]? = some n →
      (nodes ++ more)[j.toNat]? = some n := fun hn =>
    (List.getElem?_append_left (List.getElem?_eq_some_iff.1 hn).1).trans hn
  induction h with
  | «variable» h0 hn hk => exact .variable h0 (hget hn) hk
  | value h0 hn => exact .value h0 (hget hn)
  | operation h0 hn hl hr _ _ ihl ihr => exact .operation h0 (hget hn) hl hr ihl ihr
  | function h0 hn ha _ iha => exact .function h0 (hget hn) ha iha

end WellFormedUnder

theorem WellFormed.acyclic {nodes : List NodeImpl} {x : List Float} {i : NodeIndexType}
    (h : WellFormed nodes x i) : Acyclic nodes i :=
  WellFormedUnder.mono (fun _ _ => trivial) h

/-- The store of `(2 + 2) * (2 + 2)`, in which each operation reads one node twice, is well formed
under any check of variable indices. -/
theorem wellFormedUnder_diamond (ok : BitVec 32 → Prop) :
    WellFormedUnder ok [.value 2.0, .operation .add 0 0, .operation .multiply 1 1] 2 :=
  have h0 : WellFormedUnder ok [.value 2.0, .operation .add 0 0, .operation .multiply 1 1] 0 :=
    .value (by decide) rfl
  have h1 : WellFormedUnder ok [.value 2.0, .operation .add 0 0, .operation .multiply 1 1] 1 :=
    .operation (by decide) rfl (by decide) (by decide) h0 h0
  .operation (by decide) rfl (by decide) (by decide) h1 h1

/-! ## Reachable nodes -/

/-- Node `j` is `i` or reached from `i` through operands. -/
inductive Reaches (nodes : List NodeImpl) : NodeIndexType → NodeIndexType → Prop
  | refl (i : NodeIndexType) : Reaches nodes i i
  | lhs {i j : NodeIndexType} {op : OperationT} {lhs rhs : NodeIndexType} :
      nodes[i.toNat]? = some (.operation op lhs rhs) → Reaches nodes lhs j → Reaches nodes i j
  | rhs {i j : NodeIndexType} {op : OperationT} {lhs rhs : NodeIndexType} :
      nodes[i.toNat]? = some (.operation op lhs rhs) → Reaches nodes rhs j → Reaches nodes i j
  | argument {i j : NodeIndexType} {fn : FunctionT} {argument : NodeIndexType} :
      nodes[i.toNat]? = some (.function fn argument) → Reaches nodes argument j →
      Reaches nodes i j

namespace WellFormedUnder

variable {ok : BitVec 32 → Prop} {nodes : List NodeImpl} {i : NodeIndexType}

theorem of_operation {op : OperationT} {lhs rhs : NodeIndexType} (h : WellFormedUnder ok nodes i)
    (hn : nodes[i.toNat]? = some (.operation op lhs rhs)) :
    lhs.toNat < i.toNat ∧ rhs.toNat < i.toNat ∧
      WellFormedUnder ok nodes lhs ∧ WellFormedUnder ok nodes rhs := by
  cases h <;> rw [hn] at * <;> simp only [Option.some.injEq, NodeImpl.operation.injEq,
    reduceCtorEq] at *
  obtain ⟨rfl, rfl, rfl⟩ := ‹_ ∧ _ ∧ _›
  exact ⟨‹_›, ‹_›, ‹_›, ‹_›⟩

theorem of_function {fn : FunctionT} {argument : NodeIndexType} (h : WellFormedUnder ok nodes i)
    (hn : nodes[i.toNat]? = some (.function fn argument)) :
    argument.toNat < i.toNat ∧ WellFormedUnder ok nodes argument := by
  cases h <;> rw [hn] at * <;> simp only [Option.some.injEq, NodeImpl.function.injEq,
    reduceCtorEq] at *
  obtain ⟨rfl, rfl⟩ := ‹_ ∧ _›
  exact ⟨‹_›, ‹_›⟩

theorem of_variable {k : BitVec 32} (h : WellFormedUnder ok nodes i)
    (hn : nodes[i.toNat]? = some (.variable k)) : ok k := by
  cases h <;> rw [hn] at * <;> simp only [Option.some.injEq, NodeImpl.variable.injEq,
    reduceCtorEq] at *
  subst_vars
  assumption

theorem reaches {j : NodeIndexType} (h : Reaches nodes i j) (hi : WellFormedUnder ok nodes i) :
    WellFormedUnder ok nodes j ∧ j.toNat ≤ i.toNat := by
  induction h with
  | refl => exact ⟨hi, le_rfl⟩
  | lhs hn _ ih =>
    obtain ⟨hl, -, hwl, -⟩ := hi.of_operation hn
    exact ⟨(ih hwl).1, by have := (ih hwl).2; omega⟩
  | rhs hn _ ih =>
    obtain ⟨-, hr, -, hwr⟩ := hi.of_operation hn
    exact ⟨(ih hwr).1, by have := (ih hwr).2; omega⟩
  | argument hn _ ih =>
    obtain ⟨ha, hwa⟩ := hi.of_function hn
    exact ⟨(ih hwa).1, by have := (ih hwa).2; omega⟩

end WellFormedUnder

end FnCAS
