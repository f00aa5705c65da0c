import FnCAS.Memo

/-! # Every run of the loop that ends is a visit; a cycle never ends

`Visit.loop` runs a visit on the loop of `eval_node`. `Visit.of_loop` is the converse: a run of
the loop that empties the entries above a first visit of `i` is a visit of `i`, as long as the
nodes `i` reaches have indices below `2^63` (the loop reads any other index as a post-marker).

Nothing in `eval_node` looks for cycles, and a store can hold one: the handle accessors
`lhs_index()`, `rhs_index()` and `argument_index()` of `GenericV` return the operand fields by
reference. A visit never needs a node on a cycle of uncomputed nodes (`Visit.not_needed_onCycle`),
so on such a root no number of passes ends the loop (`evalNode_cycle`).
-/

namespace FnCAS

/-! ## Inverting a pass -/

section Invert

variable {nodes : List NodeImpl} {x : List Float} {i : NodeIndexType}
  {stack : List NodeIndexType} {V : List Float} {B : List Bool} {s' : EvalState}

theorem evalStep_post_operation_inv {op : OperationT} {lhs rhs : NodeIndexType}
    (h0 : 0 ≤ i.toInt) (hn : nodes[i.toNat]? = some (.operation op lhs rhs))
    (h : evalStep nodes x (~~~i) ⟨stack, V, B⟩ = some s') :
    ∃ a b, V[lhs.toNat]? = some a ∧ V[rhs.toNat]? = some b ∧
      s' = ⟨stack, growingVectorAssign V i.toNat 0 (applyOperation op a b),
        growingVectorAssign B i.toNat false true⟩ := by
  simp only [evalStep, BitVec.not_not, not_slt_marker h0, hn, Bool.false_eq_true, ite_false,
    Option.bind_eq_bind, Option.bind_eq_some, Option.some.injEq] at h
  obtain ⟨a, ha, b, hb, rfl⟩ := h
  exact ⟨a, b, ha, hb, rfl⟩

theorem evalStep_post_function_inv {fn : FunctionT} {argument : NodeIndexType}
    (h0 : 0 ≤ i.toInt) (hn : nodes[i.toNat]? = some (.function fn argument))
    (h : evalStep nodes x (~~~i) ⟨stack, V, B⟩ = some s') :
    ∃ a, V[argument.toNat]? = some a ∧
      s' = ⟨stack, growingVectorAssign V i.toNat 0 (applyFunction fn a),
        growingVectorAssign B i.toNat false true⟩ := by
  simp only [evalStep, BitVec.not_not, not_slt_marker h0, hn, Bool.false_eq_true, ite_false,
    Option.bind_eq_bind, Option.bind_eq_some, Option.some.injEq] at h
  obtain ⟨a, ha, rfl⟩ := h
  exact ⟨a, ha, rfl⟩

theorem evalStep_variable_inv {k : BitVec 32} (h0 : 0 ≤ i.toInt)
    (hc : B[i.toNat]?.getD false = false) (hn : nodes[i.toNat]? = some (.variable k))
    (h : evalStep nodes x i ⟨stack, V, B⟩ = some s') :
    ((0 : BitVec 32).sle k && k.slt (BitVec.ofNat 32 x.length)) = true ∧
      ∃ xv, x[k.toNat]? = some xv ∧ s' = ⟨stack, growingVectorAssign V i.toNat 0 xv,
        growingVectorAssign (growingVectorAccess B i.toNat false) i.toNat false true⟩ := by
  simp only [evalStep, slt_of_nonneg h0, getD_growingVectorAccess, hc, hn, ite_true,
    Bool.false_eq_true, ite_false] at h
  split at h
  · obtain ⟨xv, hx, rfl⟩ := Option.map_eq_some'.1 h
    exact ⟨‹_›, xv, hx, rfl⟩
  · cases h

theorem evalStep_none_inv (h0 : 0 ≤ i.toInt) (hc : B[i.toNat]?.getD false = false)
    (hn : nodes[i.toNat]? = none) : evalStep nodes x i ⟨stack, V, B⟩ = none := by
  simp only [evalStep, slt_of_nonneg h0, getD_growingVectorAccess, hc, hn, ite_true,
    Bool.false_eq_true, ite_false]

theorem evalLoop_cons_some {fuel : Nat} (h : evalLoop nodes x fuel ⟨i :: stack, V, B⟩ = some s') :
    ∃ f s₁, fuel = f + 1 ∧ evalStep nodes x i ⟨stack, V, B⟩ = some s₁ ∧
      evalLoop nodes x f s₁ = some s' := by
  rcases fuel with _ | f
  · cases h
  · obtain ⟨s₁, h₁, hl⟩ := Option.bind_eq_some.1 h
    exact ⟨f, s₁, rfl, h₁, hl⟩

end Invert

/-! ## A run that ends is a visit -/

/-- A run of the loop from a first visit of `i`, whose reachable nodes have indices below `2^63`,
that ends is a visit of `i` in `n ≤ fuel` passes, followed by the rest of the run on the entries
below. -/
theorem Visit.of_loop {nodes : List NodeImpl} {x : List Float} (fuel : Nat) :
    ∀ {i : NodeIndexType} {stack : List NodeIndexType} {V : List Float} {B : List Bool}
      {s' : EvalState}, (∀ j, Reaches nodes i j → 0 ≤ j.toInt) →
      evalLoop nodes x fuel ⟨i :: stack, V, B⟩ = some s' →
      ∃ n V' B', Visit nodes x i V B n V' B' ∧ n ≤ fuel ∧
        evalLoop nodes x (fuel - n) ⟨stack, V', B'⟩ = some s' := by
  induction fuel using Nat.strong_induction_on with
  | _ fuel ih =>
  intro i stack V B s' hpos hl
  obtain ⟨f, s₁, rfl, h₁, hl⟩ := evalLoop_cons_some hl
  have h0 := hpos i (.refl i)
  by_cases hc : B[i.toNat]?.getD false = true
  · rw [evalStep_computed h0 hc, Option.some.injEq] at h₁
    subst h₁
    exact ⟨1, V, _, .computed h0 hc, by omega, hl⟩
  rw [Bool.not_eq_true] at hc
  rcases hn : nodes[i.toNat]? with _ | (k | c | ⟨op, lhs, rhs⟩ | ⟨fn, argument⟩)
  · rw [evalStep_none_inv h0 hc hn] at h₁
    cases h₁
  · obtain ⟨hk, xv, hx, rfl⟩ := evalStep_variable_inv h0 hc hn h₁
    exact ⟨1, _, _, .variable h0 hc hn hk hx, by omega, hl⟩
  · rw [evalStep_value h0 hc hn, Option.some.injEq] at h₁
    subst h₁
    exact ⟨1, _, _, .value h0 hc hn, by omega, hl⟩
  · rw [evalStep_operation h0 hc hn, Option.some.injEq] at h₁
    subst h₁
    obtain ⟨n₁, V₁, B₁, hv₁, hn₁, hl⟩ :=
      ih f (by omega) (fun j hj => hpos j (.rhs hn hj)) hl
    obtain ⟨n₂, V₂, B₂, hv₂, hn₂, hl⟩ :=
      ih (f - n₁) (by omega) (fun j hj => hpos j (.lhs hn hj)) hl
    obtain ⟨g, s₂, hg, h₂, hl⟩ := evalLoop_cons_some hl
    obtain ⟨a, b, ha, hb, rfl⟩ := evalStep_post_operation_inv h0 hn h₂
    exact ⟨n₁ + n₂ + 2, _, _, .operation h0 hc hn hv₁ hv₂ ha hb, by omega,
      by rwa [show f + 1 - (n₁ + n₂ + 2) = g by omega]⟩
  · rw [evalStep_function h0 hc hn, Option.some.injEq] at h₁
    subst h₁
    obtain ⟨n₁, V₁, B₁, hv₁, hn₁, hl⟩ :=
      ih f (by omega) (fun j hj => hpos j (.argument hn hj)) hl
    obtain ⟨g, s₂, hg, h₂, hl⟩ := evalLoop_cons_some hl
    obtain ⟨a, ha, rfl⟩ := evalStep_post_function_inv h0 hn h₂
    exact ⟨n₁ + 2, _, _, .function h0 hc hn hv₁ ha, by omega,
      by rwa [show f + 1 - (n₁ + 2) = g by omega]⟩

/-! ## Cycles of uncomputed nodes -/

/-- Node `c` is on a cycle of nodes uncomputed at `B`: one of its operands needs it. -/
def OnCycle (nodes : List NodeImpl) (B : List Bool) (c : NodeIndexType) : Prop :=
  (∃ op lhs rhs, nodes[c.toNat]? = some (.operation op lhs rhs) ∧
    (Needed nodes B lhs c ∨ Needed nodes B rhs c)) ∨
  ∃ fn argument, nodes[c.toNat]? = some (.function fn argument) ∧ Needed nodes B argument c

namespace OnCycle

variable {nodes : List NodeImpl} {B B' : List Bool} {c : NodeIndexType}

theorem of_flags (hB : ∀ n : Nat, B[n]?.getD false = true → B'[n]?.getD false = true)
    (h : OnCycle nodes B' c) : OnCycle nodes B c :=
  h.imp (fun ⟨op, l, r, hn, h⟩ => ⟨op, l, r, hn, h.imp (·.of_flags hB) (·.of_flags hB)⟩)
    fun ⟨fn, a, hn, h⟩ => ⟨fn, a, hn, h.of_flags hB⟩

theorem restrict (h : OnCycle nodes B c)
    (hB : ∀ m, Needed nodes B m c → B'[m.toNat]?.getD false = false) : OnCycle nodes B' c :=
  h.imp (fun ⟨op, l, r, hn, h⟩ => ⟨op, l, r, hn, h.imp (·.restrict hB) (·.restrict hB)⟩)
    fun ⟨fn, a, hn, h⟩ => ⟨fn, a, hn, h.restrict hB⟩

end OnCycle

namespace Visit

variable {nodes : List NodeImpl} {x : List Float} {i : NodeIndexType} {V V' : List Float}
  {B B' : List Bool} {n : Nat}

/-- A visit of `o` at the flags `B` leaves unset every node on a path to a cycle of nodes
uncomputed at `B`, once `o` needs none of them. -/
theorem flag_unset_onCycle (h : Visit nodes x i V B n V' B')
    (hfree : ∀ c, OnCycle nodes B c → ¬Needed nodes B i c) {c : NodeIndexType}
    (hc : OnCycle nodes B c) {m : NodeIndexType} (hm : Needed nodes B m c) :
    B'[m.toNat]?.getD false = false :=
  Bool.eq_false_iff.2 fun hB' => by
    rcases h.flag_needed hB' with hB | ⟨k, hk, hkm⟩
    · rw [hm.source] at hB
      cases hB
    · obtain rfl := BitVec.eq_of_toNat_eq hkm
      exact hfree c hc (hk.trans hm)

/-- A visit never needs a node on a cycle of uncomputed nodes. -/
theorem not_needed_onCycle (h : Visit nodes x i V B n V' B') :
    ∀ c, OnCycle nodes B c → ¬Needed nodes B i c := by
  have acc : ∀ {B : List Bool} {k : Nat} {n : Nat},
      B[n]?.getD false = true → (growingVectorAccess B k false)[n]?.getD false = true :=
    fun h => by simpa using h
  have acc' : ∀ {B : List Bool} {k : Nat} {n : Nat},
      (growingVectorAccess B k false)[n]?.getD false = true → B[n]?.getD false = true :=
    fun h => by simpa using h
  induction h with
  | computed _ hc => exact fun c _ hi => by rw [hi.source] at hc; cases hc
  | «variable» _ _ hn | value _ _ hn =>
    intro c hcyc hi
    cases hi with
    | refl => rcases hcyc with ⟨_, _, _, hn', -⟩ | ⟨_, _, hn', -⟩ <;> simp [hn] at hn'
    | lhs _ hn' | rhs _ hn' | argument _ hn' => simp [hn] at hn'
  | @operation i V B op lhs rhs n₁ n₂ V₁ V₂ B₁ B₂ a b _ _ hn h₁ h₂ _ _ ih₁ ih₂ =>
    have rhsFree : ∀ c, OnCycle nodes B c → ¬Needed nodes B rhs c := fun c hc h =>
      ih₁ c (hc.of_flags fun _ => acc') (h.of_flags fun _ => acc')
    have lhsFree : ∀ c, OnCycle nodes B c → ¬Needed nodes B lhs c := fun c hc h => by
      have hB : ∀ m, Needed nodes B m c → B₁[m.toNat]?.getD false = false := fun m hm =>
        h₁.flag_unset_onCycle (fun c hc h => rhsFree c (hc.of_flags fun _ => acc)
          (h.of_flags fun _ => acc)) (hc.of_flags fun _ => acc') (hm.of_flags fun _ => acc')
      exact ih₂ c (hc.restrict hB) (h.restrict hB)
    intro c hcyc hi
    cases hi with
    | refl =>
      rcases hcyc with ⟨op', l, r, hn', hlr⟩ | ⟨_, _, hn', -⟩
      · obtain ⟨rfl, rfl, rfl⟩ : op = op' ∧ lhs = l ∧ rhs = r := by simpa [hn] using hn'
        exact hlr.elim (lhsFree _ (.inl ⟨_, _, _, hn, hlr⟩)) (rhsFree _ (.inl ⟨_, _, _, hn, hlr⟩))
      · simp [hn] at hn'
    | lhs _ hn' hq =>
      obtain ⟨rfl, rfl, rfl⟩ := by simpa [hn] using hn'
      exact lhsFree c hcyc hq
    | rhs _ hn' hq =>
      obtain ⟨rfl, rfl, rfl⟩ := by simpa [hn] using hn'
      exact rhsFree c hcyc hq
    | argument _ hn' => simp [hn] at hn'
  | @function i V B fn argument n₁ V₁ B₁ a _ _ hn h₁ _ ih =>
    have argFree : ∀ c, OnCycle nodes B c → ¬Needed nodes B argument c := fun c hc h =>
      ih c (hc.of_flags fun _ => acc') (h.of_flags fun _ => acc')
    intro c hcyc hi
    cases hi with
    | refl =>
      rcases hcyc with ⟨_, _, _, hn', -⟩ | ⟨fn', a', hn', ha⟩
      · simp [hn] at hn'
      · obtain ⟨rfl, rfl⟩ : fn = fn' ∧ argument = a' := by simpa [hn] using hn'
        exact argFree _ (.inr ⟨_, _, hn, ha⟩) ha
    | lhs _ hn' | rhs _ hn' => simp [hn] at hn'
    | argument _ hn' hq =>
      obtain ⟨rfl, rfl⟩ := by simpa [hn] using hn'
      exact argFree c hcyc hq

end Visit

/-! ## `eval_node` on a cycle -/

/-- The operand indices a node stores. -/
def NodeImpl.operands : NodeImpl → List NodeIndexType
  | .operation _ lhs rhs => [lhs, rhs]
  | .function _ argument => [argument]
  | _ => []

/-- In a store whose operand indices are all below `2^63`, so is every node a root below `2^63`
reaches. -/
theorem Reaches.nonneg {nodes : List NodeImpl} {i j : NodeIndexType} (h : Reaches nodes i j)
    (hi : 0 ≤ i.toInt) (hops : ∀ node ∈ nodes, ∀ o ∈ node.operands, 0 ≤ o.toInt) :
    0 ≤ j.toInt := by
  have hmem : ∀ {k : NodeIndexType} {node : NodeImpl}, nodes[k.toNat]? = some node →
      ∀ o ∈ node.operands, 0 ≤ o.toInt := fun hn => hops _ (List.mem_iff_getElem?.2 ⟨_, hn⟩)
  induction h with
  | refl => exact hi
  | lhs hn _ ih => exact ih (hmem hn _ (by simp [NodeImpl.operands]))
  | rhs hn _ ih => exact ih (hmem hn _ (by simp [NodeImpl.operands]))
  | argument hn _ ih => exact ih (hmem hn _ (by simp [NodeImpl.operands]))

/-- On a store whose operand indices are all below `2^63`, the runs of the loop of `eval_node`
from a root below `2^63` that end are exactly its visits: the loop and the big-step `Visit` are
two readings of one computation. -/
theorem loop_iff_visit {nodes : List NodeImpl} {x : List Float} {i : NodeIndexType}
    {V V' : List Float} {B B' : List Bool} (hi : 0 ≤ i.toInt)
    (hops : ∀ node ∈ nodes, ∀ o ∈ node.operands, 0 ≤ o.toInt) :
    (∃ fuel, evalLoop nodes x fuel ⟨[i], V, B⟩ = some ⟨[], V', B'⟩) ↔
      ∃ n, Visit nodes x i V B n V' B' := by
  constructor
  · rintro ⟨fuel, hl⟩
    obtain ⟨n, V₁, B₁, hv, -, hl⟩ := Visit.of_loop fuel (fun j hj => hj.nonneg hi hops) hl
    rw [evalLoop_nil, Option.some.injEq, EvalState.mk.injEq] at hl
    obtain ⟨-, rfl, rfl⟩ := hl
    exact ⟨n, hv⟩
  · rintro ⟨n, hv⟩
    exact ⟨n, by rw [← Nat.add_zero n, hv.loop [] 0, evalLoop_nil]⟩

theorem loop_iff_visit_diamond :
    0 ≤ (2 : NodeIndexType).toInt ∧
      (∀ node ∈ [NodeImpl.value 2.0, .operation .add 0 0, .operation .multiply 1 1],
        ∀ o ∈ node.operands, 0 ≤ o.toInt) ∧
      ((∃ fuel, evalLoop [.value 2.0, .operation .add 0 0, .operation .multiply 1 1] [] fuel
          ⟨[2], [], []⟩ = some ⟨[], [2.0, applyOperation .add 2.0 2.0,
            applyOperation .multiply (applyOperation .add 2.0 2.0) (applyOperation .add 2.0 2.0)],
            [true, true, true]⟩) ↔
        ∃ n, Visit [.value 2.0, .operation .add 0 0, .operation .multiply 1 1] [] 2 [] [] n
          [2.0, applyOperation .add 2.0 2.0,
            applyOperation .multiply (applyOperation .add 2.0 2.0) (applyOperation .add 2.0 2.0)]
          [true, true, true]) ∧
      ∃ n, Visit [.value 2.0, .operation .add 0 0, .operation .multiply 1 1] [] 2 [] [] n
        [2.0, applyOperation .add 2.0 2.0,
          applyOperation .multiply (applyOperation .add 2.0 2.0) (applyOperation .add 2.0 2.0)]
        [true, true, true] :=
  have hops : ∀ node ∈ [NodeImpl.value 2.0, .operation .add 0 0, .operation .multiply 1 1],
      ∀ o ∈ node.operands, 0 ≤ o.toInt := by
    simp [NodeImpl.operands]
  have h := loop_iff_visit (x := []) (V := []) (B := []) (by decide) hops
  ⟨by decide, hops, h, h.1 ⟨7, rfl⟩⟩

/-- `eval_node` does not look for cycles: on a store whose operand indices are all below `2^63`,
a root below `2^63` that needs, at the flags the call starts from, a node on a cycle of
uncomputed nodes never ends its loop, however many passes it is given, and the call never
returns a value. With `invalidate` that is any root reaching a node that reaches itself. -/
theorem evalNode_cycle (s : InternalsImpl) (r : NodeIndexType) (x : List Float)
    (mode : ReuseCache) (hr0 : 0 ≤ r.toInt)
    (hops : ∀ node ∈ s.nodeVector, ∀ o ∈ node.operands, 0 ≤ o.toInt) {c : NodeIndexType}
    (hc : OnCycle s.nodeVector (startFlags s mode) c)
    (hr : Needed s.nodeVector (startFlags s mode) r c) :
    (∀ fuel, evalLoop s.nodeVector x fuel ⟨[r], s.nodeValue, startFlags s mode⟩ = none) ∧
      evalNode s r x mode = none := by
  have hloop : ∀ fuel,
      evalLoop s.nodeVector x fuel ⟨[r], s.nodeValue, startFlags s mode⟩ = none := fun fuel => by
    rcases hl : evalLoop s.nodeVector x fuel ⟨[r], s.nodeValue, startFlags s mode⟩ with _ | s'
    · rfl
    · obtain ⟨n, V', B', hv, -, -⟩ := Visit.of_loop fuel (fun j hj => hj.nonneg hr0 hops) hl
      exact absurd hr (hv.not_needed_onCycle c hc)
  have he := hloop (evalFuel s)
  simp only [startFlags] at he
  exact ⟨hloop, by simp only [evalNode, he]⟩

theorem evalNode_cycle_self_loop :
    0 ≤ (0 : NodeIndexType).toInt ∧
      (∀ node ∈ [NodeImpl.operation .add 0 0], ∀ o ∈ node.operands, 0 ≤ o.toInt) ∧
      OnCycle [.operation .add 0 0] [] 0 ∧ Needed [.operation .add 0 0] [] 0 0 ∧
      (∀ fuel, evalLoop [.operation .add 0 0] [] fuel ⟨[0], [], []⟩ = none) ∧
      evalNode { InternalsImpl.initial with nodeVector := [.operation .add 0 0] } 0 []
        .invalidate = none :=
  have hops : ∀ node ∈ [NodeImpl.operation .add 0 0], ∀ o ∈ node.operands, 0 ≤ o.toInt := by
    simp [NodeImpl.operands]
  ⟨by decide, hops, .inl ⟨.add, 0, 0, rfl, .inl (.refl rfl)⟩, .refl rfl,
    evalNode_cycle { InternalsImpl.initial with nodeVector := [.operation .add 0 0] } 0 []
      .invalidate (by decide) hops (c := 0) (.inl ⟨.add, 0, 0, rfl, .inl (.refl rfl)⟩)
      (.refl rfl)⟩

end FnCAS
