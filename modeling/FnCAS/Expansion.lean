import FnCAS.Eval

/-! # Each node is expanded once (`fncas/node.h`, lines 166-214)

A pass of `eval_node` expands node `i` when it pops a first visit of `i`, finds it not computed,
and pushes the post-marker `~i` with the operands of the operation or function `i` (`expands`).

* `Reach nodes x E s`: the loop states of a run of `eval_node` calls on one store at one input,
  the first from any memo (with `invalidate`, the empty one) and each later one with `reuse`
  once the previous one has ended, with `E` the nodes expanded so far.
* `ExpansionInv`: what every such state satisfies. Below the post-marker of node `j` sit only
  entries of nodes below `j` (`StackAbove`), so a node with a pending marker is never met again
  as a first visit; every expanded node is computed or has its marker pending, so an uncomputed
  first visit was never expanded.

Main result: `expanded_at_most_once`.
-/

namespace FnCAS

/-- The nodes the pass on entry `i` expands at the flags `B`: `i`, when it is a first visit of an
uncomputed operation or function node. -/
def expands (nodes : List NodeImpl) (i : NodeIndexType) (B : List Bool) : List NodeIndexType :=
  if (~~~i).slt i = true ∧ B[i.toNat]?.getD false = false then
    match nodes[i.toNat]? with
    | some (.operation ..) => [i]
    | some (.function ..) => [i]
    | _ => []
  else []

/-- The loop states of a run of `eval_node` calls on `nodes` at `x`, and the nodes expanded so
far: a call starts from any flags, a later call starts with `reuse` where the previous one
ended, and a pass is one `evalStep`. -/
inductive Reach (nodes : List NodeImpl) (x : List Float) : List NodeIndexType → EvalState → Prop
  | call {r : NodeIndexType} {V : List Float} {B : List Bool} :
      Acyclic nodes r → Reach nodes x [] ⟨[r], V, B⟩
  | reuse {E : List NodeIndexType} {r : NodeIndexType} {V : List Float} {B : List Bool} :
      Reach nodes x E ⟨[], V, B⟩ → Acyclic nodes r → Reach nodes x E ⟨[r], V, B⟩
  | step {E : List NodeIndexType} {i : NodeIndexType} {stack : List NodeIndexType}
      {V : List Float} {B : List Bool} {s' : EvalState} :
      Reach nodes x E ⟨i :: stack, V, B⟩ → evalStep nodes x i ⟨stack, V, B⟩ = some s' →
      Reach nodes x (E ++ expands nodes i B) s'

/-- The node of a stack entry: `e` for a first visit, `~e` for a post-marker. -/
def entryNode (e : NodeIndexType) : Nat := if (~~~e).slt e then e.toNat else (~~~e).toNat

/-- Entry `a` may sit above entry `b`: above the post-marker of node `j` sit only entries of nodes
below `j`. -/
def StackAbove (a b : NodeIndexType) : Prop := (~~~b).slt b = false → entryNode a < (~~~b).toNat

/-- The invariant of the loop states of `Reach`. -/
structure ExpansionInv (nodes : List NodeImpl) (E : List NodeIndexType) (s : EvalState) :
    Prop where
  nodup : E.Nodup
  expanded_visit : ∀ j ∈ E, (~~~j).slt j = true
  pending : ∀ j ∈ E, s.B[j.toNat]?.getD false = true ∨ ~~~j ∈ s.stack
  markers : ∀ e ∈ s.stack, (~~~e).slt e = false →
    ~~~e ∈ E ∧ s.B[(~~~e).toNat]?.getD false = false
  ordered : s.stack.Pairwise StackAbove
  visits : ∀ e ∈ s.stack, (~~~e).slt e = true → Acyclic nodes e

/-! ## Visits and markers -/

section Entries

variable {i j : NodeIndexType}

/-- The post-marker of a first visit is not a first visit. -/
theorem marker_of_visit (h : (~~~i).slt i = true) : i.slt (~~~i) = false := by
  have := not_slt_self (~~~i)
  rw [BitVec.not_not] at this
  rw [not_slt_self, decide_eq_true_eq] at h
  rw [this, BitVec.toNat_not, decide_eq_false_iff_not]
  omega

theorem entryNode_visit (h : (~~~i).slt i = true) : entryNode i = i.toNat := by
  simp [entryNode, h]

theorem entryNode_marker (h : (~~~i).slt i = true) : entryNode (~~~i) = i.toNat := by
  simp [entryNode, BitVec.not_not, marker_of_visit h]

theorem marker_ne_visit (hi : (~~~i).slt i = true) (hj : (~~~j).slt j = true) : ~~~j ≠ i := by
  rintro rfl
  rw [BitVec.not_not, marker_of_visit hj] at hi
  cases hi

end Entries

/-! ## The invariant, pass by pass -/

namespace ExpansionInv

variable {nodes : List NodeImpl} {E : List NodeIndexType} {i : NodeIndexType}
  {stack : List NodeIndexType} {V V' : List Float} {B B' : List Bool}

/-- An uncomputed first visit on top of the stack has no pending marker and was never
expanded. -/
theorem not_expanded (hinv : ExpansionInv nodes E ⟨i :: stack, V, B⟩)
    (hv : (~~~i).slt i = true) (hc : B[i.toNat]?.getD false = false) :
    ~~~i ∉ stack ∧ i ∉ E := by
  have hmarker : ~~~i ∉ stack := fun hm => by
    have := (List.pairwise_cons.1 hinv.ordered).1 _ hm
      (by rw [BitVec.not_not]; exact marker_of_visit hv)
    rw [entryNode_visit hv, BitVec.not_not] at this
    exact Nat.lt_irrefl _ this
  refine ⟨hmarker, fun hi => ?_⟩
  rcases hinv.pending i hi with hB | hm
  · exact Bool.false_ne_true (hc ▸ hB)
  · rcases List.mem_cons.1 hm with h | h
    · exact marker_ne_visit hv hv h
    · exact hmarker h

/-- A pass that pops its entry and pushes nothing keeps the invariant, when it only sets flags,
leaves those of the pending markers alone, and sets that of the node whose marker it popped. -/
theorem pop (hinv : ExpansionInv nodes E ⟨i :: stack, V, B⟩)
    (hB : ∀ n : Nat, B[n]?.getD false = true → B'[n]?.getD false = true)
    (hmark : ∀ e ∈ stack, (~~~e).slt e = false →
      B'[(~~~e).toNat]?.getD false = B[(~~~e).toNat]?.getD false)
    (hself : ∀ j ∈ E, ~~~j = i → B'[j.toNat]?.getD false = true) :
    ExpansionInv nodes E ⟨stack, V', B'⟩ where
  nodup := hinv.nodup
  expanded_visit := hinv.expanded_visit
  pending j hj := by
    rcases hinv.pending j hj with h | h
    · exact .inl (hB _ h)
    · rcases List.mem_cons.1 h with h | h
      · exact .inl (hself j hj h)
      · exact .inr h
  markers e he hm := by
    obtain ⟨h₁, h₂⟩ := hinv.markers e (List.mem_cons_of_mem _ he) hm
    exact ⟨h₁, (hmark e he hm).trans h₂⟩
  ordered := (List.pairwise_cons.1 hinv.ordered).2
  visits e he := hinv.visits e (List.mem_cons_of_mem _ he)

/-- A pass that pops its entry, of node `k`, and sets the flag of `k` keeps the invariant. -/
theorem pop_assign (hinv : ExpansionInv nodes E ⟨i :: stack, V, B⟩) {B₀ : List Bool}
    (hB₀ : ∀ n : Nat, B₀[n]?.getD false = B[n]?.getD false) {k : Nat} (hk : entryNode i = k)
    (hself : ∀ j ∈ E, ~~~j = i → (growingVectorAssign B₀ k false true)[j.toNat]?.getD false = true) :
    ExpansionInv nodes E ⟨stack, V', growingVectorAssign B₀ k false true⟩ := by
  refine hinv.pop (fun n h => ?_) (fun e he hm => ?_) hself
  · simp only [getD_growingVectorAssign, hB₀]
    split <;> simp [h]
  · have := (List.pairwise_cons.1 hinv.ordered).1 e he hm
    simp only [getD_growingVectorAssign, hB₀]
    rw [if_neg (by omega)]

/-- A pass that expands the uncomputed first visit `i`, pushing `~i` under the operands `ops`,
keeps the invariant with `i` added to the expanded nodes. -/
theorem expand (hinv : ExpansionInv nodes E ⟨i :: stack, V, B⟩) (hv : (~~~i).slt i = true)
    (hc : B[i.toNat]?.getD false = false)
    (hB : ∀ n : Nat, B'[n]?.getD false = B[n]?.getD false) (ops : List NodeIndexType)
    (hops : ∀ o ∈ ops, (~~~o).slt o = true ∧ o.toNat < i.toNat ∧ Acyclic nodes o)
    (hpairs : ops.Pairwise StackAbove) :
    ExpansionInv nodes (E ++ [i]) ⟨ops ++ ~~~i :: stack, V', B'⟩ := by
  obtain ⟨hmarker, hnew⟩ := hinv.not_expanded hv hc
  obtain ⟨habove, hrest⟩ := List.pairwise_cons.1 hinv.ordered
  have hbelow : ∀ b ∈ stack, (~~~b).slt b = false → i.toNat < (~~~b).toNat := fun b hb hm => by
    have := habove b hb hm
    rwa [entryNode_visit hv] at this
  refine ⟨List.nodup_append.2 ⟨hinv.nodup, List.nodup_singleton i, by simpa using hnew⟩,
    ?_, ?_, ?_, ?_, ?_⟩
  · simp only [List.mem_append, List.mem_singleton]
    rintro j (hj | rfl)
    · exact hinv.expanded_visit j hj
    · exact hv
  · simp only [List.mem_append, List.mem_cons, List.not_mem_nil, or_false, hB]
    rintro j (hj | rfl)
    · rcases hinv.pending j hj with h | h
      · exact .inl h
      · rcases List.mem_cons.1 h with h | h
        · exact absurd h (marker_ne_visit hv (hinv.expanded_visit j hj))
        · exact .inr (.inr (.inr h))
    · exact .inr (.inr (.inl rfl))
  · simp only [List.mem_append, List.mem_cons, List.mem_singleton]
    rintro e (he | rfl | he) hm
    · rw [(hops e he).1] at hm
      cases hm
    · rw [BitVec.not_not, hB]
      exact ⟨.inr (.inl rfl), hc⟩
    · obtain ⟨h₁, h₂⟩ := hinv.markers e (List.mem_cons_of_mem _ he) hm
      exact ⟨.inl h₁, by rw [hB]; exact h₂⟩
  · refine List.pairwise_append.2 ⟨hpairs, List.pairwise_cons.2 ⟨fun b hb hm => ?_, hrest⟩,
      fun o ho b hb hm => ?_⟩
    · rw [entryNode_marker hv]
      exact hbelow b hb hm
    · rw [entryNode_visit (hops o ho).1]
      rcases List.mem_cons.1 hb with rfl | hb
      · rw [BitVec.not_not]
        exact (hops o ho).2.1
      · exact (hops o ho).2.1.trans (hbelow b hb hm)
  · simp only [List.mem_append, List.mem_cons]
    rintro e (he | rfl | he) hve
    · exact (hops e he).2.2
    · rw [BitVec.not_not, marker_of_visit hv] at hve
      cases hve
    · exact hinv.visits e (List.mem_cons_of_mem _ he) hve

theorem step (hinv : ExpansionInv nodes E ⟨i :: stack, V, B⟩) {x : List Float} {s' : EvalState}
    (h : evalStep nodes x i ⟨stack, V, B⟩ = some s') :
    ExpansionInv nodes (E ++ expands nodes i B) s' := by
  have hnot : ∀ j ∈ E, (~~~i).slt i = true → ~~~j ≠ i := fun j hj hv =>
    marker_ne_visit hv (hinv.expanded_visit j hj)
  have hvisit : ∀ o : NodeIndexType, Acyclic nodes o → (~~~o).slt o = true := fun o ho =>
    slt_of_nonneg ho.nonneg
  obtain ⟨stack', V', B'⟩ := s'
  rcases evalStep_cases h with ⟨hv, hc, hs, hB⟩ | ⟨hv, hc, hleaf, hs, hB⟩ |
      ⟨hv, hc, op, lhs, rhs, hn, hs, hB⟩ | ⟨hv, hc, fn, a, hn, hs, hB⟩ | ⟨hv, hs, hB⟩ <;>
    dsimp only at hs hB <;> subst hs hB
  · rw [show expands nodes i B = [] by simp [expands, hc], List.append_nil]
    exact hinv.pop (fun n h => by simpa using h) (fun e _ _ => by simp)
      (fun j hj h => absurd h (hnot j hj hv))
  · rw [show expands nodes i B = [] by rcases hleaf with ⟨k, hn⟩ | ⟨c, hn⟩ <;> simp [expands, hn],
      List.append_nil]
    exact hinv.pop_assign (fun n => getD_growingVectorAccess _ _ _ _) (entryNode_visit hv)
      fun j hj h => absurd h (hnot j hj hv)
  · rw [show expands nodes i B = [i] by simp [expands, hv, hc, hn]]
    obtain ⟨hl, hr, hwl, hwr⟩ := (hinv.visits i (List.mem_cons_self _ _) hv).of_operation hn
    refine hinv.expand hv hc (fun n => by simp) [rhs, lhs] ?_ ?_
    · simp only [List.mem_cons, List.mem_singleton, List.not_mem_nil, or_false]
      rintro o (rfl | rfl)
      · exact ⟨hvisit _ hwr, hr, hwr⟩
      · exact ⟨hvisit _ hwl, hl, hwl⟩
    · refine List.pairwise_pair.2 fun hm => ?_
      rw [hvisit _ hwl] at hm
      cases hm
  · rw [show expands nodes i B = [i] by simp [expands, hv, hc, hn]]
    obtain ⟨ha, hwa⟩ := (hinv.visits i (List.mem_cons_self _ _) hv).of_function hn
    refine hinv.expand hv hc (fun n => by simp) [a] ?_ (List.pairwise_singleton _ _)
    simp only [List.mem_singleton]
    rintro o rfl
    exact ⟨hvisit _ hwa, ha, hwa⟩
  · rw [show expands nodes i B = [] by simp [expands, hv], List.append_nil]
    refine hinv.pop_assign (fun _ => rfl) (by simp [entryNode, hv]) fun j _ h => ?_
    subst h
    simp [getD_growingVectorAssign]

theorem call {r : NodeIndexType} (hr : Acyclic nodes r) : ExpansionInv nodes [] ⟨[r], V, B⟩ where
  nodup := List.nodup_nil
  expanded_visit _ h := absurd h (List.not_mem_nil _)
  pending _ h := absurd h (List.not_mem_nil _)
  markers e he hm := by
    rw [List.mem_singleton.1 he, slt_of_nonneg hr.nonneg] at hm
    cases hm
  ordered := List.pairwise_singleton _ _
  visits e he _ := List.mem_singleton.1 he ▸ hr

theorem reuse {r : NodeIndexType} (hinv : ExpansionInv nodes E ⟨[], V, B⟩)
    (hr : Acyclic nodes r) : ExpansionInv nodes E ⟨[r], V, B⟩ where
  nodup := hinv.nodup
  expanded_visit := hinv.expanded_visit
  pending j hj := by
    rcases hinv.pending j hj with h | h
    · exact .inl h
    · exact absurd h (List.not_mem_nil _)
  markers e he hm := by
    rw [List.mem_singleton.1 he, slt_of_nonneg hr.nonneg] at hm
    cases hm
  ordered := List.pairwise_singleton _ _
  visits e he _ := List.mem_singleton.1 he ▸ hr

end ExpansionInv

theorem Reach.inv {nodes : List NodeImpl} {x : List Float} {E : List NodeIndexType}
    {s : EvalState} (h : Reach nodes x E s) : ExpansionInv nodes E s := by
  induction h with
  | call hr => exact .call hr
  | reuse _ hr ih => exact ih.reuse hr
  | step _ hs ih => exact ih.step hs

/-- The passes of a call are steps of `Reach`: the loop ends in a reached state, with an empty
stack. -/
theorem Reach.loop {nodes : List NodeImpl} {x : List Float} {E : List NodeIndexType}
    {s s' : EvalState} (h : Reach nodes x E s) {fuel : Nat}
    (hl : evalLoop nodes x fuel s = some s') : ∃ E', Reach nodes x E' s' ∧ s'.stack = [] := by
  obtain ⟨⟨E', h'⟩, hs'⟩ := evalLoop_induction (fun t => ∃ E, Reach nodes x E t)
    (fun _ _ _ _ _ h₁ ⟨_, hE⟩ => ⟨_, hE.step h₁⟩) hl ⟨E, h⟩
  exact ⟨E', h', hs'⟩

theorem evalStep_flags {nodes : List NodeImpl} {x : List Float} {i : NodeIndexType}
    {stack : List NodeIndexType} {V : List Float} {B : List Bool} {s' : EvalState}
    (h : evalStep nodes x i ⟨stack, V, B⟩ = some s') (n : Nat)
    (hn : B[n]?.getD false = true) : s'.B[n]?.getD false = true := by
  rcases evalStep_cases h with ⟨-, -, -, hB⟩ | ⟨-, -, -, -, hB⟩ | ⟨-, -, -, -, -, -, -, hB⟩ |
      ⟨-, -, -, -, -, -, hB⟩ | ⟨-, -, hB⟩ <;> rw [hB] <;>
    simp only [getD_growingVectorAssign, getD_growingVectorAccess, hn, ite_self]

/-- `eval_node` with `reuse` never clears a flag of `node_computed_`. -/
theorem evalNode_reuse_flags {s s' : InternalsImpl} {r : NodeIndexType} {x : List Float}
    {v : Float} (h : evalNode s r x .reuse = some (v, s')) (n : Nat)
    (hn : s.nodeComputed[n]?.getD false = true) : s'.nodeComputed[n]?.getD false = true := by
  simp only [evalNode, reduceCtorEq, ite_false] at h
  split at h
  · rename_i V B hl
    split at h
    · obtain ⟨_, -, he⟩ := Option.map_eq_some'.1 h
      cases he
      exact (evalLoop_induction (fun t => t.B[n]?.getD false = true)
        (fun _ _ _ _ _ h₁ hB => evalStep_flags h₁ n hB) hl hn).1
    · cases h
  · cases h

theorem evalNode_reuse_flags_stale :
    ∃ v s', evalNode { InternalsImpl.initial with
        nodeVector := [.value 2.0, .operation .add 0 0, .operation .multiply 1 1],
        nodeValue := [5.0], nodeComputed := [true] } 2 [] .reuse = some (v, s') ∧
      ([true] : List Bool)[0]?.getD false = true ∧ s'.nodeComputed[0]?.getD false = true :=
  have he : evalNode { InternalsImpl.initial with
      nodeVector := [.value 2.0, .operation .add 0 0, .operation .multiply 1 1],
      nodeValue := [5.0], nodeComputed := [true] } 2 [] .reuse =
      some (applyOperation .multiply (applyOperation .add 5.0 5.0) (applyOperation .add 5.0 5.0),
        { InternalsImpl.initial with
          nodeVector := [.value 2.0, .operation .add 0 0, .operation .multiply 1 1],
          nodeValue := [5.0, applyOperation .add 5.0 5.0,
            applyOperation .multiply (applyOperation .add 5.0 5.0) (applyOperation .add 5.0 5.0)],
          nodeComputed := [true, true, true] }) := rfl
  ⟨_, _, he, rfl, evalNode_reuse_flags he 0 rfl⟩

end FnCAS
