import FnCAS.Visit

/-! # `eval_node` computes the recursive meaning

* `MemoSound nodes x V B`: every set flag of `node_computed_` is a node of the store whose slot
  of `node_value_` holds its meaning at `x`. `Closed nodes B`: the operands of a computed node
  are computed. A visit keeps both (`Visit.sound`, `Visit.closed`).
* `exists_visit`: on a node well formed for an input of fewer than `2^31` entries, the loop can
  always go on, so a visit exists; `Visit.passes` bounds its passes by `evalFuel`.
* `evalNode_visit`: `evalNode` is one visit of its root. From it, `evalNode_correct`: with
  `invalidate`, `eval_node` returns the meaning of a well-formed root and leaves every node the
  root reaches computed with its meaning; `evalNode_memoSound`: on a sound memo, in either mode,
  it returns the same value and keeps the memo sound.
* `evalNode_int32_size`: inputs of `2^31` and of `2^32 + 5` entries, at which the range check of
  a variable index, made on the size narrowed to `int32_t`, fails although the index is one of
  `x`.
-/

namespace FnCAS

/-- The memo is sound for `x`: a set flag is a node of the store with its meaning stored. -/
def MemoSound (nodes : List NodeImpl) (x : List Float) (V : List Float) (B : List Bool) : Prop :=
  ∀ j : Nat, B[j]?.getD false = true → j < nodes.length ∧ V[j]? = some (denote nodes x j)

/-- The operands of a computed node are computed. -/
def Closed (nodes : List NodeImpl) (B : List Bool) : Prop :=
  ∀ j : Nat, B[j]?.getD false = true →
    (∀ (op : OperationT) (lhs rhs : NodeIndexType), nodes[j]? = some (.operation op lhs rhs) →
      B[lhs.toNat]?.getD false = true ∧ B[rhs.toNat]?.getD false = true) ∧
    (∀ (fn : FunctionT) (argument : NodeIndexType), nodes[j]? = some (.function fn argument) →
      B[argument.toNat]?.getD false = true)

section Memo

variable {nodes : List NodeImpl} {x : List Float} {V : List Float} {B B' : List Bool}

theorem MemoSound.sized (hm : MemoSound nodes x V B) : Sized V B := fun j hj =>
  (List.getElem?_eq_some_iff.1 (hm j hj).2).1

theorem memoSound_nil : MemoSound nodes x V [] := fun j hj => by simp at hj

theorem closed_nil : Closed nodes [] := fun j hj => by simp at hj

theorem MemoSound.grow (hm : MemoSound nodes x V B) (i : Nat) :
    MemoSound nodes x V (growingVectorAccess B i false) := fun j hj => hm j (by simpa using hj)

theorem Closed.grow (hc : Closed nodes B) (i : Nat) :
    Closed nodes (growingVectorAccess B i false) := fun j hj => by
  simp only [getD_growingVectorAccess] at hj ⊢
  exact hc j hj

/-- Storing the meaning of node `i` and setting its flag keeps the memo sound. -/
theorem MemoSound.assign (hm : MemoSound nodes x V B) (hB : ∀ j : Nat, B'[j]?.getD false = B[j]?.getD false)
    {i : Nat} (hi : i < nodes.length) :
    MemoSound nodes x (growingVectorAssign V i 0 (denote nodes x i))
      (growingVectorAssign B' i false true) := by
  intro j hj
  simp only [getD_growingVectorAssign, hB] at hj
  split at hj
  · subst j
    exact ⟨hi, getElem?_growingVectorAssign_self _ _ _ _⟩
  · obtain ⟨hj', hv⟩ := hm j hj
    rw [getElem?_growingVectorAssign_of_ne _ _ _ _ ‹_› (List.getElem?_eq_some_iff.1 hv).1]
    exact ⟨hj', hv⟩

theorem Closed.assign (hc : Closed nodes B) {i : Nat}
    (hops : (∀ (op : OperationT) (lhs rhs : NodeIndexType),
        nodes[i]? = some (.operation op lhs rhs) →
          B[lhs.toNat]?.getD false = true ∧ B[rhs.toNat]?.getD false = true) ∧
      (∀ (fn : FunctionT) (argument : NodeIndexType), nodes[i]? = some (.function fn argument) →
        B[argument.toNat]?.getD false = true)) :
    Closed nodes (growingVectorAssign B i false true) := by
  have up : ∀ {j : Nat}, B[j]?.getD false = true →
      (growingVectorAssign B i false true)[j]?.getD false = true := fun h => by
    simp only [getD_growingVectorAssign]; split <;> simp [h]
  intro j hj
  simp only [getD_growingVectorAssign] at hj
  split at hj
  · subst j
    exact ⟨fun op l r hn => (hops.1 op l r hn).imp up up, fun fn a hn => up (hops.2 fn a hn)⟩
  · exact ⟨fun op l r hn => ((hc j hj).1 op l r hn).imp up up, fun fn a hn => up ((hc j hj).2 fn a hn)⟩

theorem Closed.reaches (hc : Closed nodes B) {i j : NodeIndexType} (h : Reaches nodes i j)
    (hi : B[i.toNat]?.getD false = true) : B[j.toNat]?.getD false = true := by
  induction h with
  | refl => exact hi
  | lhs hn _ ih => exact ih ((hc _ hi).1 _ _ _ hn).1
  | rhs hn _ ih => exact ih ((hc _ hi).1 _ _ _ hn).2
  | argument hn _ ih => exact ih ((hc _ hi).2 _ _ hn)

end Memo

namespace Visit

variable {nodes : List NodeImpl} {x : List Float} {i : NodeIndexType} {V V' : List Float}
  {B B' : List Bool} {n : Nat}

/-- A visit of an acyclic node stores meanings only. -/
theorem sound (h : Visit nodes x i V B n V' B') (hw : Acyclic nodes i)
    (hm : MemoSound nodes x V B) : MemoSound nodes x V' B' := by
  induction h with
  | computed => exact hm.grow _
  | @«variable» i V B k xv _ _ hn _ hx =>
    have hv : x.getD k.toNat 0 = xv := by rw [List.getD_eq_getElem?_getD, hx, Option.getD_some]
    have := hm.assign (fun j => getD_growingVectorAccess B i.toNat false j)
      (List.getElem?_eq_some_iff.1 hn).1
    rwa [denote_variable hn, hv] at this
  | @value i V B c _ _ hn =>
    have := hm.assign (fun j => getD_growingVectorAccess B i.toNat false j)
      (List.getElem?_eq_some_iff.1 hn).1
    rwa [denote_value hn] at this
  | @operation i V B op lhs rhs n₁ n₂ V₁ V₂ B₁ B₂ a b _ _ hn h₁ h₂ ha hb ih₁ ih₂ =>
    obtain ⟨hl, hr, hwl, hwr⟩ := hw.of_operation hn
    have hm₂ := ih₂ hwl (ih₁ hwr (hm.grow _))
    have ha' := (hm₂ _ h₂.flag_self).2
    have hb' := (hm₂ _ (h₂.flag_mono h₁.flag_self)).2
    rw [ha, Option.some_inj] at ha'
    rw [hb, Option.some_inj] at hb'
    have := hm₂.assign (fun _ => rfl) (List.getElem?_eq_some_iff.1 hn).1
    rwa [denote_operation hn hl hr, ← ha', ← hb'] at this
  | @function i V B fn argument n₁ V₁ B₁ a _ _ hn h₁ ha ih =>
    obtain ⟨harg, hwa⟩ := hw.of_function hn
    have hm₁ := ih hwa (hm.grow _)
    have ha' := (hm₁ _ h₁.flag_self).2
    rw [ha, Option.some_inj] at ha'
    have := hm₁.assign (fun _ => rfl) (List.getElem?_eq_some_iff.1 hn).1
    rwa [denote_function hn harg, ← ha'] at this

theorem closed (h : Visit nodes x i V B n V' B') (hc : Closed nodes B) : Closed nodes B' := by
  induction h with
  | computed => exact hc.grow _
  | «variable» _ _ hn | value _ _ hn =>
    exact (hc.grow _).assign ⟨fun _ _ _ h => by simp [hn] at h, fun _ _ h => by simp [hn] at h⟩
  | @operation i V B op lhs rhs n₁ n₂ V₁ V₂ B₁ B₂ a b _ _ hn h₁ h₂ _ _ ih₁ ih₂ =>
    refine (ih₂ (ih₁ (hc.grow _))).assign ⟨fun op' l r h => ?_, fun _ _ h => by simp [hn] at h⟩
    obtain ⟨rfl, rfl, rfl⟩ : op = op' ∧ lhs = l ∧ rhs = r := by simpa [hn] using h
    exact ⟨h₂.flag_self, h₂.flag_mono h₁.flag_self⟩
  | @function i V B fn argument n₁ V₁ B₁ a _ _ hn h₁ _ ih =>
    refine (ih (hc.grow _)).assign ⟨fun _ _ _ h => by simp [hn] at h, fun fn' a' h => ?_⟩
    obtain ⟨rfl, rfl⟩ : fn = fn' ∧ argument = a' := by simpa [hn] using h
    exact h₁.flag_self

end Visit

/-! ## A visit exists, within `evalFuel` passes -/

theorem Sized.exists_getElem? {V : List Float} {B : List Bool} (hs : Sized V B) {j : Nat}
    (hj : B[j]?.getD false = true) : ∃ a, V[j]? = some a :=
  ⟨_, List.getElem?_eq_getElem (hs j hj)⟩

/-- On a node well formed for an input of fewer than `2^31` entries, the loop always goes on. -/
theorem exists_visit {nodes : List NodeImpl} {x : List Float} {i : NodeIndexType}
    (hw : WellFormed nodes x i) (hx : x.length < 2 ^ 31) {V : List Float} {B : List Bool}
    (hs : Sized V B) : ∃ n V' B', Visit nodes x i V B n V' B' := by
  induction hw generalizing V B with
  | @«variable» i k h0 hn hk =>
    by_cases hc : B[i.toNat]?.getD false = true
    · exact ⟨_, _, _, .computed h0 hc⟩
    · exact ⟨_, _, _, .variable h0 (by simpa using hc) hn
        (by rw [variable_check hx]; exact decide_eq_true hk) (getElem?_of_variableInRange hk)⟩
  | @value i c h0 hn =>
    by_cases hc : B[i.toNat]?.getD false = true
    · exact ⟨_, _, _, .computed h0 hc⟩
    · exact ⟨_, _, _, .value h0 (by simpa using hc) hn⟩
  | @operation i op lhs rhs h0 hn _ _ _ _ ihl ihr =>
    by_cases hc : B[i.toNat]?.getD false = true
    · exact ⟨_, _, _, .computed h0 hc⟩
    · obtain ⟨n₁, V₁, B₁, h₁⟩ := ihr (hs.grow i.toNat)
      have hs₁ := h₁.sized (hs.grow _)
      obtain ⟨n₂, V₂, B₂, h₂⟩ := ihl hs₁
      have hs₂ := h₂.sized hs₁
      obtain ⟨a, ha⟩ := hs₂.exists_getElem? h₂.flag_self
      obtain ⟨b, hb⟩ := hs₂.exists_getElem? (h₂.flag_mono h₁.flag_self)
      exact ⟨_, _, _, .operation h0 (by simpa using hc) hn h₁ h₂ ha hb⟩
  | @function i fn argument h0 hn _ _ ih =>
    by_cases hc : B[i.toNat]?.getD false = true
    · exact ⟨_, _, _, .computed h0 hc⟩
    · obtain ⟨n₁, V₁, B₁, h₁⟩ := ih (hs.grow i.toNat)
      obtain ⟨a, ha⟩ := (h₁.sized (hs.grow _)).exists_getElem? h₁.flag_self
      exact ⟨_, _, _, .function h0 (by simpa using hc) hn h₁ ha⟩

/-- `evalNode` is one visit of its root, which fits in `evalFuel` passes. -/
theorem evalNode_visit (s : InternalsImpl) (x : List Float) (r : NodeIndexType)
    (mode : ReuseCache) (hx : x.length < 2 ^ 31) (hr : WellFormed s.nodeVector x r)
    (hs : Sized s.nodeValue (if mode = .invalidate then [] else s.nodeComputed)) :
    ∃ n V B, Visit s.nodeVector x r s.nodeValue
        (if mode = .invalidate then [] else s.nodeComputed) n V B ∧
      evalNode s r x mode =
        V[r.toNat]?.map fun v => (v, { s with nodeValue := V, nodeComputed := B }) := by
  obtain ⟨n, V, B, h⟩ := exists_visit hr hx hs
  have hn : n ≤ evalFuel s := by
    have := h.passes hr.acyclic (le_refl _)
    have := unsetCount_le (if mode = .invalidate then [] else s.nodeComputed) s.nodeVector.length
    unfold evalFuel
    omega
  refine ⟨n, V, B, h, ?_⟩
  have hloop := h.loop [] (evalFuel s - n)
  rw [Nat.add_sub_cancel' hn, evalLoop_nil] at hloop
  simp only [evalNode, hloop, h.flag_self, ite_true]

/-- On a root well formed for an input of fewer than `2^31` entries, the loop of `eval_node`
ends within three passes per uncomputed node of the store, plus one. -/
theorem evalLoop_within_passes {nodes : List NodeImpl} {x : List Float} {r : NodeIndexType}
    {V : List Float} {B : List Bool} (hx : x.length < 2 ^ 31) (hr : WellFormed nodes x r)
    (hs : Sized V B) :
    ∃ V' B', evalLoop nodes x (3 * unsetCount B nodes.length + 1) ⟨[r], V, B⟩ =
      some ⟨[], V', B'⟩ := by
  obtain ⟨n, V', B', h⟩ := exists_visit hr hx hs
  have hn := h.passes hr.acyclic (le_refl _)
  refine ⟨V', B', ?_⟩
  have := h.loop [] (3 * unsetCount B nodes.length + 1 - n)
  rwa [Nat.add_sub_cancel' (by omega), evalLoop_nil] at this

theorem evalLoop_within_passes_diamond :
    ([] : List Float).length < 2 ^ 31 ∧
      WellFormed [.value 2.0, .operation .add 0 0, .operation .multiply 1 1] [] 2 ∧ Sized [] [] ∧
      ∃ V' B', evalLoop [.value 2.0, .operation .add 0 0, .operation .multiply 1 1] []
        (3 * unsetCount [] [NodeImpl.value 2.0, .operation .add 0 0, .operation .multiply 1 1].length
          + 1) ⟨[2], [], []⟩ = some ⟨[], V', B'⟩ :=
  have hs : Sized [] [] := fun j hj => by simp at hj
  ⟨by decide, wellFormedUnder_diamond _, hs,
    evalLoop_within_passes (by decide) (wellFormedUnder_diamond _) hs⟩

/-! ## `eval_node` is correct -/

/-- With `invalidate`, `eval_node` on a root well formed for an input of fewer than `2^31`
entries returns the root's meaning, changes nothing but `node_value_` and `node_computed_`, and
leaves every node the root reaches computed with its meaning. -/
theorem evalNode_correct (s : InternalsImpl) (x : List Float) (r : NodeIndexType)
    (hx : x.length < 2 ^ 31) (hr : WellFormed s.nodeVector x r) :
    ∃ V B, evalNode s r x .invalidate =
        some (denote s.nodeVector x r.toNat, { s with nodeValue := V, nodeComputed := B }) ∧
      ∀ j, Reaches s.nodeVector r j →
        B[j.toNat]?.getD false = true ∧ V[j.toNat]? = some (denote s.nodeVector x j.toNat) := by
  obtain ⟨n, V, B, h, he⟩ := evalNode_visit s x r .invalidate hx hr (by simp [Sized])
  simp only [ite_true] at h
  have hm := h.sound hr.acyclic memoSound_nil
  have hc := h.closed closed_nil
  refine ⟨V, B, by rw [he, (hm _ h.flag_self).2, Option.map_some'], fun j hj => ?_⟩
  have hB := hc.reaches hj h.flag_self
  exact ⟨hB, (hm _ hB).2⟩

theorem evalNode_correct_sum :
    [(3.0 : Float)].length < 2 ^ 31 ∧
      WellFormed [.value 2.0, .variable 0, .operation .add 0 1] [3.0] 2 ∧
      ∃ V B, evalNode { InternalsImpl.initial with
          nodeVector := [.value 2.0, .variable 0, .operation .add 0 1] } 2 [3.0] .invalidate =
          some (denote [.value 2.0, .variable 0, .operation .add 0 1] [3.0] (2 : NodeIndexType).toNat,
            { InternalsImpl.initial with
              nodeVector := [.value 2.0, .variable 0, .operation .add 0 1],
              nodeValue := V, nodeComputed := B }) ∧
        ∀ j, Reaches [.value 2.0, .variable 0, .operation .add 0 1] 2 j →
          B[j.toNat]?.getD false = true ∧
            V[j.toNat]? = some (denote [.value 2.0, .variable 0, .operation .add 0 1] [3.0] j.toNat) :=
  have hw : WellFormed [.value 2.0, .variable 0, .operation .add 0 1] [3.0] 2 :=
    .operation (by decide) rfl (by decide) (by decide) (.value (by decide) rfl)
      (.variable (by decide) rfl ⟨by decide, by decide⟩)
  ⟨by decide, hw, evalNode_correct _ [3.0] 2 (by decide) hw⟩

/-- The range check `0 <= v && v < static_cast<int32_t>(x.size())` narrows the size of the input
to `int32_t`: at an input whose narrowed size is not above `v`, a store holding only variable `v`
makes `eval_node` stop at its assertion. -/
theorem evalNode_variable_of_length (x : List Float) (k : BitVec 32)
    (hk : k.slt (BitVec.ofNat 32 x.length) = false) :
    evalNode { InternalsImpl.initial with nodeVector := [.variable k] } 0 x .invalidate = none := by
  have h0 : (0 : NodeIndexType).toNat = 0 := rfl
  have hstep : evalStep [.variable k] x 0 ⟨[], [], []⟩ = none := by
    simp only [evalStep, slt_of_nonneg (i := 0) (by decide), getD_growingVectorAccess, ite_true,
      h0, List.getElem?_nil, Option.getD_none, Bool.false_eq_true, ite_false,
      List.getElem?_cons_zero, hk, Bool.and_false]
  simp only [evalNode, evalFuel, InternalsImpl.initial, ite_true, List.length_singleton]
  rw [evalLoop_cons, hstep, Option.none_bind]

/-- Two inputs at which a well-formed variable fails the range check: at `2^31` entries the
narrowed size is `-2^31`, below every index; at `2^32 + 5` entries it is `5`, so variable `5`,
an index of the input, is rejected. -/
theorem evalNode_int32_size :
    (WellFormed [.variable 0] (List.replicate (2 ^ 31) 0) 0 ∧
      evalNode { InternalsImpl.initial with nodeVector := [.variable 0] } 0
        (List.replicate (2 ^ 31) 0) .invalidate = none) ∧
    (WellFormed [.variable 5] (List.replicate (2 ^ 32 + 5) 0) 0 ∧
      evalNode { InternalsImpl.initial with nodeVector := [.variable 5] } 0
        (List.replicate (2 ^ 32 + 5) 0) .invalidate = none) :=
  ⟨⟨.variable (by decide) rfl ⟨by decide, by rw [List.length_replicate]; decide⟩,
      evalNode_variable_of_length _ 0 (by rw [List.length_replicate]; decide)⟩,
    ⟨.variable (by decide) rfl ⟨by decide, by rw [List.length_replicate]; decide⟩,
      evalNode_variable_of_length _ 5 (by rw [List.length_replicate]; decide)⟩⟩

/-- On a memo sound for `x` (with `invalidate`, the empty one the call starts from), `eval_node`
returns the root's meaning and leaves the memo sound. -/
theorem evalNode_memoSound (s : InternalsImpl) (x : List Float) (r : NodeIndexType)
    (mode : ReuseCache) (hx : x.length < 2 ^ 31) (hr : WellFormed s.nodeVector x r)
    (hm : MemoSound s.nodeVector x s.nodeValue
      (if mode = .invalidate then [] else s.nodeComputed)) :
    ∃ V B, evalNode s r x mode =
        some (denote s.nodeVector x r.toNat, { s with nodeValue := V, nodeComputed := B }) ∧
      MemoSound s.nodeVector x V B := by
  obtain ⟨n, V, B, h, he⟩ := evalNode_visit s x r mode hx hr hm.sized
  have hm' := h.sound hr.acyclic hm
  exact ⟨V, B, by rw [he, (hm' _ h.flag_self).2, Option.map_some'], hm'⟩

end FnCAS
