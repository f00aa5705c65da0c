import FnCAS.EvalCorrect

/-! # What `eval_node` recomputes, and what it leaves alone

With `reuse`, `eval_node` starts from the flags `node_computed_` holds and descends only into the
nodes not computed there; with `invalidate` it starts from no flags.

* `Needed nodes B i j`: node `j` is `i`, or an operand of an operand ... of `i`, reached through
  nodes none of which is computed at the flags `B`. At no flags it is `Reaches`
  (`needed_nil_iff`).
* `NewClosed nodes B B'`: every flag set between `B` and `B'` is on a node whose operands are
  computed in `B'`. A visit is new-closed (`Visit.newClosed`): it computes a node only after
  its operands.
* A visit of `i` sets exactly the flags of the nodes `i` needs at the flags it starts from
  (`Visit.flag_needed`, `Visit.needed_flag`), and writes `node_value_` at no other index
  (`Visit.value_frame`).

Main results: `evalNode_recomputes_needed`, the same for `eval_node` in either mode; and
`evalNode_invalidate_flags`, with `invalidate`: the flags set are those of the nodes the root
reaches.
-/

namespace FnCAS

/-- Node `j` is needed to compute node `i` at the flags `B`: it is `i`, or it is needed by an
operand of `i`, and `i` is not computed. -/
inductive Needed (nodes : List NodeImpl) (B : List Bool) : NodeIndexType → NodeIndexType → Prop
  | refl {i : NodeIndexType} : B[i.toNat]?.getD false = false → Needed nodes B i i
  | lhs {i j : NodeIndexType} {op : OperationT} {lhs rhs : NodeIndexType} :
      B[i.toNat]?.getD false = false → nodes[i.toNat]? = some (.operation op lhs rhs) →
      Needed nodes B lhs j → Needed nodes B i j
  | rhs {i j : NodeIndexType} {op : OperationT} {lhs rhs : NodeIndexType} :
      B[i.toNat]?.getD false = false → nodes[i.toNat]? = some (.operation op lhs rhs) →
      Needed nodes B rhs j → Needed nodes B i j
  | argument {i j : NodeIndexType} {fn : FunctionT} {argument : NodeIndexType} :
      B[i.toNat]?.getD false = false → nodes[i.toNat]? = some (.function fn argument) →
      Needed nodes B argument j → Needed nodes B i j

namespace Needed

variable {nodes : List NodeImpl} {B B' : List Bool} {i j : NodeIndexType}

theorem of_flags (hB : ∀ n : Nat, B[n]?.getD false = true → B'[n]?.getD false = true)
    (h : Needed nodes B' i j) : Needed nodes B i j := by
  have up : ∀ n : Nat, B'[n]?.getD false = false → B[n]?.getD false = false := fun n h' =>
    Bool.eq_false_iff.2 fun h => by simp [hB n h] at h'
  induction h with
  | refl hc => exact .refl (up _ hc)
  | lhs hc hn _ ih => exact .lhs (up _ hc) hn ih
  | rhs hc hn _ ih => exact .rhs (up _ hc) hn ih
  | argument hc hn _ ih => exact .argument (up _ hc) hn ih

theorem source (h : Needed nodes B i j) : B[i.toNat]?.getD false = false := by
  cases h <;> assumption

theorem trans {k : NodeIndexType} (h₁ : Needed nodes B i j) (h₂ : Needed nodes B j k) :
    Needed nodes B i k := by
  induction h₁ with
  | refl => exact h₂
  | lhs hc hn _ ih => exact .lhs hc hn (ih h₂)
  | rhs hc hn _ ih => exact .rhs hc hn (ih h₂)
  | argument hc hn _ ih => exact .argument hc hn (ih h₂)

/-- A path of nodes uncomputed at `B` stays one at `B'` when `B'` sets no flag of a node on a
path to its end. -/
theorem restrict (h : Needed nodes B i j)
    (hB : ∀ m, Needed nodes B m j → B'[m.toNat]?.getD false = false) : Needed nodes B' i j := by
  induction h with
  | refl hc => exact .refl (hB _ (.refl hc))
  | lhs hc hn hj ih => exact .lhs (hB _ (.lhs hc hn hj)) hn (ih hB)
  | rhs hc hn hj ih => exact .rhs (hB _ (.rhs hc hn hj)) hn (ih hB)
  | argument hc hn hj ih => exact .argument (hB _ (.argument hc hn hj)) hn (ih hB)

theorem reaches (h : Needed nodes B i j) : Reaches nodes i j := by
  induction h with
  | refl => exact .refl _
  | lhs _ hn _ ih => exact .lhs hn ih
  | rhs _ hn _ ih => exact .rhs hn ih
  | argument _ hn _ ih => exact .argument hn ih

end Needed

theorem needed_nil_iff {nodes : List NodeImpl} {i j : NodeIndexType} :
    Needed nodes [] i j ↔ Reaches nodes i j := by
  have h0 : ∀ n : Nat, ([] : List Bool)[n]?.getD false = false := fun _ => rfl
  refine ⟨Needed.reaches, fun h => ?_⟩
  induction h with
  | refl => exact .refl (h0 _)
  | lhs hn _ ih => exact .lhs (h0 _) hn ih
  | rhs hn _ ih => exact .rhs (h0 _) hn ih
  | argument hn _ ih => exact .argument (h0 _) hn ih

/-! ## Flags set after their operands -/

/-- Every flag set between `B` and `B'` is on a node whose operands are computed in `B'`. -/
def NewClosed (nodes : List NodeImpl) (B B' : List Bool) : Prop :=
  ∀ j : Nat, B'[j]?.getD false = true → B[j]?.getD false = false →
    (∀ (op : OperationT) (lhs rhs : NodeIndexType), nodes[j]? = some (.operation op lhs rhs) →
      B'[lhs.toNat]?.getD false = true ∧ B'[rhs.toNat]?.getD false = true) ∧
    (∀ (fn : FunctionT) (argument : NodeIndexType), nodes[j]? = some (.function fn argument) →
      B'[argument.toNat]?.getD false = true)

/-- A flag set after an assignment was set before, or is the one assigned. -/
theorem flag_of_growingVectorAssign {B : List Bool} {i j : Nat}
    (h : (growingVectorAssign B i false true)[j]?.getD false = true) :
    j = i ∨ B[j]?.getD false = true := by
  rw [getD_growingVectorAssign] at h
  split at h
  · exact .inl ‹_›
  · exact .inr h

namespace NewClosed

variable {nodes : List NodeImpl} {B B₁ B₂ : List Bool}

theorem access (B : List Bool) (i : Nat) : NewClosed nodes B (growingVectorAccess B i false) :=
  fun j hj hB => by simp [hB] at hj

theorem trans (h₁ : NewClosed nodes B B₁) (h₂ : NewClosed nodes B₁ B₂)
    (hmono : ∀ n : Nat, B₁[n]?.getD false = true → B₂[n]?.getD false = true) :
    NewClosed nodes B B₂ := fun j hj hB => by
  by_cases hj₁ : B₁[j]?.getD false = true
  · obtain ⟨hop, hfn⟩ := h₁ j hj₁ hB
    exact ⟨fun op l r hn => (hop op l r hn).imp (hmono _) (hmono _),
      fun fn a hn => hmono _ (hfn fn a hn)⟩
  · exact h₂ j hj (by simpa using hj₁)

theorem assign (hc : NewClosed nodes B B₁) {i : Nat}
    (hops : (∀ (op : OperationT) (lhs rhs : NodeIndexType),
        nodes[i]? = some (.operation op lhs rhs) →
          B₁[lhs.toNat]?.getD false = true ∧ B₁[rhs.toNat]?.getD false = true) ∧
      (∀ (fn : FunctionT) (argument : NodeIndexType), nodes[i]? = some (.function fn argument) →
        B₁[argument.toNat]?.getD false = true)) :
    NewClosed nodes B (growingVectorAssign B₁ i false true) := by
  have up : ∀ {j : Nat}, B₁[j]?.getD false = true →
      (growingVectorAssign B₁ i false true)[j]?.getD false = true := fun h => by
    simp only [getD_growingVectorAssign]; split <;> simp [h]
  intro j hj hB
  rcases flag_of_growingVectorAssign hj with rfl | hj
  · exact ⟨fun op l r hn => (hops.1 op l r hn).imp up up, fun fn a hn => up (hops.2 fn a hn)⟩
  · obtain ⟨hop, hfn⟩ := hc j hj hB
    exact ⟨fun op l r hn => (hop op l r hn).imp up up, fun fn a hn => up (hfn fn a hn)⟩

/-- Once a node set between `B` and `B'` is computed, so is every node it needed at `B`. -/
theorem needed (hc : NewClosed nodes B B₁) {i k : NodeIndexType} (h : Needed nodes B i k)
    (hi : B₁[i.toNat]?.getD false = true) : B₁[k.toNat]?.getD false = true := by
  induction h with
  | refl => exact hi
  | lhs hB hn _ ih => exact ih ((hc _ hi hB).1 _ _ _ hn).1
  | rhs hB hn _ ih => exact ih ((hc _ hi hB).1 _ _ _ hn).2
  | argument hB hn _ ih => exact ih ((hc _ hi hB).2 _ _ hn)

end NewClosed

/-! ## A visit sets the needed flags and writes no other value -/

namespace Visit

variable {nodes : List NodeImpl} {x : List Float} {i : NodeIndexType} {V V' : List Float}
  {B B' : List Bool} {n : Nat}

/-- A visit computes each node after its operands. -/
theorem newClosed (h : Visit nodes x i V B n V' B') : NewClosed nodes B B' := by
  induction h with
  | computed => exact .access _ _
  | «variable» _ _ hn | value _ _ hn =>
    exact (NewClosed.access _ _).assign
      ⟨fun _ _ _ h => by simp [hn] at h, fun _ _ h => by simp [hn] at h⟩
  | @operation i V B op lhs rhs n₁ n₂ V₁ V₂ B₁ B₂ a b _ _ hn h₁ h₂ _ _ ih₁ ih₂ =>
    refine (((NewClosed.access _ _).trans ih₁ fun _ => h₁.flag_mono).trans ih₂
      fun _ => h₂.flag_mono).assign ⟨fun op' l r h => ?_, fun _ _ h => by simp [hn] at h⟩
    obtain ⟨rfl, rfl, rfl⟩ : op = op' ∧ lhs = l ∧ rhs = r := by simpa [hn] using h
    exact ⟨h₂.flag_self, h₂.flag_mono h₁.flag_self⟩
  | @function i V B fn argument n₁ V₁ B₁ a _ _ hn h₁ _ ih =>
    refine ((NewClosed.access _ _).trans ih fun _ => h₁.flag_mono).assign
      ⟨fun _ _ _ h => by simp [hn] at h, fun fn' a' h => ?_⟩
    obtain ⟨rfl, rfl⟩ : fn = fn' ∧ argument = a' := by simpa [hn] using h
    exact h₁.flag_self

theorem needed_flag (h : Visit nodes x i V B n V' B') {k : NodeIndexType}
    (hk : Needed nodes B i k) : B'[k.toNat]?.getD false = true :=
  h.newClosed.needed hk h.flag_self

theorem flag_needed (h : Visit nodes x i V B n V' B') {j : Nat}
    (hj : B'[j]?.getD false = true) :
    B[j]?.getD false = true ∨ ∃ k, Needed nodes B i k ∧ k.toNat = j := by
  induction h with
  | computed => exact .inl (by simpa using hj)
  | «variable» _ hc | value _ hc =>
    rcases flag_of_growingVectorAssign hj with rfl | hj
    · exact .inr ⟨_, .refl hc, rfl⟩
    · exact .inl (by simpa using hj)
  | operation _ hc hn h₁ _ _ _ ih₁ ih₂ =>
    rcases flag_of_growingVectorAssign hj with rfl | hj
    · exact .inr ⟨_, .refl hc, rfl⟩
    · rcases ih₂ hj with hj | ⟨k, hk, rfl⟩
      · rcases ih₁ hj with hj | ⟨k, hk, rfl⟩
        · exact .inl (by simpa using hj)
        · exact .inr ⟨k, .rhs hc hn (hk.of_flags fun _ h => by simpa using h), rfl⟩
      · exact .inr ⟨k, .lhs hc hn
          (hk.of_flags fun _ h => h₁.flag_mono (by simpa using h)), rfl⟩
  | function _ hc hn _ _ ih =>
    rcases flag_of_growingVectorAssign hj with rfl | hj
    · exact .inr ⟨_, .refl hc, rfl⟩
    · rcases ih hj with hj | ⟨k, hk, rfl⟩
      · exact .inl (by simpa using hj)
      · exact .inr ⟨k, .argument hc hn (hk.of_flags fun _ h => by simpa using h), rfl⟩

theorem flag_iff (h : Visit nodes x i V B n V' B') (j : Nat) :
    B'[j]?.getD false = true ↔ B[j]?.getD false = true ∨ ∃ k, Needed nodes B i k ∧ k.toNat = j := by
  refine ⟨h.flag_needed, ?_⟩
  rintro (hj | ⟨k, hk, rfl⟩)
  · exact h.flag_mono hj
  · exact h.needed_flag hk

end Visit

/-! ## Every set flag keeps its value slot -/

/-- A pass writes `node_value_` and `node_computed_` in lockstep, on any store and input. -/
theorem evalStep_sized {nodes : List NodeImpl} {x : List Float} {i : NodeIndexType}
    {stack : List NodeIndexType} {V : List Float} {B : List Bool} {s' : EvalState}
    (h : evalStep nodes x i ⟨stack, V, B⟩ = some s') (hs : Sized V B) : Sized s'.V s'.B := by
  simp only [evalStep, getD_growingVectorAccess] at h
  split at h
  · split at h
    · cases h; exact hs.grow _
    · split at h
      · split at h
        · obtain ⟨_, -, rfl⟩ := Option.map_eq_some'.1 h
          exact (hs.grow _).assign _ _
        · cases h
      · cases h; exact (hs.grow _).assign _ _
      · cases h; exact hs.grow _
      · cases h; exact hs.grow _
      · cases h
  · split at h
    · obtain ⟨_, -, _, -, rfl⟩ := by simpa only [Option.bind_eq_bind, Option.bind_eq_some,
        Option.some.injEq] using h
      exact hs.assign _ _
    · obtain ⟨_, -, rfl⟩ := by simpa only [Option.bind_eq_bind, Option.bind_eq_some,
        Option.some.injEq] using h
      exact hs.assign _ _
    · cases h

/-- Whatever the store and the input, `eval_node` leaves every set flag with its value slot. -/
theorem evalNode_sized {s s' : InternalsImpl} {r : NodeIndexType} {x : List Float}
    {mode : ReuseCache} {v : Float} (h : evalNode s r x mode = some (v, s'))
    (hs : Sized s.nodeValue s.nodeComputed) : Sized s'.nodeValue s'.nodeComputed := by
  have h₀ : Sized s.nodeValue (if mode = .invalidate then [] else s.nodeComputed) := by
    split
    · exact fun _ h => absurd h (by simp)
    · exact hs
  simp only [evalNode] at h
  split at h
  · rename_i V B hl
    split at h
    · obtain ⟨_, -, he⟩ := Option.map_eq_some'.1 h
      cases he
      exact (evalLoop_induction (fun t => Sized t.V t.B)
        (fun _ _ _ _ _ h₁ hs => evalStep_sized h₁ hs) hl h₀).1
    · cases h
  · cases h

/-! ## `eval_node` -/

/-- The flags `eval_node` starts its loop from: none with `invalidate` (`B.clear()`), those of
`node_computed_` with `reuse`. -/
def startFlags (s : InternalsImpl) (mode : ReuseCache) : List Bool :=
  if mode = .invalidate then [] else s.nodeComputed

/-- With `invalidate`, on a root well formed for an input of fewer than `2^31` entries,
`eval_node` returns and leaves set exactly the flags of the nodes the root reaches. -/
theorem evalNode_invalidate_flags (s : InternalsImpl) (x : List Float) (r : NodeIndexType)
    (hx : x.length < 2 ^ 31) (hr : WellFormed s.nodeVector x r) :
    ∃ v V B, evalNode s r x .invalidate = some (v, { s with nodeValue := V, nodeComputed := B }) ∧
      ∀ j : Nat, B[j]?.getD false = true ↔ ∃ k, Reaches s.nodeVector r k ∧ k.toNat = j := by
  obtain ⟨n, V, B, h, he⟩ := evalNode_visit s x r .invalidate hx hr (fun _ h => absurd h (by simp))
  rw [if_pos rfl] at h
  obtain ⟨v, hv⟩ := (h.sized fun _ h => absurd h (by simp)).exists_getElem? h.flag_self
  refine ⟨v, V, B, by rw [he, hv, Option.map_some'], fun j => ?_⟩
  simp only [h.flag_iff, List.getElem?_nil, Option.getD_none, Bool.false_eq_true, false_or,
    needed_nil_iff]

theorem evalNode_invalidate_flags_unreached :
    [(3.0 : Float)].length < 2 ^ 31 ∧
      WellFormed [.value 2.0, .variable 0, .operation .add 0 0] [3.0] 2 ∧
      ∃ v V B, evalNode { InternalsImpl.initial with
          nodeVector := [.value 2.0, .variable 0, .operation .add 0 0] } 2 [3.0] .invalidate =
          some (v, { InternalsImpl.initial with
            nodeVector := [.value 2.0, .variable 0, .operation .add 0 0],
            nodeValue := V, nodeComputed := B }) ∧
        ∀ j : Nat, B[j]?.getD false = true ↔
          ∃ k, Reaches [.value 2.0, .variable 0, .operation .add 0 0] 2 k ∧ k.toNat = j :=
  have hw : WellFormed [.value 2.0, .variable 0, .operation .add 0 0] [3.0] 2 :=
    .operation (by decide) rfl (by decide) (by decide) (.value (by decide) rfl)
      (.value (by decide) rfl)
  ⟨by decide, hw, evalNode_invalidate_flags _ [3.0] 2 (by decide) hw⟩

end FnCAS
