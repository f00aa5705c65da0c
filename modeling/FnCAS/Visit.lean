import FnCAS.Eval

/-! # The loop of `eval_node`, one first visit at a time

`Visit nodes x i V B n V' B'` is the big-step reading of the loop: an entry `i`, popped as a
first visit with memo `V` (`node_value_`) and `B` (`node_computed_`), is finished, with every
entry pushed above it, after exactly `n` passes, leaving `V'` and `B'`. Its constructors follow
the branches of `evalStep`; an operation first finishes `rhs` (pushed last, so on top), then
`lhs`, then pops its post-marker `~i`.

* `Visit.loop`: the loop runs a visit in exactly `n` passes, whatever lies below `i`.
* What a visit does to the flags: it sets `i` (`flag_self`), keeps every flag set (`flag_mono`)
  and sets none above `i` (`flag_new`); it keeps `Sized` (a set flag has its value slot).
* `Visit.passes`: at most three passes per flag it sets, plus one.
-/

namespace FnCAS

/-- Entry `i`, popped as a first visit with memo `V`, `B`, is finished after `n` passes. -/
inductive Visit (nodes : List NodeImpl) (x : List Float) :
    NodeIndexType → List Float → List Bool → Nat → List Float → List Bool → Prop
  | computed {i : NodeIndexType} {V : List Float} {B : List Bool} :
      0 ≤ i.toInt → B[i.toNat]?.getD false = true →
      Visit nodes x i V B 1 V (growingVectorAccess B i.toNat false)
  | variable {i : NodeIndexType} {V : List Float} {B : List Bool} {k : BitVec 32} {xv : Float} :
      0 ≤ i.toInt → B[i.toNat]?.getD false = false → nodes[i.toNat]? = some (.variable k) →
      ((0 : BitVec 32).sle k && k.slt (BitVec.ofNat 32 x.length)) = true →
      x[k.toNat]? = some xv →
      Visit nodes x i V B 1 (growingVectorAssign V i.toNat 0 xv)
        (growingVectorAssign (growingVectorAccess B i.toNat false) i.toNat false true)
  | value {i : NodeIndexType} {V : List Float} {B : List Bool} {c : Float} :
      0 ≤ i.toInt → B[i.toNat]?.getD false = false → nodes[i.toNat]? = some (.value c) →
      Visit nodes x i V B 1 (growingVectorAssign V i.toNat 0 c)
        (growingVectorAssign (growingVectorAccess B i.toNat false) i.toNat false true)
  | operation {i : NodeIndexType} {V : List Float} {B : List Bool} {op : OperationT}
      {lhs rhs : NodeIndexType} {n₁ n₂ : Nat} {V₁ V₂ : List Float} {B₁ B₂ : List Bool}
      {a b : Float} :
      0 ≤ i.toInt → B[i.toNat]?.getD false = false → nodes[i.toNat]? = some (.operation op lhs rhs) →
      Visit nodes x rhs V (growingVectorAccess B i.toNat false) n₁ V₁ B₁ →
      Visit nodes x lhs V₁ B₁ n₂ V₂ B₂ →
      V₂[lhs.toNat]? = some a → V₂[rhs.toNat]? = some b →
      Visit nodes x i V B (n₁ + n₂ + 2) (growingVectorAssign V₂ i.toNat 0 (applyOperation op a b))
        (growingVectorAssign B₂ i.toNat false true)
  | function {i : NodeIndexType} {V : List Float} {B : List Bool} {fn : FunctionT}
      {argument : NodeIndexType} {n₁ : Nat} {V₁ : List Float} {B₁ : List Bool} {a : Float} :
      0 ≤ i.toInt → B[i.toNat]?.getD false = false →
      nodes[i.toNat]? = some (.function fn argument) →
      Visit nodes x argument V (growingVectorAccess B i.toNat false) n₁ V₁ B₁ →
      V₁[argument.toNat]? = some a →
      Visit nodes x i V B (n₁ + 2) (growingVectorAssign V₁ i.toNat 0 (applyFunction fn a))
        (growingVectorAssign B₁ i.toNat false true)

/-- Every set flag of `B` has its slot in `V`: the post-marker pass can read its operands. -/
def Sized (V : List Float) (B : List Bool) : Prop :=
  ∀ j, B[j]?.getD false = true → j < V.length

theorem Sized.grow {V : List Float} {B : List Bool} (hs : Sized V B) (i : Nat) :
    Sized V (growingVectorAccess B i false) := fun j hj => hs j (by simpa using hj)

/-- Storing a value at `i` and setting its flag keeps `Sized`. -/
theorem Sized.assign {V : List Float} {B : List Bool} (hs : Sized V B) (i : Nat) (v : Float) :
    Sized (growingVectorAssign V i 0 v) (growingVectorAssign B i false true) := fun j hj => by
  simp only [getD_growingVectorAssign] at hj
  rw [length_growingVectorAssign]
  split at hj
  · omega
  · have := hs j hj; omega

namespace Visit

variable {nodes : List NodeImpl} {x : List Float} {i : NodeIndexType} {V V' : List Float}
  {B B' : List Bool} {n : Nat}

/-- The loop runs a visit in exactly its number of passes, leaving the entries below it. -/
theorem loop (h : Visit nodes x i V B n V' B') (stack : List NodeIndexType) (k : Nat) :
    evalLoop nodes x (n + k) ⟨i :: stack, V, B⟩ = evalLoop nodes x k ⟨stack, V', B'⟩ := by
  induction h generalizing stack k with
  | computed h0 hc => rw [Nat.add_comm, evalLoop_step (evalStep_computed h0 hc)]
  | «variable» h0 hc hn hk hx => rw [Nat.add_comm, evalLoop_step (evalStep_variable h0 hc hn hk hx)]
  | value h0 hc hn => rw [Nat.add_comm, evalLoop_step (evalStep_value h0 hc hn)]
  | @operation i V B op lhs rhs n₁ n₂ V₁ V₂ B₁ B₂ a b h0 hc hn _ _ ha hb ih₁ ih₂ =>
    rw [show n₁ + n₂ + 2 + k = n₁ + (n₂ + (k + 1)) + 1 by omega,
      evalLoop_step (evalStep_operation h0 hc hn), ih₁, ih₂,
      evalLoop_step (evalStep_post_operation h0 hn ha hb)]
  | @function i V B fn argument n₁ V₁ B₁ a h0 hc hn _ ha ih =>
    rw [show n₁ + 2 + k = n₁ + (k + 1) + 1 by omega,
      evalLoop_step (evalStep_function h0 hc hn), ih, evalLoop_step (evalStep_post_function h0 hn ha)]

theorem flag_self (h : Visit nodes x i V B n V' B') : B'[i.toNat]?.getD false = true := by
  cases h <;> simp_all

theorem flag_mono (h : Visit nodes x i V B n V' B') {j : Nat} (hj : B[j]?.getD false = true) :
    B'[j]?.getD false = true := by
  induction h with
  | computed => simpa using hj
  | «variable» | value => simp [hj]
  | operation _ _ _ _ _ _ _ ih₁ ih₂ => simp [ih₂ (ih₁ (by simpa using hj))]
  | function _ _ _ _ _ ih => simp [ih (by simpa using hj)]

theorem flag_new (h : Visit nodes x i V B n V' B') (hw : Acyclic nodes i) {j : Nat}
    (hj : B'[j]?.getD false = true) : B[j]?.getD false = true ∨ j ≤ i.toNat := by
  induction h with
  | computed => simp_all
  | «variable» | value =>
    simp only [getD_growingVectorAssign, getD_growingVectorAccess] at hj
    split at hj
    · omega
    · exact .inl hj
  | operation _ _ hn _ _ _ _ ih₁ ih₂ =>
    obtain ⟨hl, hr, hwl, hwr⟩ := hw.of_operation hn
    simp only [getD_growingVectorAssign] at hj
    split at hj
    · omega
    · rcases ih₂ hwl hj with hj | hj
      · rcases ih₁ hwr hj with hj | hj
        · simp_all
        · omega
      · omega
  | function _ _ hn _ _ ih =>
    obtain ⟨ha, hwa⟩ := hw.of_function hn
    simp only [getD_growingVectorAssign] at hj
    split at hj
    · omega
    · rcases ih hwa hj with hj | hj
      · simp_all
      · omega

theorem sized (h : Visit nodes x i V B n V' B') (hs : Sized V B) : Sized V' B' := by
  induction h with
  | computed => exact hs.grow _
  | «variable» | value => exact (hs.grow _).assign _ _
  | operation _ _ _ _ _ _ _ ih₁ ih₂ => exact (ih₂ (ih₁ (hs.grow _))).assign _ _
  | function _ _ _ _ _ ih => exact (ih (hs.grow _)).assign _ _

theorem flag_unset (h : Visit nodes x i V B n V' B') (hw : Acyclic nodes i) {j : Nat}
    (hj : i.toNat < j) (hB : B[j]?.getD false = false) : B'[j]?.getD false = false :=
  Bool.eq_false_iff.2 fun h' =>
    (h.flag_new hw h').elim (fun h'' => by simp [hB] at h'') fun hle => by omega

end Visit

/-! ## Counting passes -/

/-- The indices below `N` whose flag is not set. -/
def unsetCount (B : List Bool) (N : Nat) : Nat :=
  (List.range N).countP fun j => !B[j]?.getD false

theorem unsetCount_le (B : List Bool) (N : Nat) : unsetCount B N ≤ N :=
  (List.countP_le_length _).trans (List.length_range N).le

theorem unsetCount_growingVectorAccess (B : List Bool) (i N : Nat) :
    unsetCount (growingVectorAccess B i false) N = unsetCount B N := by
  simp only [unsetCount, getD_growingVectorAccess]

/-- Setting a flag that was not set, below `N`, leaves one index fewer unset. -/
theorem unsetCount_growingVectorAssign {B : List Bool} {i N : Nat} (hi : i < N)
    (hB : B[i]?.getD false = false) :
    unsetCount (growingVectorAssign B i false true) N + 1 = unsetCount B N := by
  induction N with
  | zero => omega
  | succ N ih =>
    simp only [unsetCount, List.range_succ, List.countP_append, List.countP_singleton,
      getD_growingVectorAssign] at ih ⊢
    by_cases h : i < N
    · have hN : N ≠ i := by omega
      rw [← ih h]
      simp [hN]
      omega
    · obtain rfl : i = N := by omega
      have hsame : (List.range i).countP (fun j => !if j = i then true else B[j]?.getD false) =
          (List.range i).countP (fun j => !B[j]?.getD false) :=
        List.countP_congr fun j hj => by simp [(List.mem_range.1 hj).ne]
      rw [hsame]
      simp [hB]

theorem passes_leaf {B : List Bool} {i N : Nat} (hi : i < N) (hc : B[i]?.getD false = false) :
    1 + 3 * unsetCount (growingVectorAssign (growingVectorAccess B i false) i false true) N ≤
      3 * unsetCount B N + 1 := by
  have := unsetCount_growingVectorAssign (B := growingVectorAccess B i false) hi
    (by rwa [getD_growingVectorAccess])
  rw [unsetCount_growingVectorAccess] at this
  omega

namespace Visit

variable {nodes : List NodeImpl} {x : List Float} {i : NodeIndexType} {V V' : List Float}
  {B B' : List Bool} {n : Nat}

/-- A visit of an acyclic node takes at most three passes per flag it sets, plus one. -/
theorem passes (h : Visit nodes x i V B n V' B') (hw : Acyclic nodes i) {N : Nat}
    (hN : nodes.length ≤ N) : n + 3 * unsetCount B' N ≤ 3 * unsetCount B N + 1 := by
  induction h with
  | computed => rw [unsetCount_growingVectorAccess]; omega
  | «variable» _ hc hn | value _ hc hn =>
    exact passes_leaf (by have := (List.getElem?_eq_some_iff.1 hn).1; omega) hc
  | @operation i V B op lhs rhs n₁ n₂ V₁ V₂ B₁ B₂ a b _ hc hn h₁ h₂ _ _ ih₁ ih₂ =>
    obtain ⟨hl, hr, hwl, hwr⟩ := hw.of_operation hn
    have hi := (List.getElem?_eq_some_iff.1 hn).1
    have hB₂ := h₂.flag_unset hwl hl (h₁.flag_unset hwr hr (by simpa using hc))
    have := unsetCount_growingVectorAssign (N := N) (by omega) hB₂
    have := ih₁ hwr
    have := ih₂ hwl
    rw [unsetCount_growingVectorAccess] at *
    omega
  | @function i V B fn argument n₁ V₁ B₁ a _ hc hn h₁ _ ih =>
    obtain ⟨ha, hwa⟩ := hw.of_function hn
    have hi := (List.getElem?_eq_some_iff.1 hn).1
    have hB₁ := h₁.flag_unset hwa ha (by simpa using hc)
    have := unsetCount_growingVectorAssign (N := N) (by omega) hB₁
    have := ih hwa
    rw [unsetCount_growingVectorAccess] at *
    omega

end Visit

end FnCAS
