import FnCAS.Session

/-! # A user function, recorded and run on `double_t`

User code writes a function once, as a template over its value type (`X2V`/`V2X`,
`fncas/node.h`, lines 447-476): on `double_t` it is the function itself, what an `f_native`
wraps; on `V`, inside a session, it records the nodes an `f_intermediate` evaluates. `Stmt` is
one statement of such a body. It reads the values bound so far by position (the entries of the
input first) and binds one more; a compound assignment rebinds its left operand instead.

* `runNative`: the body on `double_t` values. `record`: the body on `V` handles.
* `RecordsNative`: the two runs side by side. Every handle is one the session issued, and the
  handles mean, at `x`, the values.

Main result: `recorded_body_evaluates_native`. Bodies with a unary minus are left out: on `V`
it is `0.0 - x` (`operator-`), on `double_t` the negation `-x`. The two differ in the sign of a
zero, which Lean's `Float` does not let a proof observe.
-/

namespace FnCAS

/-- A statement of a function body, on the values bound so far, by position. -/
inductive Stmt
  | ofDouble (x : Float)
  | operation (name : OperationT) (lhs rhs : Nat)
  | operationAssign (name : OperationT) (lhs rhs : Nat)
  | function (F : FunctionT) (argument : Nat)
  | unaryPlus (x : Nat)
  | unaryMinus (x : Nat)

namespace Stmt

def isUnaryMinus : Stmt → Bool
  | .unaryMinus _ => true
  | _ => false

/-- The construction the statement makes on `V`, from the handles `hs` bound so far. -/
def construction (hs : List V) : Stmt → Option Construction
  | .ofDouble x => some (.ofDouble x)
  | .operation name lhs rhs => do return .operation name (← hs[lhs]?) (← hs[rhs]?)
  | .operationAssign name lhs rhs => do return .operationAssign name (← hs[lhs]?) (← hs[rhs]?)
  | .function F argument => do return .function F (← hs[argument]?)
  | .unaryPlus x => do return .unaryPlus (← hs[x]?)
  | .unaryMinus x => do return .unaryMinus (← hs[x]?)

/-- The value the statement computes on `double_t`, from the values `vals` bound so far: the
operators and functions of the tables of `apply_operation` and `apply_function`, and the
negation for unary `-`. -/
def native (vals : List Float) : Stmt → Option Float
  | .ofDouble x => some x
  | .operation name lhs rhs => do return applyOperation name (← vals[lhs]?) (← vals[rhs]?)
  | .operationAssign name lhs rhs => do return applyOperation name (← vals[lhs]?) (← vals[rhs]?)
  | .function F argument => do return applyFunction F (← vals[argument]?)
  | .unaryPlus x => vals[x]?
  | .unaryMinus x => do return -(← vals[x]?)

/-- Bind the statement's result: a compound assignment rebinds its left operand, any other
statement binds a new value. -/
def bind {α : Type} : Stmt → List α → α → List α
  | .operationAssign _ lhs _, regs, r => regs.set lhs r
  | .ofDouble _, regs, r => regs ++ [r]
  | .operation .., regs, r => regs ++ [r]
  | .function .., regs, r => regs ++ [r]
  | .unaryPlus _, regs, r => regs ++ [r]
  | .unaryMinus _, regs, r => regs ++ [r]

theorem map_bind {α β : Type} (st : Stmt) (f : α → β) (regs : List α) (r : α) :
    (st.bind regs r).map f = st.bind (regs.map f) (f r) := by
  cases st <;> simp [bind, List.map_set]

theorem mem_bind {α : Type} {st : Stmt} {regs : List α} {r a : α} (h : a ∈ st.bind regs r) :
    a ∈ regs ∨ a = r := by
  cases st <;> simp only [bind, List.mem_append, List.mem_singleton] at h
  case operationAssign => exact List.mem_or_eq_of_mem_set h
  all_goals exact h

/-- On `double_t`, a statement other than unary minus computes what its construction on `V`
computes from the values of the handles. -/
theorem native_map (st : Stmt) (hneg : st.isUnaryMinus = false) (hs : List V) (f : V → Float) :
    st.native (hs.map f) = (st.construction hs).map fun c => c.value f := by
  cases st with
  | ofDouble => rfl
  | operation _ lhs rhs | operationAssign _ lhs rhs =>
    simp only [native, construction, List.getElem?_map]
    cases hs[lhs]? <;> cases hs[rhs]? <;> rfl
  | function _ argument | unaryPlus argument =>
    simp only [native, construction, List.getElem?_map]
    cases hs[argument]? <;> rfl
  | unaryMinus => cases hneg

theorem operands_mem {st : Stmt} {hs : List V} {c : Construction}
    (h : st.construction hs = some c) : ∀ v ∈ c.operands, v ∈ hs := by
  cases st <;> simp only [construction, Option.bind_eq_bind, Option.bind_eq_some,
    Option.some.injEq, Option.pure_def] at h
  case ofDouble => subst h; simp [Construction.operands]
  case operation | operationAssign =>
    obtain ⟨a, ha, b, hb, rfl⟩ := h
    simp only [Construction.operands, List.mem_cons, List.mem_singleton, List.not_mem_nil,
      or_false]
    rintro v (rfl | rfl)
    · exact List.mem_iff_getElem?.2 ⟨_, ha⟩
    · exact List.mem_iff_getElem?.2 ⟨_, hb⟩
  case function | unaryPlus | unaryMinus =>
    obtain ⟨a, ha, rfl⟩ := h
    simp only [Construction.operands, List.mem_singleton]
    rintro v rfl
    exact List.mem_iff_getElem?.2 ⟨_, ha⟩

end Stmt

/-- The body on `double_t`: the values bound after it. -/
def runNative : List Stmt → List Float → Option (List Float)
  | [], vals => some vals
  | st :: body, vals => (st.native vals).bind fun v => runNative body (st.bind vals v)

/-- The body on `V`, from the handles `hs` bound so far and the store `nodes`: the handles bound
after it, and the store it leaves. -/
def record : List Stmt → List V → List NodeImpl → Option (List V × List NodeImpl)
  | [], hs, nodes => some (hs, nodes)
  | st :: body, hs, nodes => (st.construction hs).bind fun c =>
    record body (st.bind hs (c.perform nodes).1) (c.perform nodes).2

/-! ## The two runs side by side -/

/-- The handles `hs`, bound in a session of dimension `d` that has issued `issued` and built
`nodes`, mean at `x` the values `vals`. -/
structure RecordsNative (d : Nat) (x : List Float) (issued hs : List V) (nodes : List NodeImpl)
    (vals : List Float) : Prop where
  recorded : Recorded d issued nodes
  bound_issued : ∀ h ∈ hs, h ∈ issued
  meaning : hs.map (fun h => denote nodes x h.index.toNat) = vals

namespace RecordsNative

variable {d : Nat} {x : List Float} {issued hs : List V} {nodes : List NodeImpl}
  {vals : List Float}

/-- One statement, recorded and run, keeps the handles meaning the values. -/
theorem step (inv : RecordsNative d x issued hs nodes vals) {st : Stmt}
    (hneg : st.isUnaryMinus = false) {v : Float} (hv : st.native vals = some v)
    (hlen : nodes.length + 2 < 2 ^ 63) :
    ∃ c, st.construction hs = some c ∧
      RecordsNative d x ((c.perform nodes).1 :: issued) (st.bind hs (c.perform nodes).1)
        (c.perform nodes).2 (st.bind vals v) := by
  rw [← inv.meaning, st.native_map hneg] at hv
  obtain ⟨c, hc, rfl⟩ := Option.map_eq_some'.1 hv
  have hops : ∀ h ∈ c.operands, h ∈ issued := fun h hh =>
    inv.bound_issued h (Stmt.operands_mem hc h hh)
  obtain ⟨-, hvalid⟩ := inv.recorded.valid (by omega)
  refine ⟨c, hc, .perform c inv.recorded hops, fun h hh => ?_, ?_⟩
  · rcases Stmt.mem_bind hh with hh | rfl
    · exact List.mem_cons_of_mem _ (inv.bound_issued h hh)
    · exact List.mem_cons_self _ _
  · rw [Stmt.map_bind, ← inv.meaning, perform_eq c nodes (by omega)]
    dsimp only
    rw [denote_result (by omega) fun h hh => hvalid h (hops h hh)]
    congr 1
    exact List.map_congr_left fun h hh => denote_append _ (hvalid h (inv.bound_issued h hh))

/-- A whole body, recorded and run, keeps the handles meaning the values, on a store kept below
`2^63` nodes: each statement appends at most two nodes. -/
theorem run (inv : RecordsNative d x issued hs nodes vals) {body : List Stmt}
    (hneg : ∀ st ∈ body, st.isUnaryMinus = false)
    (hlen : nodes.length + 2 * body.length < 2 ^ 63) {vals' : List Float}
    (hrun : runNative body vals = some vals') :
    ∃ issued' hs' nodes', record body hs nodes = some (hs', nodes') ∧
      RecordsNative d x issued' hs' nodes' vals' ∧
      nodes'.length ≤ nodes.length + 2 * body.length := by
  induction body generalizing issued hs nodes vals with
  | nil =>
    cases hrun
    exact ⟨issued, hs, nodes, rfl, inv, by simp⟩
  | cons st body ih =>
    rw [List.length_cons] at hlen
    obtain ⟨v, hv, hrun⟩ := Option.bind_eq_some.1 hrun
    obtain ⟨c, hc, inv'⟩ := inv.step (hneg st (List.mem_cons_self _ _)) hv (by omega)
    have hl : (c.perform nodes).2.length ≤ nodes.length + 2 := by
      rw [length_perform]
      cases c <;> simp [Construction.appended]
    obtain ⟨issued', hs', nodes', hr, inv'', hl'⟩ :=
      ih inv' (fun st h => hneg st (List.mem_cons_of_mem _ h)) (by omega) hrun
    refine ⟨issued', hs', nodes', ?_, inv'', by rw [List.length_cons]; omega⟩
    rw [record, hc, Option.some_bind, hr]

end RecordsNative

/-- The handles of the `X` vector of `X(d)` mean, at an input of `d < 2^31` entries, its
entries. -/
theorem initVector_meaning {d : Nat} (hd' : d < 2 ^ 31) {x : List Float} (hx : x.length = d) :
    (X.initVector d []).1.map (fun h => denote (X.initVector d []).2 x h.index.toNat) = x := by
  apply List.ext_getElem?
  intro i
  rw [List.getElem?_map]
  by_cases hi : i < d
  · obtain ⟨h₁, h₂⟩ := initVector_entry hi (by omega)
    have hdi : (BitVec.ofNat 64 (d + i)).toNat = d + i := by
      rw [BitVec.toNat_ofNat, Nat.mod_eq_of_lt (by omega)]
    have hk : (BitVec.ofNat 32 i).toNat = i := by
      rw [BitVec.toNat_ofNat, Nat.mod_eq_of_lt (by omega)]
    rw [h₁, Option.map_some', hdi, denote_variable h₂, hk, List.getD_eq_getElem?_getD,
      List.getElem?_eq_getElem (by omega), Option.getD_some]
  · have hlen : (X.initVector d []).1.length = d := by
      rw [initVector_eq d [] (by simp; omega)]
      simp
    rw [List.getElem?_eq_none (by omega), List.getElem?_eq_none (by omega), Option.map_none']

/-- From any singleton with no session open, whatever its store and memo hold, `X(d)` with
`0 < d < 2^31`, followed by the recording of a body without unary minus on the `X` vector, binds
handles whose `f_intermediate` returns, at every input of `d` entries at which the body runs on
`double_t`, the value the body binds at the same position. -/
theorem recorded_body_evaluates_native {s : InternalsImpl} (h₀ : s.xPtr = none) (h₁ : s.dim = 0)
    (self : Nat) {d : Nat} (hd : 0 < d) (hd' : d < 2 ^ 31) {body : List Stmt}
    (hneg : ∀ st ∈ body, st.isUnaryMinus = false) (hsize : 2 * d + 2 * body.length < 2 ^ 63)
    {x : List Float} (hx : x.length = d) {vals : List Float}
    (hrun : runNative body x = some vals) :
    ∃ xs s₁ hs nodes, X.mk self d s = .ok xs s₁ ∧ record body xs s₁.nodeVector = some (hs, nodes) ∧
      hs.map (fun h => (FIntermediate.call ⟨h⟩ x { s₁ with nodeVector := nodes }).map Prod.fst) =
        vals.map some := by
  let s₁ : InternalsImpl :=
    { s.reset with xPtr := some self, dim := d, nodeVector := (X.initVector d []).2 }
  have hmk : X.mk self d s = .ok (X.initVector d []).1 s₁ := by simp [s₁, X.mk, hd, h₀, h₁]
  have inv : RecordsNative d x (X.initVector d []).1 (X.initVector d []).1
      (X.initVector d []).2 x := ⟨.session, fun _ h => h, initVector_meaning hd' hx⟩
  obtain ⟨issued, hs, nodes, hr, inv', hl⟩ :=
    inv.run hneg (by rw [length_initVector]; simpa using hsize) hrun
  rw [length_initVector, List.length_nil] at hl
  refine ⟨_, s₁, hs, nodes, hmk, hr, ?_⟩
  rw [← inv'.meaning, List.map_map]
  refine List.map_congr_left fun h hh => ?_
  obtain ⟨V', B', he⟩ := inv'.recorded.evalNode_denote hd hd' (by omega)
    { s₁ with nodeVector := nodes } rfl (inv'.bound_issued h hh) x hx
  simp only [Function.comp, FIntermediate.call, FIntermediate.dim, s₁, hx, ite_true, he,
    Option.map_some']

theorem recorded_body_evaluates_native_square :
    InternalsImpl.initial.xPtr = none ∧ InternalsImpl.initial.dim = 0 ∧ 0 < 1 ∧ 1 < 2 ^ 31 ∧
      (∀ st ∈ [Stmt.operation .multiply 0 0, .operationAssign .add 1 0],
        st.isUnaryMinus = false) ∧
      2 * 1 + 2 * [Stmt.operation .multiply 0 0, .operationAssign .add 1 0].length < 2 ^ 63 ∧
      [(3.0 : Float)].length = 1 ∧
      runNative [.operation .multiply 0 0, .operationAssign .add 1 0] [3.0] =
        some [3.0, applyOperation .add (applyOperation .multiply 3.0 3.0) 3.0] ∧
      ∃ xs s₁ hs nodes, X.mk 1 1 InternalsImpl.initial = .ok xs s₁ ∧
        record [.operation .multiply 0 0, .operationAssign .add 1 0] xs s₁.nodeVector =
          some (hs, nodes) ∧
        hs.map (fun h => (FIntermediate.call ⟨h⟩ [3.0] { s₁ with nodeVector := nodes }).map
          Prod.fst) =
          [(3.0 : Float), applyOperation .add (applyOperation .multiply 3.0 3.0) 3.0].map some :=
  have hrun : runNative [.operation .multiply 0 0, .operationAssign .add 1 0] [3.0] =
      some [3.0, applyOperation .add (applyOperation .multiply 3.0 3.0) 3.0] := rfl
  ⟨rfl, rfl, by decide, by decide, by decide, by decide, rfl, hrun,
    recorded_body_evaluates_native (s := InternalsImpl.initial) (d := 1) (x := [3.0]) rfl rfl 1
      (by decide) (by decide) (by decide) (by decide) rfl hrun⟩

end FnCAS
