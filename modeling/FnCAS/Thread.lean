import FnCAS.Record
import FnCAS.EvalCorrect

/-! # The thread's singleton across sessions (`fncas/node.h`, lines 372-445)

* `X.mk`, `X.destroy`: `X::X(dim)` and `X::~X()` on the singleton, by the `X` at address
  `self`. A call that throws keeps the singleton as it was at the `throw`.
* `Event`, `Thread.run`: the calls user code makes on one thread (opening and closing sessions,
  constructions, `eval_node`) and their outcomes in order. The caller catches
  `FnCASConcurrentEvaluationAttemptException` and goes on; a failed `CURRENT_ASSERT` ends the
  run.
* `FNative`, `FIntermediate`: the function wrappers, with `dim()` and `operator()`.

Main results: `session_protocol`, the claim/release protocol of `X` on every run, with
`x_ptr_` the holder `sessionHolder` computes from the calls that ran; `mk_ok`, what a successful
`X(d)` builds; and, at the
inputs where they show, two departures from the spec: the value memo outlives `reset`
(`reuse_reads_earlier_session`), and `f_intermediate::dim()` reads the thread's `dim_`
(`wrapper_dim_after_close`).
-/

namespace FnCAS

/-- What a call can throw: a failed `CURRENT_ASSERT`, or the concurrent-session exception. -/
inductive Exception
  | currentAssert
  | fnCASConcurrentEvaluationAttemptException
  deriving DecidableEq, Repr

/-- `X::X(dim)` by the `X` at address `self`: the handles of the `X` vector. -/
def X.mk (self dim : Nat) (s : InternalsImpl) : EStateM.Result Exception InternalsImpl (List V) :=
  if ¬dim > 0 then .error .currentAssert s
  else if s.xPtr.isSome then .error .fnCASConcurrentEvaluationAttemptException s
  else if s.dim ≠ 0 then .error .currentAssert s
  else
    let s := { s.reset with xPtr := some self, dim := dim }
    let (xs, nodes) := X.initVector s.dim s.nodeVector
    .ok xs { s with nodeVector := nodes }

/-- `X::~X()` by the `X` at address `self`. -/
def X.destroy (self : Nat) (s : InternalsImpl) : InternalsImpl :=
  if s.xPtr = some self then { s with xPtr := none, dim := 0 } else s

/-- A call user code makes on the thread. -/
inductive Event
  | makeX (self dim : Nat)
  | destroyX (self : Nat)
  | construct (c : Construction)
  | eval (index : NodeIndexType) (x : List Float) (mode : ReuseCache)

/-- One call: the value `eval_node` returned (`none` for the other calls), and the singleton. -/
def Event.step : Event → InternalsImpl → EStateM.Result Exception InternalsImpl (Option Float)
  | .makeX self dim, s =>
    match X.mk self dim s with
    | .ok _ s => .ok none s
    | .error e s => .error e s
  | .destroyX self, s => .ok none (X.destroy self s)
  | .construct c, s => .ok none { s with nodeVector := (c.perform s.nodeVector).2 }
  | .eval index x mode, s =>
    match evalNode s index x mode with
    | some (v, s) => .ok (some v) s
    | none => .error .currentAssert s

/-- The outcomes of the calls `es` in order, and the singleton after them. -/
def Thread.run : List Event → InternalsImpl → List (Except Exception (Option Float)) × InternalsImpl
  | [], s => ([], s)
  | e :: es, s =>
    match e.step s with
    | .ok v s => ((Thread.run es s).1.cons (.ok v), (Thread.run es s).2)
    | .error .currentAssert s => ([.error .currentAssert], s)
    | .error e s => ((Thread.run es s).1.cons (.error e), (Thread.run es s).2)

theorem Thread.run_cons_ok {e : Event} {es : List Event} {s s' : InternalsImpl} {v : Option Float}
    (h : e.step s = .ok v s') :
    Thread.run (e :: es) s = ((Thread.run es s').1.cons (.ok v), (Thread.run es s').2) := by
  rw [Thread.run, h]

/-! ## The session protocol -/

/-- The singleton after a call is one the call returned or threw with. -/
def Event.Leads (e : Event) (s s' : InternalsImpl) : Prop :=
  (∃ v, e.step s = .ok v s') ∨ ∃ ex, e.step s = .error ex s'

/-- What holds along every run of a thread holds of the singleton it ends with. -/
theorem Thread.run_induction (P : InternalsImpl → Prop)
    (hstep : ∀ (e : Event) (s s' : InternalsImpl), e.Leads s s' → P s → P s')
    (es : List Event) (s : InternalsImpl) (hs : P s) : P (Thread.run es s).2 := by
  induction es generalizing s with
  | nil => exact hs
  | cons e es ih =>
    unfold Thread.run
    split
    · exact ih _ (hstep e _ _ (.inl ⟨_, ‹_›⟩) hs)
    · exact hstep e _ _ (.inr ⟨_, ‹_›⟩) hs
    · exact ih _ (hstep e _ _ (.inr ⟨_, ‹_›⟩) hs)

theorem mk_cases {self dim : Nat} {s : InternalsImpl} {r : EStateM.Result Exception InternalsImpl (List V)}
    (h : X.mk self dim s = r) :
    (¬dim > 0 ∧ r = .error .currentAssert s) ∨
      (dim > 0 ∧ s.xPtr.isSome ∧ r = .error .fnCASConcurrentEvaluationAttemptException s) ∨
      (dim > 0 ∧ s.xPtr = none ∧ s.dim ≠ 0 ∧ r = .error .currentAssert s) ∨
      (dim > 0 ∧ s.xPtr = none ∧ s.dim = 0 ∧
        r = .ok (X.initVector dim []).1
          { s.reset with xPtr := some self, dim := dim, nodeVector := (X.initVector dim []).2 }) := by
  subst h
  by_cases h₁ : dim > 0
  · by_cases h₂ : s.xPtr.isSome
    · exact .inr (.inl ⟨h₁, h₂, by simp [X.mk, h₁, h₂]⟩)
    · have h₂' := Option.not_isSome_iff_eq_none.1 h₂
      by_cases h₃ : s.dim = 0
      · exact .inr (.inr (.inr ⟨h₁, h₂', h₃, by simp [X.mk, h₁, h₂', h₃]⟩))
      · exact .inr (.inr (.inl ⟨h₁, h₂', h₃, by simp [X.mk, h₁, h₂', h₃]⟩))
  · exact .inl ⟨h₁, by simp [X.mk, h₁]⟩

/-- A call other than opening or closing a session leaves `x_ptr_` and `dim_` alone. -/
theorem Event.leads_frame {e : Event} {s s' : InternalsImpl} (h : e.Leads s s')
    (he : ∀ self dim, e ≠ .makeX self dim) (he' : ∀ self, e ≠ .destroyX self) :
    s'.xPtr = s.xPtr ∧ s'.dim = s.dim := by
  cases e with
  | makeX self dim => exact absurd rfl (he self dim)
  | destroyX self => exact absurd rfl (he' self)
  | construct c =>
    obtain ⟨_, ⟨⟩⟩ | ⟨_, ⟨⟩⟩ := h
    exact ⟨rfl, rfl⟩
  | eval index x mode =>
    simp only [Event.Leads, Event.step] at h
    split at h
    · rename_i v s₁ he
      obtain ⟨V, B, rfl⟩ := evalNode_frame he
      obtain ⟨_, ⟨⟩⟩ | ⟨_, ⟨⟩⟩ := h
      exact ⟨rfl, rfl⟩
    · obtain ⟨_, ⟨⟩⟩ | ⟨_, ⟨⟩⟩ := h
      exact ⟨rfl, rfl⟩

theorem Event.null_iff_zero {e : Event} {s s' : InternalsImpl} (h : e.Leads s s')
    (hs : s.xPtr = none ↔ s.dim = 0) : s'.xPtr = none ↔ s'.dim = 0 := by
  cases e with
  | makeX self dim =>
    simp only [Event.Leads, Event.step] at h
    rcases mk_cases (rfl : X.mk self dim s = _) with ⟨-, hr⟩ | ⟨-, -, hr⟩ | ⟨-, -, -, hr⟩ | ⟨hd, -, -, hr⟩ <;>
      rw [hr] at h <;> rcases h with ⟨_, h⟩ | ⟨_, h⟩ <;> cases h
    · exact hs
    · exact hs
    · exact hs
    · simp only [reduceCtorEq, false_iff]
      omega
  | destroyX self =>
    rcases h with ⟨_, h⟩ | ⟨_, h⟩ <;> cases h
    unfold X.destroy
    split
    · simp
    · exact hs
  | construct c => obtain ⟨hp, hd⟩ := Event.leads_frame h (by simp) (by simp); rwa [hp, hd]
  | eval index x mode => obtain ⟨hp, hd⟩ := Event.leads_frame h (by simp) (by simp); rwa [hp, hd]

/-- Which `X` holds the session after a call, given the one that held it before: the protocol
the spec asks for. An `X(dim)` with `dim > 0` takes a free session, `~X()` by the holder releases
it, and no other call changes the holder. -/
def Event.holder : Event → Option Nat → Option Nat
  | .makeX self dim, none => if dim > 0 then some self else none
  | .destroyX self, some h => if h = self then none else some h
  | _, h => h

/-- The holder after the calls `es`, from the holder `h` before them. -/
def sessionHolder (es : List Event) (h : Option Nat) : Option Nat :=
  es.foldl (fun h e => e.holder h) h

/-- Each call moves `x_ptr_` as the protocol moves the holder, from a singleton where `x_ptr_` is
null exactly when `dim_` is `0`. -/
theorem Event.xPtr_holder {e : Event} {s s' : InternalsImpl} (h : e.Leads s s')
    (hs : s.xPtr = none ↔ s.dim = 0) : s'.xPtr = e.holder s.xPtr := by
  cases e with
  | makeX self dim =>
    simp only [Event.Leads, Event.step] at h
    rcases mk_cases (rfl : X.mk self dim s = _) with ⟨hd, hr⟩ | ⟨-, hp, hr⟩ | ⟨-, hp, hd, hr⟩ |
        ⟨hd, hp, -, hr⟩ <;>
      rw [hr] at h <;> rcases h with ⟨_, h⟩ | ⟨_, h⟩ <;> cases h
    · rcases hx : s.xPtr with _ | x <;> simp [Event.holder, hd]
    · obtain ⟨x, hx⟩ := Option.isSome_iff_exists.1 hp
      simp [hx, Event.holder]
    · exact absurd (hs.1 hp) hd
    · simp [hp, Event.holder, hd]
  | destroyX self =>
    rcases h with ⟨_, h⟩ | ⟨_, h⟩ <;> cases h
    rcases hx : s.xPtr with _ | x
    · simp [X.destroy, hx, Event.holder]
    · by_cases he : x = self <;> simp [X.destroy, hx, Event.holder, he]
  | construct c => rw [(Event.leads_frame h (by simp) (by simp)).1]; cases s.xPtr <;> rfl
  | eval index x mode => rw [(Event.leads_frame h (by simp) (by simp)).1]; cases s.xPtr <;> rfl

/-- On every run from a singleton where `x_ptr_` is null exactly when `dim_` is `0`, `x_ptr_` is
the holder the protocol computes from the calls that ran (a failed assertion ends the run). -/
theorem Thread.run_xPtr (es : List Event) (s : InternalsImpl) (hs : s.xPtr = none ↔ s.dim = 0) :
    (Thread.run es s).2.xPtr = sessionHolder (es.take (Thread.run es s).1.length) s.xPtr := by
  induction es generalizing s with
  | nil => rfl
  | cons e es ih =>
    have next : ∀ s', e.Leads s s' → (Thread.run es s').2.xPtr =
        sessionHolder (es.take (Thread.run es s').1.length) (e.holder s.xPtr) := fun s' hl => by
      rw [← Event.xPtr_holder hl hs]
      exact ih s' (Event.null_iff_zero hl hs)
    unfold Thread.run
    split
    · exact next _ (.inl ⟨_, ‹_›⟩)
    · exact Event.xPtr_holder (.inr ⟨_, ‹_›⟩) hs
    · exact next _ (.inr ⟨_, ‹_›⟩)

/-- The session protocol of `X` at a singleton `s` whose session the protocol gives to `holder`,
for an `X(dim)` or `~X()` by the `X` at `self`. -/
structure SessionProtocol (self dim : Nat) (holder : Option Nat) (s : InternalsImpl) : Prop where
  xPtr_eq : s.xPtr = holder
  null_iff_zero : s.xPtr = none ↔ s.dim = 0
  open_iff : (∃ xs s', X.mk self dim s = .ok xs s') ↔ holder = none
  open_throws : ∀ e s', X.mk self dim s = .error e s' →
    e = .fnCASConcurrentEvaluationAttemptException ∧ s' = s
  close_other : holder ≠ some self → X.destroy self s = s

/-- From a singleton with no session, on every run of calls (sessions opened and closed by any
number of `X`, constructions, evaluations), `x_ptr_` is the `X` that opened last among the calls
that ran and has not closed since, and it is null exactly when `dim_` is `0`, so the constructor's
`CURRENT_ASSERT(!meta.dim_)` never fails. An open with `dim > 0` succeeds exactly when no `X`
holds the session. A failing one throws `FnCASConcurrentEvaluationAttemptException` and changes
nothing, and a close by any other `X` changes nothing. -/
theorem session_protocol (s₀ : InternalsImpl) (h₀ : s₀.xPtr = none) (h₁ : s₀.dim = 0)
    (es : List Event) (self dim : Nat) (hdim : 0 < dim) :
    SessionProtocol self dim (sessionHolder (es.take (Thread.run es s₀).1.length) none)
      (Thread.run es s₀).2 := by
  have hs₀ : s₀.xPtr = none ↔ s₀.dim = 0 := by simp [h₀, h₁]
  have hs := Thread.run_induction (fun s => s.xPtr = none ↔ s.dim = 0)
    (fun _ _ _ h hs => Event.null_iff_zero h hs) es s₀ hs₀
  rw [← h₀, ← Thread.run_xPtr es s₀ hs₀]
  refine ⟨rfl, hs, ?_, fun e s' he => ?_, fun hp => by simp [X.destroy, hp]⟩
  · constructor
    · rintro ⟨xs, s', he⟩
      rcases mk_cases he with ⟨h, -⟩ | ⟨-, -, h⟩ | ⟨-, -, -, h⟩ | ⟨-, hp, -, -⟩
      · omega
      · cases h
      · cases h
      · exact hp
    · intro hp
      rcases mk_cases (rfl : X.mk self dim (Thread.run es s₀).2 = _) with
        ⟨h, -⟩ | ⟨-, h, -⟩ | ⟨-, -, h, -⟩ | ⟨-, -, -, h⟩
      · omega
      · simp [hp] at h
      · exact absurd (hs.1 hp) h
      · exact ⟨_, _, h⟩
  · rcases mk_cases he with ⟨h, -⟩ | ⟨-, -, h⟩ | ⟨-, hp, hd, -⟩ | ⟨-, -, -, h⟩
    · omega
    · cases h; exact ⟨rfl, rfl⟩
    · exact absurd (hs.1 hp) hd
    · cases h

theorem session_protocol_two_instances :
    InternalsImpl.initial.xPtr = none ∧ InternalsImpl.initial.dim = 0 ∧ 0 < 1 ∧
      SessionProtocol 2 1 (some 1)
        (Thread.run [.makeX 1 1, .makeX 2 1, .destroyX 2] InternalsImpl.initial).2 :=
  ⟨rfl, rfl, by decide, session_protocol InternalsImpl.initial rfl rfl
    [.makeX 1 1, .makeX 2 1, .destroyX 2] 2 1 (by decide)⟩

/-- `X(d)`, for `d` up to `2^63`, succeeds exactly when `d > 0`, no `X` holds the session and
`dim_` is `0`. It then claims the session for `self`, sets `dim_` to `d`, clears the store, `df_`
and the compiled-evaluation heap, and leaves `node_value_` and `node_computed_` as they were. The
store it builds is `d` blank nodes from `resize`, then variable `i` at node `d + i`, and entry
`i` of the `X` vector is the handle of node `d + i`. -/
theorem mk_ok (self d : Nat) (s s' : InternalsImpl) (xs : List V) (hd : d ≤ 2 ^ 63) :
    X.mk self d s = .ok xs s' ↔
      0 < d ∧ s.xPtr = none ∧ s.dim = 0 ∧
        xs = (List.range d).map (fun i => ⟨BitVec.ofNat 64 (d + i)⟩) ∧
        s' = { s with
          xPtr := some self, dim := d, df := [], heapForCompiledEvaluations := [],
          nodeVector := List.replicate d .zero ++
            (List.range d).map fun i => .variable (BitVec.ofNat 32 i) } := by
  have he := initVector_eq d [] (by simp; omega)
  simp only [List.length_nil, Nat.zero_add, List.nil_append] at he
  constructor
  · intro h
    rcases mk_cases h with ⟨-, h⟩ | ⟨-, -, h⟩ | ⟨-, -, -, h⟩ | ⟨hd0, hp, hdim, h⟩ <;> cases h
    rw [he]
    exact ⟨hd0, hp, hdim, rfl, rfl⟩
  · rintro ⟨hd0, hp, hdim, rfl, rfl⟩
    rcases mk_cases (rfl : X.mk self d s = _) with ⟨h, -⟩ | ⟨-, h, -⟩ | ⟨-, -, h, -⟩ | ⟨-, -, -, h⟩
    · omega
    · simp [hp] at h
    · exact absurd hdim h
    · rw [h, he]
      rfl

theorem mk_ok_fresh :
    2 ≤ 2 ^ 63 ∧
      (X.mk 1 2 InternalsImpl.initial = .ok [⟨2⟩, ⟨3⟩] { InternalsImpl.initial with
          xPtr := some 1, dim := 2, nodeVector := [.zero, .zero, .variable 0, .variable 1] } ↔
        0 < 2 ∧ InternalsImpl.initial.xPtr = none ∧ InternalsImpl.initial.dim = 0 ∧
          [(⟨2⟩ : V), ⟨3⟩] = (List.range 2).map (fun i => ⟨BitVec.ofNat 64 (2 + i)⟩) ∧
          { InternalsImpl.initial with
              xPtr := some 1, dim := 2, nodeVector := [.zero, .zero, .variable 0, .variable 1] } =
            { InternalsImpl.initial with
              xPtr := some 1, dim := 2, df := [], heapForCompiledEvaluations := [],
              nodeVector := List.replicate 2 .zero ++
                (List.range 2).map fun i => .variable (BitVec.ofNat 32 i) }) :=
  ⟨by decide, mk_ok 1 2 _ _ _ (by decide)⟩

/-! ## The value memo across sessions -/

/-- A session at `X(1)` whose first call is `eval_node(2, x, reuse)` on a fresh constant node
returns a value left by an earlier session at the same node index: after a session that
recorded `7.0` at node `2` and evaluated it, the new session's `3.0` at node `2` evaluates to
`7.0`, where a fresh thread gets `3.0` from the same node vector. -/
theorem reuse_reads_earlier_session :
    (Thread.run [.makeX 2 1, .construct (.ofDouble 3.0), .eval 2 [0.0] .reuse]
        (Thread.run [.makeX 1 1, .construct (.ofDouble 7.0), .eval 2 [0.0] .invalidate,
          .destroyX 1] InternalsImpl.initial).2).1 = [.ok none, .ok none, .ok (some 7.0)] ∧
      (Thread.run [.makeX 2 1, .construct (.ofDouble 3.0), .eval 2 [0.0] .reuse]
        InternalsImpl.initial).1 = [.ok none, .ok none, .ok (some 3.0)] ∧
      (Thread.run [.makeX 2 1, .construct (.ofDouble 3.0), .eval 2 [0.0] .reuse]
        (Thread.run [.makeX 1 1, .construct (.ofDouble 7.0), .eval 2 [0.0] .invalidate,
          .destroyX 1] InternalsImpl.initial).2).2.nodeVector =
        (Thread.run [.makeX 2 1, .construct (.ofDouble 3.0), .eval 2 [0.0] .reuse]
          InternalsImpl.initial).2.nodeVector :=
  ⟨rfl, rfl, rfl⟩

/-! ## Function wrappers -/

/-- `f_native`: a native function and the dimension it was built with. -/
structure FNative where
  f : List Float → Float
  dim : Nat

/-- `f_native::operator()`: the native function, at any input. -/
def FNative.call (w : FNative) (x : List Float) : Option Float := some (w.f x)

/-- `f_intermediate`: the handle of a recorded root. -/
structure FIntermediate where
  f : V

/-- `f_intermediate::dim()`: the thread's `dim_`. -/
def FIntermediate.dim (_w : FIntermediate) (s : InternalsImpl) : Nat := s.dim

/-- `f_intermediate::operator()`: `CURRENT_ASSERT(x.size() == dim())`, then `f_(x)`, which is
`eval_node(index_, x, reuse_cache::invalidate)`. -/
def FIntermediate.call (w : FIntermediate) (x : List Float) (s : InternalsImpl) :
    Option (Float × InternalsImpl) :=
  if x.length = w.dim s then evalNode s w.f.index x .invalidate else none

/-- After a session `X(1)` closes, an `f_intermediate` over its variable reports dimension `0`
and fails at an input of one entry; an `f_native` of dimension `1` runs at an input of none. -/
theorem wrapper_dim_after_close :
    FIntermediate.dim ⟨⟨1⟩⟩ (Thread.run [.makeX 1 1, .destroyX 1] InternalsImpl.initial).2 = 0 ∧
      FIntermediate.call ⟨⟨1⟩⟩ [0.0]
        (Thread.run [.makeX 1 1, .destroyX 1] InternalsImpl.initial).2 = none ∧
      (FIntermediate.call ⟨⟨1⟩⟩ [0.0] (Thread.run [.makeX 1 1] InternalsImpl.initial).2).isSome ∧
      ∀ f : List Float → Float, FNative.call ⟨f, 1⟩ [] = some (f []) :=
  ⟨rfl, rfl, rfl, fun _ => rfl⟩

end FnCAS
