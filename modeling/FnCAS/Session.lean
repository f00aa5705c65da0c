import FnCAS.Thread
import FnCAS.Memo

/-! # The value memo within a session

Within a session, user code interleaves constructions with `eval_node` calls. `meaning` is what
the calls return by the recursive meaning of the store at each call, with no memo at all;
`Disciplined` is the discipline the spec asks of `reuse`: every call is on a root well formed
for its input, and a `reuse` call comes after an `invalidate` call and is at the input of the
latest one. Main result: a disciplined session returns exactly `meaning`, whatever the memo held
when it began, and keeps the memo sound for the input of the latest `invalidate` call
(`session_reuse_sound`). The range check of `eval_node` is made in `int32_t`, so the inputs are
those of fewer than `2^31` entries (`session_reuse_int32_size`).
-/

namespace FnCAS

/-- What the calls of a session return by the recursive meaning: `denote(r, x)` for every
`eval_node(r, x, ·)`, in either mode. -/
def meaning : List Event → List NodeImpl → List (Except Exception (Option Float))
  | [], _ => []
  | .construct c :: es, nodes => .ok none :: meaning es (c.perform nodes).2
  | .eval r x _ :: es, nodes => .ok (some (denote nodes x r.toNat)) :: meaning es nodes
  | .makeX _ _ :: _, _ => []
  | .destroyX _ :: _, _ => []

/-- The calls are those of one session, on stores below `2^63` nodes, each `eval_node` on a root
well formed for an input of fewer than `2^31` entries, and each `reuse` call at the input `cur` of
the latest `invalidate` call. -/
def Disciplined : List Event → List NodeImpl → Option (List Float) → Prop
  | [], _, _ => True
  | .construct c :: es, nodes, cur => nodes.length < 2 ^ 63 ∧ Disciplined es (c.perform nodes).2 cur
  | .eval r x .invalidate :: es, nodes, _ =>
    x.length < 2 ^ 31 ∧ WellFormed nodes x r ∧ Disciplined es nodes (some x)
  | .eval r x .reuse :: es, nodes, cur =>
    cur = some x ∧ x.length < 2 ^ 31 ∧ WellFormed nodes x r ∧ Disciplined es nodes cur
  | .makeX _ _ :: _, _, _ => False
  | .destroyX _ :: _, _, _ => False

/-- The input of the latest `invalidate` call, after the calls `es`. -/
def latestInput : List Event → Option (List Float) → Option (List Float)
  | [], cur => cur
  | .eval _ x .invalidate :: es, _ => latestInput es (some x)
  | _ :: es, cur => latestInput es cur

theorem MemoSound.append {nodes : List NodeImpl} {x V : List Float} {B : List Bool}
    (hm : MemoSound nodes x V B) (more : List NodeImpl) : MemoSound (nodes ++ more) x V B :=
  fun j hj => by
    obtain ⟨hj, hv⟩ := hm j hj
    exact ⟨by simp; omega, by rw [hv, denote_append _ hj]⟩

/-- The memo is sound for `cur`, when there is one. -/
def SoundFor (s : InternalsImpl) (cur : Option (List Float)) : Prop :=
  ∀ x, cur = some x → MemoSound s.nodeVector x s.nodeValue s.nodeComputed

/-- What a disciplined `eval_node` call needs: an input of fewer than `2^31` entries, a well formed
root, and a memo sound for its input in the mode of the call. -/
theorem Disciplined.eval {r : NodeIndexType} {x : List Float} {mode : ReuseCache}
    {es : List Event} {s : InternalsImpl} {cur : Option (List Float)}
    (hd : Disciplined (.eval r x mode :: es) s.nodeVector cur) (hs : SoundFor s cur) :
    x.length < 2 ^ 31 ∧ WellFormed s.nodeVector x r ∧
      MemoSound s.nodeVector x s.nodeValue (if mode = .invalidate then [] else s.nodeComputed) ∧
      Disciplined es s.nodeVector (some x) ∧
      latestInput (.eval r x mode :: es) cur = latestInput es (some x) := by
  cases mode with
  | invalidate =>
    obtain ⟨hx, hr, hd⟩ := hd
    exact ⟨hx, hr, by simp [memoSound_nil], hd, rfl⟩
  | reuse =>
    obtain ⟨rfl, hx, hr, hd⟩ := hd
    exact ⟨hx, hr, by simpa using hs x rfl, hd, rfl⟩

/-- The run lemma: a disciplined session returns `meaning` and keeps the memo sound for the input
of the latest `invalidate` call. -/
theorem run_disciplined (es : List Event) (s : InternalsImpl) (cur : Option (List Float))
    (hd : Disciplined es s.nodeVector cur) (hs : SoundFor s cur) :
    (Thread.run es s).1 = meaning es s.nodeVector ∧
      SoundFor (Thread.run es s).2 (latestInput es cur) := by
  induction es generalizing s cur with
  | nil => exact ⟨rfl, hs⟩
  | cons e es ih =>
    cases e with
    | makeX => exact hd.elim
    | destroyX => exact hd.elim
    | construct c =>
      obtain ⟨hlen, hd⟩ := hd
      have he := perform_eq c s.nodeVector (by omega)
      obtain ⟨h₁, h₂⟩ := ih { s with nodeVector := (c.perform s.nodeVector).2 } cur hd
        fun x hx => by simpa [he] using (hs x hx).append (c.appended s.nodeVector.length)
      rw [Thread.run_cons_ok (rfl : Event.step (.construct c) s =
        .ok none { s with nodeVector := (c.perform s.nodeVector).2 }), meaning, ← h₁]
      exact ⟨rfl, h₂⟩
    | eval r x mode =>
      obtain ⟨hx, hr, hm, hd, hlatest⟩ := hd.eval hs
      obtain ⟨V, B, he, hm⟩ := evalNode_memoSound s x r mode hx hr hm
      obtain ⟨h₁, h₂⟩ := ih { s with nodeValue := V, nodeComputed := B } (some x) hd
        fun x' hx' => by cases hx'; exact hm
      rw [Thread.run_cons_ok (by rw [Event.step, he]), meaning, hlatest, ← h₁]
      exact ⟨rfl, h₂⟩

/-- Within a session, from whatever memo the thread holds, a disciplined run of constructions
and `eval_node` calls returns `denote(r, x)` at every call, the `reuse` ones included, and keeps
every set flag of `node_computed_` a node of the current store whose `node_value_` is its meaning
at the input of the latest `invalidate` call. -/
theorem session_reuse_sound (s : InternalsImpl) (es : List Event)
    (hd : Disciplined es s.nodeVector none) :
    (Thread.run es s).1 = meaning es s.nodeVector ∧
      ∀ x, latestInput es none = some x →
        MemoSound (Thread.run es s).2.nodeVector x (Thread.run es s).2.nodeValue
          (Thread.run es s).2.nodeComputed :=
  run_disciplined es s none hd fun _ h => by cases h

theorem session_reuse_sound_shared :
    Disciplined [.eval 1 [3.0] .invalidate, .construct (.operation .add ⟨1⟩ ⟨1⟩),
      .eval 2 [3.0] .reuse] [.value 2.0, .variable 0] none ∧
      (Thread.run [.eval 1 [3.0] .invalidate, .construct (.operation .add ⟨1⟩ ⟨1⟩),
          .eval 2 [3.0] .reuse]
        { InternalsImpl.initial with nodeVector := [.value 2.0, .variable 0] }).1 =
        meaning [.eval 1 [3.0] .invalidate, .construct (.operation .add ⟨1⟩ ⟨1⟩),
          .eval 2 [3.0] .reuse] [.value 2.0, .variable 0] ∧
      ∀ x, latestInput [.eval 1 [3.0] .invalidate, .construct (.operation .add ⟨1⟩ ⟨1⟩),
          .eval 2 [3.0] .reuse] none = some x →
        MemoSound (Thread.run [.eval 1 [3.0] .invalidate, .construct (.operation .add ⟨1⟩ ⟨1⟩),
            .eval 2 [3.0] .reuse]
          { InternalsImpl.initial with nodeVector := [.value 2.0, .variable 0] }).2.nodeVector x
          (Thread.run [.eval 1 [3.0] .invalidate, .construct (.operation .add ⟨1⟩ ⟨1⟩),
            .eval 2 [3.0] .reuse]
            { InternalsImpl.initial with nodeVector := [.value 2.0, .variable 0] }).2.nodeValue
          (Thread.run [.eval 1 [3.0] .invalidate, .construct (.operation .add ⟨1⟩ ⟨1⟩),
            .eval 2 [3.0] .reuse]
            { InternalsImpl.initial with nodeVector := [.value 2.0, .variable 0] }).2.nodeComputed :=
  have hv : WellFormed [.value 2.0, .variable 0] [3.0] 1 :=
    .variable (by decide) rfl ⟨by decide, by decide⟩
  have hd : Disciplined [.eval 1 [3.0] .invalidate, .construct (.operation .add ⟨1⟩ ⟨1⟩),
      .eval 2 [3.0] .reuse] [.value 2.0, .variable 0] none :=
    ⟨by decide, hv, by decide, rfl, by decide,
      .operation (by decide) rfl (by decide) (by decide) (hv.append _) (hv.append _), trivial⟩
  ⟨hd, session_reuse_sound _ _ hd⟩

/-- Within a session of dimension `0 < d < 2^31` whose store is below `2^63` nodes, `eval_node`
with `invalidate` on any handle the session issued returns the handle's meaning at every input
of `d` entries. -/
theorem Recorded.evalNode_denote {d : Nat} {hs : List V} {nodes : List NodeImpl} (hd : 0 < d)
    (hd' : d < 2 ^ 31) (hr : Recorded d hs nodes) (hlen : nodes.length < 2 ^ 63)
    (s : InternalsImpl) (hn : s.nodeVector = nodes) {h : V} (hh : h ∈ hs)
    (x : List Float) (hx : x.length = d) :
    ∃ V' B', evalNode s h.index x .invalidate =
      some (denote nodes x h.index.toNat, { s with nodeValue := V', nodeComputed := B' }) := by
  obtain ⟨ht, hv⟩ := hr.valid hlen
  have hvar := hr.variablesBelow hd (by omega)
  have hw : WellFormed s.nodeVector x h.index := by
    rw [hn]
    exact ht.wellFormedUnder (fun i k hk => by have := hvar i k hk; exact ⟨this.1, by omega⟩)
      (by omega) (hv h hh)
  obtain ⟨V', B', he, -⟩ := evalNode_memoSound s x h.index .invalidate (by omega) hw
    (by simp [memoSound_nil])
  exact ⟨V', B', by rw [he, hn]⟩

/-- Within a session of dimension `0 < d < 2^31` whose store is below `2^63` nodes, an
`f_intermediate` over any handle the session issued returns the handle's meaning at every input
of `d` entries. -/
theorem intermediate_call_denote {d : Nat} {hs : List V} {nodes : List NodeImpl} (hd : 0 < d)
    (hd' : d < 2 ^ 31) (hr : Recorded d hs nodes) (hlen : nodes.length < 2 ^ 63)
    (s : InternalsImpl) (hn : s.nodeVector = nodes) (hdim : s.dim = d) (h : V) (hh : h ∈ hs)
    (x : List Float) (hx : x.length = d) :
    ∃ V' B', FIntermediate.call ⟨h⟩ x s =
      some (denote nodes x h.index.toNat, { s with nodeValue := V', nodeComputed := B' }) := by
  obtain ⟨V', B', he⟩ := hr.evalNode_denote hd hd' hlen s hn hh x hx
  exact ⟨V', B', by rw [FIntermediate.call, FIntermediate.dim, if_pos (by omega), he]⟩

theorem intermediate_call_denote_product :
    0 < 2 ∧ 2 < 2 ^ 31 ∧
      Recorded 2 [⟨4⟩, ⟨2⟩, ⟨3⟩]
        [.variable 0, .variable 0, .variable 0, .variable 1, .operation .multiply 2 3] ∧
      [NodeImpl.variable 0, .variable 0, .variable 0, .variable 1, .operation .multiply 2 3].length <
        2 ^ 63 ∧ (⟨4⟩ : V) ∈ [⟨4⟩, ⟨2⟩, ⟨3⟩] ∧
      ∃ V' B', FIntermediate.call ⟨⟨4⟩⟩ [3.0, 5.0] { InternalsImpl.initial with
          nodeVector := [.variable 0, .variable 0, .variable 0, .variable 1,
            .operation .multiply 2 3], dim := 2 } =
        some (denote [.variable 0, .variable 0, .variable 0, .variable 1, .operation .multiply 2 3]
            [3.0, 5.0] (4 : NodeIndexType).toNat,
          { InternalsImpl.initial with
            nodeVector := [.variable 0, .variable 0, .variable 0, .variable 1,
              .operation .multiply 2 3],
            dim := 2, nodeValue := V', nodeComputed := B' }) :=
  have hr : Recorded 2 [⟨4⟩, ⟨2⟩, ⟨3⟩]
      [.variable 0, .variable 0, .variable 0, .variable 1, .operation .multiply 2 3] :=
    .perform (.operation .multiply ⟨2⟩ ⟨3⟩) .session (by decide)
  ⟨by decide, by decide, hr, by decide, by decide,
    intermediate_call_denote (by decide) (by decide) hr (by decide) _ rfl rfl ⟨4⟩ (by decide)
      [3.0, 5.0] rfl⟩

/-! ## The memo keeps a value for each flag, on every run -/

theorem Event.leads_sized {e : Event} {s s' : InternalsImpl} (h : e.Leads s s')
    (hs : Sized s.nodeValue s.nodeComputed) : Sized s'.nodeValue s'.nodeComputed := by
  cases e with
  | makeX self dim =>
    simp only [Event.Leads, Event.step] at h
    rcases mk_cases (rfl : X.mk self dim s = _) with ⟨-, hr⟩ | ⟨-, -, hr⟩ | ⟨-, -, -, hr⟩ |
        ⟨-, -, -, hr⟩ <;>
      rw [hr] at h <;> rcases h with ⟨_, h⟩ | ⟨_, h⟩ <;> cases h <;> exact hs
  | destroyX self =>
    rcases h with ⟨_, h⟩ | ⟨_, h⟩ <;> cases h
    unfold X.destroy
    split <;> exact hs
  | construct c =>
    obtain ⟨_, ⟨⟩⟩ | ⟨_, ⟨⟩⟩ := h
    exact hs
  | eval index x mode =>
    simp only [Event.Leads, Event.step] at h
    split at h
    · rename_i v s₁ he
      obtain ⟨_, ⟨⟩⟩ | ⟨_, ⟨⟩⟩ := h
      exact evalNode_sized he hs
    · obtain ⟨_, ⟨⟩⟩ | ⟨_, ⟨⟩⟩ := h
      exact hs

/-- On every run of a thread (sessions opened and closed, constructions, `eval_node` in either
mode on any store and input, throws caught), from a singleton in which every set flag of
`node_computed_` has its slot in `node_value_`, every singleton reached keeps that: the
`return V[index]` after `CURRENT_ASSERT(B[index])` stays inside `node_value_`, and a `reuse`
call always starts from a memo `evalNode_recomputes_needed` applies to. -/
theorem run_sized (es : List Event) (s : InternalsImpl) (hs : Sized s.nodeValue s.nodeComputed) :
    Sized (Thread.run es s).2.nodeValue (Thread.run es s).2.nodeComputed :=
  Thread.run_induction (fun s => Sized s.nodeValue s.nodeComputed)
    (fun _ _ _ h hs => Event.leads_sized h hs) es s hs

theorem run_sized_two_sessions :
    Sized InternalsImpl.initial.nodeValue InternalsImpl.initial.nodeComputed ∧
      Sized (Thread.run [.makeX 1 1, .construct (.ofDouble 7.0), .eval 2 [0.0] .invalidate,
          .destroyX 1, .makeX 2 1, .eval 1 [5.0] .reuse] InternalsImpl.initial).2.nodeValue
        (Thread.run [.makeX 1 1, .construct (.ofDouble 7.0), .eval 2 [0.0] .invalidate,
          .destroyX 1, .makeX 2 1, .eval 1 [5.0] .reuse] InternalsImpl.initial).2.nodeComputed :=
  have h : Sized InternalsImpl.initial.nodeValue InternalsImpl.initial.nodeComputed :=
    fun _ h => absurd h (by simp [InternalsImpl.initial])
  ⟨h, run_sized _ _ h⟩

end FnCAS
