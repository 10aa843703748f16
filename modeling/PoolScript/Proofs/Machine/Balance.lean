import PoolScript.Machine
import PoolScript.Proofs.Machine.Variables

/-!
# Machines keep their heaps balanced

What a running script holds on to is in its variables, in its control and in the layers of
its continuation: the left operand of an operator that waits for the right one, the arguments
that are there already, the array that is being walked. A configuration is *sound* if its
heap is balanced for all of these (`Machine.Sound`), with as many calls open as its
continuation will leave.

Every step of a machine keeps configurations sound (`Machine.step_sound`), whichever layer it
takes away: what the layer holds goes on to the control, to the heap, or is given back. So a
run that has ended holds nothing but its result (`Machine.run_sound`).
-/

namespace PoolScript

open Heap (nothing single)

namespace Cont

/-- The values that a continuation holds. -/
def values : {a : Awaits} → Cont a → Multiset Value
  | _, .halt => 0
  | _, .rightOperand _ _ k => k.values
  | _, .operator _ lhs k => {lhs} + k.values
  | _, .negation k => k.values
  | _, .subscript _ k => k.values
  | _, .argument _ _ given _ k => given + k.values
  | _, .result k => k.values
  | _, .test _ _ _ k => k.values
  | _, .sequence _ _ _ k => k.values
  | _, .discard k => k.values
  | _, .assign _ k => k.values
  | _, .storedValue _ _ k => k.values
  | _, .store _ key k => {key} + k.values
  | _, .loopTest _ _ k => k.values
  | _, .loopBody _ _ k => k.values
  | _, .rangeLast _ _ _ k => k.values
  | _, .rangeBegin _ _ _ k => k.values
  | _, .rangeBody _ _ _ _ k => k.values
  | _, .eachBegin _ _ _ k => k.values
  | _, .eachBody _ _ _ subject _ _ k => {subject} + k.values
  | _, .returnValue k => k.values

/-- A continuation that leaves `n` calls. All of its layers but the last belong to one. -/
def Over (n : Nat) : {a : Awaits} → Cont a → Prop
  | _, .halt => n = 0
  | _, .rightOperand _ _ k => 0 < n ∧ k.Over n
  | _, .operator _ _ k => 0 < n ∧ k.Over n
  | _, .negation k => 0 < n ∧ k.Over n
  | _, .subscript _ k => 0 < n ∧ k.Over n
  | _, .argument _ _ _ _ k => 0 < n ∧ k.Over n
  | _, .result k => ∃ n', n = n' + 1 ∧ k.Over n'
  | _, .test _ _ _ k => 0 < n ∧ k.Over n
  | _, .sequence _ _ _ k => 0 < n ∧ k.Over n
  | _, .discard k => 0 < n ∧ k.Over n
  | _, .assign _ k => 0 < n ∧ k.Over n
  | _, .storedValue _ _ k => 0 < n ∧ k.Over n
  | _, .store _ _ k => 0 < n ∧ k.Over n
  | _, .loopTest _ _ k => 0 < n ∧ k.Over n
  | _, .loopBody _ _ k => 0 < n ∧ k.Over n
  | _, .rangeLast _ _ _ k => 0 < n ∧ k.Over n
  | _, .rangeBegin _ _ _ k => 0 < n ∧ k.Over n
  | _, .rangeBody _ _ _ _ k => 0 < n ∧ k.Over n
  | _, .eachBegin _ _ _ k => 0 < n ∧ k.Over n
  | _, .eachBody _ _ _ _ _ _ k => 0 < n ∧ k.Over n
  | _, .returnValue k => 0 < n ∧ k.Over n

/-- Statements are run inside of a call. -/
theorem Over.pos {n : Nat} {k : Cont .signal} (h : k.Over n) : 0 < n := by
  cases k with
  | result k => obtain ⟨n', rfl, -⟩ := h; exact Nat.succ_pos n'
  | _ => exact h.1

end Cont

namespace Control

/-- The values that a control and its continuation hold. -/
def values : Control → Multiset Value
  | .eval _ k => k.values
  | .value v k => {v} + k.values
  | .block _ _ k => k.values
  | .signal _ k => k.values
  | .failing _ k => k.values

/-- A control for `n` open calls. A failure leaves the calls open that it passes. -/
def Over (n : Nat) : Control → Prop
  | .eval _ k => 0 < n ∧ k.Over n
  | .value _ k => k.Over n
  | .block _ _ k => k.Over n
  | .signal _ k => k.Over n
  | .failing _ _ => True

/-- The fault that a control fails for is one of `bad`. -/
def FailsOf (bad : Fault → Prop) : Control → Prop
  | .failing f _ => bad f.fault
  | _ => True

end Control

namespace Machine

/-- The heap is balanced for what the machine holds and `m`, the calls are those that the
    continuation will leave, and a failure is one of `bad`. -/
structure Sound (bad : Fault → Prop) (m : Multiset Value) (pins : Set Value)
    (c : Control × State) : Prop where
  balanced : c.2.Balanced (c.1.values + m) pins
  calls : c.1.Over c.2.frames.length
  fails : c.1.FailsOf bad

end Machine

/-- The faults that a host function ends with are among `bad`. -/
def HostProgram.FailsOf (bad : Fault → Prop) (p : HostProgram) : Prop :=
  ∀ {s s' : State} {m : Multiset Value} {pins : Set Value} {f : Fault}, s.Balanced m pins →
    s.frames ≠ [] → s.runHost p = (.error f, s') → bad f

/-- All host functions end with faults among `bad`. -/
def Code.HostFailsOf (code : Code) (bad : Fault → Prop) : Prop :=
  ∀ name f, code.host.get? name = some f → f.body.FailsOf bad

/-- A host function may fail for anything. -/
theorem Code.hostFailsOf_true (code : Code) : code.HostFailsOf fun _ => True :=
  fun _ _ _ _ _ _ _ _ _ _ _ => trivial

namespace Machine

variable {bad : Fault → Prop} {m : Multiset Value} {pins : Set Value} {code : Code} {s : State}
  {c : Control} {n : Nat} {v : Value} {signal : Signal} {a : Awaits}

/-! ### Handing on -/

section
variable (hbad : ∀ f : Fault, ¬f.Dangling → bad f)
include hbad

theorem failing_sound {f : Fault} {k : Cont a} (hb : s.Balanced (k.values + m) pins)
    (hf : ¬f.Dangling) : Sound bad m pins (.failing (.of f) k, s) :=
  ⟨hb, trivial, hbad f hf⟩

theorem settle_sound {k : Cont .value} {r : Except Fault Value × State}
    (h : State.Yields single (k.values + m) pins n r) (hk : k.Over n) :
    Sound bad m pins (settle k r) := by
  obtain ⟨r, s⟩ := r
  cases r with
  | ok v =>
    refine ⟨?_, h.depth ▸ hk, trivial⟩
    have := h.of_ok
    rwa [← add_assoc] at this
  | error f => exact failing_sound hbad h.of_error.1 h.of_error.2

theorem complete_sound {k : Cont .signal} {r : Except Fault Unit × State}
    (h : State.Yields nothing (k.values + m) pins n r) (hk : k.Over n) :
    Sound bad m pins (complete signal k r) := by
  obtain ⟨r, s⟩ := r
  cases r with
  | ok u => exact ⟨zero_add (k.values + m) ▸ h.of_ok, h.depth ▸ hk, trivial⟩
  | error f => exact failing_sound hbad h.of_error.1 h.of_error.2

/-! ### Calls -/

theorem leave_sound {k : Cont .value} (hb : s.Balanced (k.values + m) pins)
    (hs : s.frames.length = n + 1) (hk : k.Over n) (order : TearDown) :
    Sound bad m pins (settle k ((s.leave order).map .ok id)) := by
  have hne : s.frames ≠ [] := List.ne_nil_of_length_eq_add_one hs
  obtain ⟨hl, hn⟩ := hb.leave hne order
  generalize s.leave order = r at hl hn ⊢
  have hr : r.2.frames.length = n := by omega
  exact settle_sound hbad (.ok hl hr) hk

theorem call_sound {k : Cont .value} {args : List Value}
    (hb : s.Balanced (args + (k.values + m)) pins) (hk : k.Over s.frames.length)
    (hosts : code.HostFailsOf bad) (name callee : String) :
    Sound bad m pins (call code name callee args k s) := by
  rw [call]
  split
  · next i hi =>
    obtain ⟨heap, frames, out, journal⟩ := s
    rw [State.Balanced, add_left_comm] at hb
    have hc := Heap.Balanced.intrinsic_call hb i out
    exact settle_sound hbad ⟨hc, rfl⟩ hk
  · split
    · next f hf =>
      rcases hb.enter code.maxDepth f.name f.params with ⟨s', he, hb', hn⟩ | ⟨s', he, hb', hn⟩
      · -- A host function that fails leaves its call open, for the failure to close.
        have hs' : s'.frames ≠ [] := List.ne_nil_of_length_eq_add_one hn
        obtain ⟨hr, hrn, -⟩ := hb'.runHost hs' f.body
        rw [he]
        simp only
        split
        · next e s'' hr' =>
          rw [hr'] at hr
          exact ⟨hr, trivial, hosts callee f hf hb' hs' hr'⟩
        · next s'' hr' =>
          rw [hr'] at hr hrn
          exact leave_sound hbad hr (hrn.trans hn) hk _
      · rw [he]
        exact failing_sound hbad hb' (by rintro ⟨⟩)
    · split
      · next f _ =>
        -- A function of the script has its call open when its body begins.
        rcases hb.enter code.maxDepth f.name f.params with ⟨s', he, hb', hn⟩ | ⟨s', he, hb', hn⟩
        · rw [he]
          exact ⟨hb', ⟨s.frames.length, hn, hk⟩, trivial⟩
        · rw [he]
          exact failing_sound hbad hb' (by rintro ⟨⟩)
      · exact failing_sound hbad hb.releaseAll (by rintro ⟨⟩)

omit hbad in
theorem exists_callee (hb : s.Balanced m pins) (hs : s.frames ≠ []) (name : String) :
    ∃ target, callee name s = .ok target := by
  obtain ⟨frame, frames, -, hl⟩ := State.Balanced.exists_lookup hs name
  rw [callee]
  split
  · next h hh =>
    obtain ⟨text, ht⟩ := Heap.Balanced.str (hb.lookup_live hh)
    exact ⟨text, ht⟩
  · exact ⟨name, rfl⟩
  · next f hf => cases hl.symm.trans hf

/-! ### Expressions -/

theorem evaluate_sound {k : Cont .value} (hb : s.Balanced (k.values + m) pins)
    (hk : k.Over s.frames.length) (hs : 0 < s.frames.length) (hosts : code.HostFailsOf bad)
    (e : Expr) : Sound bad m pins (evaluate code e k s) := by
  have hne := List.length_pos_iff.1 hs
  cases e with
  | int => exact settle_sound hbad (.ok (hb.number rfl) rfl) hk
  | float => exact settle_sound hbad (.ok (hb.number rfl) rfl) hk
  | str text =>
    exact settle_sound hbad (State.Balanced.onHeap (Heap.Balanced.yields_allocString hb text)) hk
  | var name => exact settle_sound hbad (hb.load hne name) hk
  | index name sub => exact ⟨hb, ⟨hs, hs, hk⟩, trivial⟩
  | binary op lhs rhs => exact ⟨hb, ⟨hs, hs, hk⟩, trivial⟩
  | neg operand => exact ⟨hb, ⟨hs, hs, hk⟩, trivial⟩
  | call name args =>
    obtain ⟨target, ht⟩ := exists_callee hb hne name
    simp only [evaluate, ht]
    cases args with
    | nil => exact call_sound hbad (by simpa using hb) hk hosts name target
    | cons arg rest =>
      refine ⟨?_, ⟨hs, hs, hk⟩, trivial⟩
      simpa [Control.values, Cont.values] using hb

/-! ### Loops -/

theorem countFrom_sound {k : Cont .signal} (hb : s.Balanced (k.values + m) pins)
    (hk : k.Over s.frames.length) (var : String) (i last : Int64) (body : List Stmt) :
    Sound bad m pins (countFrom var i last body k s) := by
  rw [countFrom]
  split
  · have hs := State.Balanced.bind (v := .int i) (hb.number rfl)
      (List.length_pos_iff.1 hk.pos) var
    generalize s.bind var (.int i) = r at hs ⊢
    obtain ⟨r, s'⟩ := r
    cases r with
    | ok u =>
      have hb' : s'.Balanced (k.values + m) pins := zero_add (k.values + m) ▸ hs.of_ok
      exact ⟨hb', ⟨hs.depth ▸ hk.pos, hs.depth ▸ hk⟩, trivial⟩
    | error f => exact failing_sound hbad hs.of_error.1 hs.of_error.2
  · exact ⟨hb, hk, trivial⟩

/-- A round of a walk binds the key and the value of the cell, then the body is to be done. -/
theorem walkFrom_sound {k : Cont .signal} {subject : Value}
    (hb : s.Balanced ({subject} + (k.values + m)) pins) (hk : k.Over s.frames.length)
    (key value : String) (body : List Stmt) (cell : Option Handle) :
    Sound bad m pins (walkFrom key value body subject cell k s) := by
  have release {s : State} (hb : s.Balanced ({subject} + (k.values + m)) pins) :
      (s.releaseAll [subject]).Balanced (k.values + m) pins := hb.releaseAll
  cases cell with
  | none => exact ⟨release hb, hk, trivial⟩
  | some h =>
    have he := Heap.Balanced.entry hb h
    simp only [walkFrom, State.onHeap]
    generalize Heap.entry h s.heap = r at he ⊢
    rcases r with ⟨f | _ | ⟨a, b⟩, heap⟩
    · exact failing_sound hbad (release (s := ⟨heap, s.frames, s.out, s.journal⟩) he.1) he.2
    · have hb' : heap.Balanced (s.values + ({subject} + (k.values + m))) pins := by
        simpa [Heap.Yields] using he
      exact ⟨release (s := ⟨heap, s.frames, s.out, s.journal⟩) hb', hk, trivial⟩
    · have hs := List.length_pos_iff.1 hk.pos
      have hb₁ : State.Balanced ⟨heap, s.frames, s.out, s.journal⟩
          ({a} + ({b} + ({subject} + (k.values + m)))) pins := by
        rw [State.Balanced, ← add_assoc ({a} : Multiset Value), add_left_comm]
        exact he
      have h₁ := hb₁.bind hs key
      simp only
      generalize State.bind key a ⟨heap, s.frames, s.out, s.journal⟩ = r at h₁ ⊢
      obtain ⟨r, s₁⟩ := r
      cases r with
      | error f =>
        refine failing_sound hbad (State.Balanced.releaseAll ?_) h₁.of_error.2
        rw [Heap.coe_pair, add_assoc]
        exact h₁.of_error.1
      | ok u =>
        have hn₁ : s₁.frames.length = s.frames.length := h₁.depth
        have hb₂ : s₁.Balanced ({b} + ({subject} + (k.values + m))) pins :=
          zero_add ({b} + ({subject} + (k.values + m))) ▸ h₁.of_ok
        -- Binding the key has given back what the variable held before, and only that.
        have h₂ := hb₂.bind (by rwa [← List.length_pos_iff, hn₁, List.length_pos_iff]) value
        simp only
        generalize State.bind value b s₁ = r at h₂ ⊢
        obtain ⟨r, s₂⟩ := r
        have hn₂ : s₂.frames.length = s.frames.length := h₂.depth.trans hn₁
        cases r with
        | error f => exact failing_sound hbad (release h₂.of_error.1) h₂.of_error.2
        | ok u =>
          refine ⟨?_, ⟨hn₂ ▸ hk.pos, hn₂ ▸ hk⟩, trivial⟩
          have hb₃ := h₂.of_ok
          rw [zero_add, ← add_assoc] at hb₃
          exact hb₃

/-! ### Values and signals -/

theorem receive_sound {k : Cont .value} (hb : s.Balanced ({v} + (k.values + m)) pins)
    (hk : k.Over s.frames.length) (hosts : code.HostFailsOf bad) :
    Sound bad m pins (receive code v k s) := by
  cases k with
  | halt => exact ⟨add_assoc {v} _ m ▸ hb, hk, trivial⟩
  | rightOperand op rhs k => exact ⟨add_assoc {v} _ m ▸ hb, ⟨hk.1, hk⟩, trivial⟩
  | operator op lhs k =>
    -- What the machine holds comes in another order from the one that the operator takes it in.
    refine settle_sound hbad (State.Balanced.onHeap (Heap.Balanced.binary ?_ _ op)) hk.2
    have hm : s.values + ({v} + ({lhs} + k.values + m)) =
        {lhs} + ({v} + (s.values + (k.values + m))) := by abel
    exact hm ▸ hb
  | negation k =>
    refine settle_sound hbad (State.Balanced.onHeap (Heap.Balanced.negate ?_)) hk.2
    rw [add_left_comm]
    exact hb
  | subscript name k =>
    exact settle_sound hbad (hb.loadElement (List.length_pos_iff.1 hk.1) name) hk.2
  | argument name target given rest k =>
    cases rest with
    | nil =>
      refine call_sound hbad ?_ hk.2 hosts name target
      rw [Multiset.coe_reverse, Heap.coe_cons_add]
      rwa [Cont.values, add_assoc (given : Multiset Value)] at hb
    | cons arg rest =>
      refine ⟨?_, ⟨hk.1, hk⟩, trivial⟩
      change s.Balanced ((v :: given : List Value) + k.values + m) pins
      rw [add_assoc, Heap.coe_cons_add]
      rwa [Cont.values, add_assoc] at hb
  | test line body rest k =>
    have hb' : (s.releaseAll [v]).Balanced (k.values + m) pins := hb.releaseAll
    simp only [receive]
    split
    · exact ⟨hb', ⟨hk.1, hk.2⟩, trivial⟩
    · exact ⟨hb', hk.2, trivial⟩
    · exact ⟨hb', trivial, hbad _ (by rintro ⟨⟩)⟩
  | discard k => exact ⟨hb.releaseAll, hk.2, trivial⟩
  | assign name k => exact complete_sound hbad (hb.bind (List.length_pos_iff.1 hk.1) name) hk.2
  | storedValue name e k => exact ⟨add_assoc {v} _ m ▸ hb, ⟨hk.1, hk⟩, trivial⟩
  | store name key k =>
    refine complete_sound hbad
      (State.Balanced.storeElement ?_ (List.length_pos_iff.1 hk.1) name) hk.2
    rwa [Cont.values, add_assoc, add_left_comm] at hb
  | loopTest cond body k =>
    have hb' : (s.releaseAll [v]).Balanced (k.values + m) pins := hb.releaseAll
    simp only [receive]
    split
    · exact ⟨hb', ⟨hk.1, hk.2⟩, trivial⟩
    · exact ⟨hb', hk.2, trivial⟩
    · exact failing_sound hbad hb' (by rintro ⟨⟩)
  | rangeLast var last body k =>
    have hb' : (s.releaseAll [v]).Balanced (k.values + m) pins := hb.releaseAll
    cases v with
    | int first => exact ⟨hb.of_number rfl, ⟨hk.1, hk⟩, trivial⟩
    | _ => exact failing_sound hbad hb' (by rintro ⟨⟩)
  | rangeBegin var first body k =>
    have hb' : (s.releaseAll [v]).Balanced (k.values + m) pins := hb.releaseAll
    cases v with
    | int last => exact countFrom_sound hbad (hb.of_number rfl) hk.2 var first last body
    | _ => exact failing_sound hbad hb' (by rintro ⟨⟩)
  | eachBegin key value body k =>
    have hb' : (s.releaseAll [v]).Balanced (k.values + m) pins := hb.releaseAll
    cases v with
    | array h =>
      have hl := hb.live (v := .array h) (by simp)
      obtain ⟨link, hl⟩ := Heap.live_array.1 hl
      simp only [receive, Heap.first_eq_ok.2 hl]
      exact walkFrom_sound hbad hb hk.2 key value body link
    | _ => exact failing_sound hbad hb' (by rintro ⟨⟩)
  | returnValue k => exact complete_sound hbad (hb.bind (List.length_pos_iff.1 hk.1) _) hk.2

theorem resume_sound {k : Cont .signal} (hb : s.Balanced (k.values + m) pins)
    (hk : k.Over s.frames.length) (code : Code) (signal : Signal) :
    Sound bad m pins (resume code signal k s) := by
  cases k with
  | result k =>
    obtain ⟨n, hn, hk⟩ := hk
    exact leave_sound hbad hb hn hk _
  | sequence line chain rest k => cases signal <;> exact ⟨hb, hk.2, trivial⟩
  | loopBody cond body k =>
    cases signal with
    | normal => exact ⟨hb, ⟨hk.1, hk⟩, trivial⟩
    | continued => exact ⟨hb, ⟨hk.1, hk⟩, trivial⟩
    | broke => exact ⟨hb, hk.2, trivial⟩
    | returned => exact ⟨hb, hk.2, trivial⟩
  | rangeBody var i last body k =>
    have next : Sound bad m pins (if i = Int64.maxValue then (.signal .normal k, s)
        else countFrom var (i + 1) last body k s) := by
      split
      · exact ⟨hb, hk.2, trivial⟩
      · exact countFrom_sound (k := k) hbad hb hk.2 ..
    cases signal with
    | normal => exact next
    | continued => exact next
    | broke => exact ⟨hb, hk.2, trivial⟩
    | returned => exact ⟨hb, hk.2, trivial⟩
  | eachBody key value body subject cell next k =>
    rw [Cont.values, add_assoc] at hb
    cases signal with
    | normal => exact walkFrom_sound hbad hb hk.2 ..
    | continued => exact walkFrom_sound hbad hb hk.2 ..
    | broke => exact ⟨hb.releaseAll, hk.2, trivial⟩
    | returned => exact ⟨hb.releaseAll, hk.2, trivial⟩

/-! ### Statements -/

theorem execute_sound {k : Cont .signal} (hb : s.Balanced (k.values + m) pins)
    (hk : k.Over s.frames.length) (chain : Chain) (stmts : List Stmt) :
    Sound bad m pins (execute chain stmts k, s) := by
  have hp := hk.pos
  cases stmts with
  | nil => exact ⟨hb, hk, trivial⟩
  | cons stmt rest =>
    cases stmt with
    | elseIf line cond body =>
      cases chain with
      | absent => exact ⟨hb, trivial, hbad _ (by rintro ⟨⟩)⟩
      | untaken => exact ⟨hb, ⟨hp, hp, hk⟩, trivial⟩
      | taken => exact ⟨hb, hk, trivial⟩
    | elseThen line body =>
      cases chain with
      | absent => exact ⟨hb, trivial, hbad _ (by rintro ⟨⟩)⟩
      | untaken => exact ⟨hb, ⟨hp, hk⟩, trivial⟩
      | taken => exact ⟨hb, hk, trivial⟩
    | ret line value =>
      cases value with
      | none => exact ⟨hb, hk, trivial⟩
      | some e => exact ⟨hb, ⟨hp, hp, hp, hk⟩, trivial⟩
    | empty => exact ⟨hb, hk, trivial⟩
    | «break» => exact ⟨hb, hk, trivial⟩
    | «continue» => exact ⟨hb, hk, trivial⟩
    | ifThen => exact ⟨hb, ⟨hp, hp, hk⟩, trivial⟩
    | _ => exact ⟨hb, ⟨hp, hp, hp, hk⟩, trivial⟩

/-! ### Failing -/

omit hbad in
theorem fail_sound {f : Failure} {k : Cont a} (hb : s.Balanced (k.values + m) pins)
    (hf : bad f.fault) : Sound bad m pins (fail f k s) := by
  cases k with
  | operator op lhs k =>
    rw [Cont.values, add_assoc] at hb
    exact ⟨hb.releaseAll, trivial, hf⟩
  | argument name callee given rest k =>
    rw [Cont.values, add_assoc, ← Multiset.coe_reverse] at hb
    exact ⟨hb.releaseAll, trivial, hf⟩
  | store name key k =>
    rw [Cont.values, add_assoc] at hb
    exact ⟨hb.releaseAll, trivial, hf⟩
  | eachBody key value body subject cell next k =>
    rw [Cont.values, add_assoc] at hb
    exact ⟨hb.releaseAll, trivial, hf⟩
  | _ => exact ⟨hb, trivial, hf⟩

/-! ### Running -/

/-- Every step keeps the configuration sound. -/
theorem step_sound (h : Sound bad m pins (c, s)) (hosts : code.HostFailsOf bad) :
    Sound bad m pins (step code c s) := by
  obtain ⟨hb, hk, hf⟩ := h
  cases c with
  | eval e k => exact evaluate_sound hbad hb hk.2 hk.1 hosts e
  | value v k => exact receive_sound hbad (add_assoc {v} k.values m ▸ hb) hk hosts
  | block chain stmts k => exact execute_sound hbad hb hk chain stmts
  | signal signal k => exact resume_sound hbad hb hk code signal
  | failing f k => exact fail_sound hb hf

/-- What a run that has ended leaves behind: all that is held besides `m` is the result. -/
def Ended (bad : Fault → Prop) (m : Multiset Value) (pins : Set Value) :
    Except Failure Value × State → Prop
  | (.ok v, s) => s.Balanced ({v} + m) pins ∧ s.frames = []
  | (.error f, s) => s.Balanced m pins ∧ bad f.fault

omit hbad in
theorem ended_of_result {r : Except Failure Value} (h : Sound bad m pins (c, s))
    (hr : c.result? = some r) : Ended bad m pins (r, s) := by
  obtain ⟨hb, hk, hf⟩ := h
  simp only [Control.result?] at hr
  split at hr
  · next v =>
    cases hr
    refine ⟨?_, List.length_eq_zero_iff.1 hk⟩
    simpa [Control.values, Cont.values] using hb
  · next f =>
    cases hr
    refine ⟨?_, hf⟩
    simpa [Control.values, Cont.values] using hb
  · cases hr

theorem run_sound {fuel : Nat} {r : Except Failure Value × State} (h : Sound bad m pins (c, s))
    (hosts : code.HostFailsOf bad) (hr : run code fuel c s = some r) : Ended bad m pins r := by
  -- Soundness is carried along, and a configuration that has ended keeps only its result.
  induction fuel generalizing c s with
  | zero =>
    rw [run] at hr
    split at hr
    · next hres =>
      cases hr
      exact ended_of_result h hres
    · cases hr
  | succ fuel ih =>
    rw [run] at hr
    split at hr
    · next hres =>
      cases hr
      exact ended_of_result h hres
    · exact ih (step_sound hbad h hosts) hr

end

end Machine

end PoolScript
