import PoolScript.Proofs.Machine.Each
import PoolScript.Proofs.Session.Handles

/-!
# Loops over arrays

Wherever a run of a session, or a call with values that the host holds, comes to a loop over an
array, whatever its body does, the loop visits the elements that have stayed of those that the array
had, in their order (`Session.each_visits`).
-/

namespace PoolScript

/-- The elements of the array `a`, with their cells. -/
def Heap.HasElements (heap : Heap) (a : Handle) (elements : List (Handle × Element)) : Prop :=
  ∃ link, heap.cells.get? a = some (.head link) ∧ Layout.Chain heap.cells.get? link elements

namespace Session

variable {program : Program} {limits : Limits} {s : Session} {name : String} {args : List Value}
  {m : Multiset Value} {pins : Set Value}

/-- The configurations that runs come to, and calls with values that the host holds. -/
inductive Comes (program : Program) (limits : Limits) : Code → Control × State → Prop
  | run {s : Session} (h : Reached program limits s) (n : Nat) :
      Comes program limits s.code (s.inCall "main" [] s.cleared n)
  | call {s : Session} {pins : Set Value} {name : String} {args : List Value}
      {rest lost : Multiset Value} (h : History program limits pins s (args + rest) lost)
      (n : Nat) : Comes program limits s.code (s.inCall name args s.state n)

theorem inCall_sound {state : State} (hb : state.Balanced (args + m) pins)
    (hf : state.frames = []) (n : Nat) :
    Machine.Sound (fun _ => True) m pins (s.inCall name args state n) := by
  have hs : Machine.Sound (fun _ => True) m pins
      (Machine.call s.code name name args .halt state) := by
    refine Machine.call_sound (fun _ _ => trivial) ?_ ?_ s.code.hostFailsOf_true name name
    · exact (zero_add m).symm ▸ hb
    · exact congrArg List.length hf
  exact Machine.after_sound (fun _ _ => trivial) s.code.hostFailsOf_true hs n

theorem Comes.sound {code : Code} {p : Control × State} (h : Comes program limits code p) :
    ∃ m pins, Machine.Sound (fun _ => True) m pins p := by
  cases h with
  | @run s h n =>
    obtain ⟨hs, hc⟩ := h.wellFormed
    obtain ⟨hb, hf⟩ : s.cleared.Balanced 0 ∅ ∧ s.cleared.frames = [] :=
      State.Balanced.reset hs hc _
    exact ⟨0, ∅, inCall_sound hb hf n⟩
  | @call s pins name args rest lost h n =>
    have hr := h.rests
    have hb : s.state.Balanced (args + rest) pins := by
      rw [State.Balanced, values_of_frames hr.frames, zero_add]
      exact hr.heap
    exact ⟨rest, pins, inCall_sound hb hr.frames n⟩

/-- A loop over an array visits elements that the array had when the loop began, in their order
    and from the first one on. When it comes to its end it has visited all of them that have
    stayed, unless its body has left it, or the last visit has taken away its element and the one
    after it, or a count of references has run over. -/
theorem each_visits (program : Program) (limits : Limits) {code : Code} {l : EachLoop} {s : State}
    (h : Comes program limits code (l.begins, s)) :
    ∃ elements, s.heap.HasElements l.array elements ∧
      ∀ vs c t, l.Trace code s vs (c, t) → EachLoop.Brief (vs.map (·.before) ++ [t]) →
        l.Visits s (elements.map (·.1)) vs ∧
        (l.AtTurn c → (Machine.step code c t).1.HandsTo l.after →
          l.LeftEarly c ∨ EachLoop.Finished s (elements.map (·.1)) vs t ∨
            l.Aborted (Machine.step code c t).1) ∧
        (c.HandsTo l.after ∨ (l.AtTurn c ∧ (Machine.step code c t).1.HandsTo l.after) ∨
          ∃ vs', l.Trace code s vs' (Machine.step code c t)) := by
  obtain ⟨m, pins, hsound⟩ := h.sound
  -- The heap is laid out when the walk begins, so that its elements are known.
  obtain ⟨φ, link, hl, ha⟩ := EachLoop.laid_of_atTurn (.inl rfl) hsound
  refine ⟨φ l.array, ⟨link, ha, hl.chain ha⟩, fun vs c t ht hb => ?_⟩
  obtain ⟨hvisits, hends⟩ := ht.visits hsound hl ha hb
  exact ⟨hvisits, hends, ht.goes_on⟩

/-- A script that walks an array of two elements, and takes both of them away on the way. -/
def stroll : Program :=
  ⟨[⟨"main", [],
    [.assignElement 1 "a" (.int 1) (.int 10), .assignElement 2 "a" (.int 2) (.int 20),
      .forEach 3 "k" "v" (.var "a")
        [.expr 4 (.call "remove" [.var "a", .int 1]), .expr 5 (.call "remove" [.var "a", .int 2])]],
    1⟩]⟩

def strolling : Session :=
  .new stroll .default

/-- The run of `stroll` after `n` steps. -/
def strollAt (n : Nat) : Control × State :=
  strolling.inCall "main" [] strolling.cleared n

/-- The loop of `stroll`. -/
def stroller : EachLoop where
  key := "k"
  value := "v"
  body := [.expr 4 (.call "remove" [.var "a", .int 1]), .expr 5 (.call "remove" [.var "a", .int 2])]
  array := ⟨0, 0⟩
  after := .sequence 3 .absent [] (.result .halt)

/-- The one visit of that loop. -/
def strollVisit : EachLoop.Visit :=
  ⟨⟨2, 0⟩, some ⟨1, 0⟩, (strollAt 14).2, (strollAt 15).2⟩

theorem strollAt_begins : strollAt 14 = (stroller.begins, (strollAt 14).2) := by
  have h : (strollAt 14).1 = stroller.begins := by cbv
  exact Prod.ext h rfl

theorem strollAt_enters :
    strollAt 15 = (stroller.enters strollVisit.cell strollVisit.next, strollVisit.bound) := by
  have h : (strollAt 15).1 = stroller.enters strollVisit.cell strollVisit.next := by cbv
  exact Prod.ext h rfl

theorem strollAt_add (n k : Nat) :
    strollAt (n + k) = Machine.after strolling.code k (strollAt n) :=
  Machine.after_add ..

/-- The visit takes away both elements, so that the loop ends. -/
theorem stroll_trace :
    stroller.Trace strolling.code (strollAt 14).2 [strollVisit] (strollAt 32) := by
  have hstep : Machine.step strolling.code stroller.begins (strollAt 14).2 =
      (stroller.enters strollVisit.cell strollVisit.next, strollVisit.bound) := by
    rw [← strollAt_enters, show 15 = 14 + 1 from rfl, strollAt_add, strollAt_begins]
    rfl
  have hvisit := EachLoop.Trace.begins.visit (.inl rfl) hstep
  rw [← strollAt_enters] at hvisit
  have habove : ∀ i < 17, (strollAt (15 + i)).1.isAbove (stroller.after.layers + 1) := by
    decide +kernel
  rw [show 32 = 15 + 17 from rfl, strollAt_add]
  exact hvisit.inside_after 17 fun i hi => strollAt_add 15 i ▸ habove i hi

/-- The loop of `stroll` visits the first element alone, and ends. -/
theorem stroll_visits :
    Comes stroll .default strolling.code (stroller.begins, (strollAt 14).2) ∧
    ∃ elements, (strollAt 14).2.heap.HasElements stroller.array elements ∧
      stroller.Trace strolling.code (strollAt 14).2 [strollVisit] (strollAt 32) ∧
      EachLoop.Brief [strollVisit.before, (strollAt 32).2] ∧
      stroller.Visits (strollAt 14).2 (elements.map (·.1)) [strollVisit] ∧
      (stroller.LeftEarly (strollAt 32).1 ∨
        EachLoop.Finished (strollAt 14).2 (elements.map (·.1)) [strollVisit] (strollAt 32).2) := by
  have hcomes : Comes stroll .default strolling.code (stroller.begins, (strollAt 14).2) :=
    strollAt_begins ▸ Comes.run (Reached.new .plain) 14
  have hyoung : (strollAt 32).2.heap.cells.Young := of_decide_eq_true (by decide +kernel)
  have hbrief : EachLoop.Brief [strollVisit.before, (strollAt 32).2] :=
    List.isChain_pair.2 fun i => (hyoung i).trans_le (Nat.le_add_left _ _)
  obtain ⟨elements, helements, hvisits⟩ := each_visits stroll .default hcomes
  obtain ⟨hall, hends, -⟩ := hvisits _ _ _ stroll_trace hbrief
  have hturn : (strollAt 32).1 = .signal .normal (stroller.rest ⟨2, 0⟩ (some ⟨1, 0⟩)) := by cbv
  have hhands : (strollAt 33).1 = .signal .normal stroller.after := by cbv
  refine ⟨hcomes, elements, helements, stroll_trace, hbrief, hall, ?_⟩
  rcases hends (.inr ⟨_, _, _, hturn⟩) (.inl ⟨_, hhands⟩) with hleft | hfinished | haborted
  · exact .inl hleft
  · exact .inr hfinished
  · cases hhands.symm.trans haborted

end Session

end PoolScript
