import PoolScript.Proofs.Machine.Each
import PoolScript.Proofs.Machine.Endings
import PoolScript.Proofs.Machine.Frames

/-!
# Counting through a range

A loop through a range evaluates its two bounds and then runs its body, once in each *round*, while
the body may do anything, also with the loop variable. What happens in the course of one such loop
is its *trace* (`RangeLoop.Trace`): the configurations from where the loop begins to where it ends,
with the parts of the loop that were begun until then.

One part leads to another as `RangeLoop.Follows` says, which tells of the parts only what they come
to by themselves. The loop ends in one of two ways: it completes the range (`RangeLoop.Completes`),
or it leaves early, by a jump or a failure (`RangeLoop.Leaves`). From these rules

* the parts are the two bounds and then a round for each number of the range, in ascending order
  from the first one on (`Trace.counts`);
* a loop that completes the range has had all of these (`Trace.ends`);
* a loop of which each part ends does end, also where the last number is the greatest of all
  (`Trace.ends_of_halts`).
-/

namespace PoolScript

/-! ### Numbers -/

/-- The numbers from `a` through `b`. -/
def numbers (a b : Int64) : List Int64 :=
  (List.range (b.toInt + 1 - a.toInt).toNat).map fun n : Nat => .ofInt (a.toInt + n)

section Numbers

variable {a b i : Int64}

/-- To count up is exact below the greatest integer. -/
theorem toInt_succ (h : i ≠ Int64.maxValue) : (i + 1).toInt = i.toInt + 1 := by
  have hlt := Int64.toInt_lt i
  have hle := Int64.le_toInt i
  have hne : i.toInt ≠ Int64.maxValue.toInt := mt Int64.toInt_inj.1 h
  rw [Int64.toInt_maxValue] at hne
  rw [Int64.toInt_add, Int64.toInt_one, Int.bmod_eq_of_le] <;> omega

/-- What is less than something is not the greatest integer. -/
theorem ne_maxValue_of_lt (h : i < b) : i ≠ Int64.maxValue := by
  rintro rfl
  have hlt := Int64.lt_iff_toInt_lt.1 h
  have hmax := Int64.toInt_lt b
  rw [Int64.toInt_maxValue] at hlt
  omega

/-- The next number is still in the range if this one was not the last. -/
theorem succ_le_iff (h : i ≠ Int64.maxValue) : i + 1 ≤ b ↔ i < b := by
  rw [Int64.le_iff_toInt_le, Int64.lt_iff_toInt_lt, toInt_succ h]
  exact Iff.rfl

/-- None of the numbers is cut off. -/
theorem toInt_numbers (a b : Int64) : (numbers a b).map Int64.toInt =
    (List.range (b.toInt + 1 - a.toInt).toNat).map fun n : Nat => a.toInt + n := by
  rw [numbers, List.map_map]
  refine List.map_congr_left fun n hn => ?_
  have hn := List.mem_range.1 hn
  have hle := Int64.le_toInt a
  have hlt := Int64.toInt_lt b
  exact Int64.toInt_ofInt_of_le (by omega) (by omega)

/-- A range of one number. -/
theorem numbers_self (a : Int64) : numbers a a = [a] := by
  have hone : (a.toInt + 1 - a.toInt).toNat = 1 := by omega
  rw [numbers, hone, List.range_one, List.map_singleton]
  exact congrArg (fun x => [x]) ((congrArg Int64.ofInt (Int.add_zero _)).trans a.ofInt_toInt)

/-- A range whose bounds are the wrong way round is empty. -/
theorem numbers_of_lt (h : b < a) : numbers a b = [] := by
  have hzero : (b.toInt + 1 - a.toInt).toNat = 0 := by
    have := Int64.lt_iff_toInt_lt.1 h
    omega
  rw [numbers, hzero, List.range_zero, List.map_nil]

/-- The range grows by the next number. -/
theorem numbers_succ (ha : a ≤ i) (h : i ≠ Int64.maxValue) :
    numbers a (i + 1) = numbers a i ++ [i + 1] := by
  have hle := Int64.le_iff_toInt_le.1 ha
  have hsucc := toInt_succ h
  have hcount : ((i + 1).toInt + 1 - a.toInt).toNat = (i.toInt + 1 - a.toInt).toNat + 1 := by omega
  have hlast : a.toInt + ((i.toInt + 1 - a.toInt).toNat : Int) = (i + 1).toInt := by omega
  rw [numbers, hcount, List.range_succ, List.map_append, List.map_singleton, hlast,
    Int64.ofInt_toInt]
  rfl

/-- A range that ends earlier is an initial part. -/
theorem prefix_numbers (a : Int64) (h : i ≤ b) : numbers a i <+: numbers a b := by
  have hle := Int64.le_iff_toInt_le.1 h
  refine List.IsPrefix.map _ ?_
  rw [List.prefix_iff_eq_take, List.length_range, List.take_range, Nat.min_eq_left (by omega)]

end Numbers

/-! ### Loops -/

/-- A loop through a range, and what is left to be done after it. -/
structure RangeLoop where
  var : String
  first : Expr
  last : Expr
  body : List Stmt
  after : Cont .signal

namespace RangeLoop

/-- A part of a loop. -/
inductive Part where
  /-- The first bound is evaluated. -/
  | first
  /-- The last bound is evaluated, after the first one came to `a`. -/
  | last (a : Int64)
  /-- The body is run for the number `i` of those up to `b`. -/
  | round (i b : Int64)
deriving DecidableEq

/-- A part of a loop that is begun. -/
structure Event where
  part : Part
  /-- The state in which it is begun. -/
  state : State

variable (l : RangeLoop)

/-- What is left to be done after the first bound. -/
def awaitsFirst : Cont .value :=
  .rangeLast l.var l.last l.body l.after

/-- What is left to be done after the last bound, when the first one is `a`. -/
def awaitsLast (a : Int64) : Cont .value :=
  .rangeBegin l.var a l.body l.after

/-- What is left to be done after the body ran for `i`. -/
def rest (i b : Int64) : Cont .signal :=
  .rangeBody l.var i b l.body l.after

/-- A part is to begin. -/
def control : Part → Control
  | .first => .eval l.first l.awaitsFirst
  | .last a => .eval l.last (l.awaitsLast a)
  | .round i b => .block .absent l.body (l.rest i b)

/-- The loop is to begin. -/
def begins : Control :=
  l.control .first

/-- The part has come to its end. -/
def Finishes (c : Control) : Part → Prop
  | .first => ∃ r, c = .ofResult l.awaitsFirst r
  | .last a => ∃ r, c = .ofResult (l.awaitsLast a) r
  | .round i b => ∃ r, c = .hand (l.rest i b) r

/-- The configurations in the course of a loop that begins in the state `s`, with the parts that
    have been finished until then and the part that the loop is in. -/
inductive Trace (code : Code) (s : State) : List Event → Event → Control × State → Prop
  | begins : Trace code s [] ⟨.first, s⟩ (l.begins, s)
  | turn {es : List Event} {e e' : Event} {c : Control} {t : State} :
      Trace code s es e (c, t) → l.Finishes c e.part →
      Machine.step code c t = (l.control e'.part, e'.state) →
      Trace code s (es ++ [e]) e' (l.control e'.part, e'.state)
  | inside {es : List Event} {e : Event} {c : Control} {t : State} : Trace code s es e (c, t) →
      ¬l.Finishes c e.part → Trace code s es e (Machine.step code c t)

/-- What a bound comes to by itself: an integer or a failure. -/
inductive Bound (code : Code) (e : Expr) (s : State) : Except Failure Int64 × State → Prop
  | int {n : Int64} {t : State} : Machine.Evaluates code e s (.ok (.int n), t) →
      Bound code e s (.ok n, t)
  | other {v : Value} {t : State} : Machine.Evaluates code e s (.ok v, t) → v.asInt? = none →
      Bound code e s (.error (.of (.typeMismatch .int v.type)), t.releaseAll [v])
  | fails {f : Failure} {t : State} : Machine.Evaluates code e s (.error f, t) →
      Bound code e s (.error f, t)

/-- After one part the loop begins another one. -/
inductive Follows (code : Code) : Event → Event → Prop
  | last {s t : State} {a : Int64} : Bound code l.first s (.ok a, t) →
      Follows code ⟨.first, s⟩ ⟨.last a, t⟩
  | enter {s t u : State} {a b : Int64} : Bound code l.last s (.ok b, t) → a ≤ b →
      t.bind l.var (.int a) = (.ok (), u) → Follows code ⟨.last a, s⟩ ⟨.round a b, u⟩
  | again {s t u : State} {i b : Int64} {sig : Signal} : Machine.Runs code l.body s (.ok sig, t) →
      sig = .normal ∨ sig = .continued → i < b → t.bind l.var (.int (i + 1)) = (.ok (), u) →
      Follows code ⟨.round i b, s⟩ ⟨.round (i + 1) b, u⟩

/-- After a part the loop has come to the end of the range. -/
inductive Completes (code : Code) : Event → Except Failure Signal × State → Prop
  | empty {s t : State} {a b : Int64} : Bound code l.last s (.ok b, t) → b < a →
      Completes code ⟨.last a, s⟩ (.ok .normal, t)
  | through {s t : State} {b : Int64} {sig : Signal} : Machine.Runs code l.body s (.ok sig, t) →
      sig = .normal ∨ sig = .continued → Completes code ⟨.round b b, s⟩ (.ok .normal, t)

/-- In a part the loop is left early: the part fails, or the body jumps out of the loop. -/
inductive Leaves (code : Code) : Event → Except Failure Signal × State → Prop
  | first {s t : State} {f : Failure} : Bound code l.first s (.error f, t) →
      Leaves code ⟨.first, s⟩ (.error f, t)
  | last {s t : State} {a : Int64} {f : Failure} : Bound code l.last s (.error f, t) →
      Leaves code ⟨.last a, s⟩ (.error f, t)
  | fails {s t : State} {i b : Int64} {f : Failure} : Machine.Runs code l.body s (.error f, t) →
      Leaves code ⟨.round i b, s⟩ (.error f, t)
  | broke {s t : State} {i b : Int64} : Machine.Runs code l.body s (.ok .broke, t) →
      Leaves code ⟨.round i b, s⟩ (.ok .normal, t)
  | returned {s t : State} {i b : Int64} : Machine.Runs code l.body s (.ok .returned, t) →
      Leaves code ⟨.round i b, s⟩ (.ok .returned, t)

end RangeLoop

/-- A variable has the value that was bound to it. -/
theorem State.lookup_of_bind {s s' : State} {name : String} {v : Value}
    (h : s.bind name v = (.ok (), s')) : s'.lookup name = .ok (some v) := by
  obtain ⟨heap, _ | ⟨frame, frames⟩, out, journal⟩ := s
  · cases h
  · obtain rfl := (Prod.mk.inj h).2
    exact congrArg Except.ok (Table.get?_set_self frame.locals name v)

namespace Cont

/-- Nothing but the end of everything becomes `base` when it is put onto it. -/
theorem eq_halt_of_onto {k base : Cont .value} (h : k.onto base = base) : k = .halt := by
  have above {a : Awaits} {j : Cont a} (hl : base.layers = (j.onto base).layers + 1) : False := by
    have := (Machine.onto_above j base).layers_le
    omega
  have hl := congrArg layers h.symm
  cases k with
  | halt => rfl
  | _ => exact (above hl).elim

end Cont

/-- What is handed to the base of the stack is the outcome. -/
theorem Control.result?_of_onto {c : Control} {base : Cont .value} {r : Except Failure Value}
    (h : c.onto base = .ofResult base r) : c.result? = some r := by
  cases r with
  | ok v =>
    cases c with
    | value w k =>
      obtain ⟨rfl, hk⟩ := Control.value.inj h
      rw [Cont.eq_halt_of_onto hk]
      rfl
    | _ => cases h
  | error f =>
    cases c with
    | @failing a g k =>
      obtain ⟨rfl, rfl, hk⟩ := Control.failing.inj h
      rw [Cont.eq_halt_of_onto (eq_of_heq hk)]
      rfl
    | _ => cases h

namespace Machine

variable {code : Code} {s t : State}

/-- A run that comes to a result has come to it already, or it comes to it after a step. -/
theorem run_eq_some {fuel : Nat} {c : Control} {r : Except Failure Value} {s' : State}
    (h : run code fuel c s = some (r, s')) :
    c.result? = some r ∧ s' = s ∨ c.result? = none ∧
      ∃ n < fuel, run code n (step code c s).1 (step code c s).2 = some (r, s') := by
  cases hres : c.result? with
  | some r' =>
    rw [run.eq_def, hres] at h
    cases h
    exact .inl ⟨rfl, rfl⟩
  | none =>
    rw [run.eq_def, hres] at h
    cases fuel with
    | zero => cases h
    | succ n => exact .inr ⟨rfl, n, Nat.lt_succ_self n, h⟩

/-- The machine counts on, or it has come to the end. -/
theorem countFrom_cases (hf : t.frames ≠ []) (var : String) (i b : Int64) (body : List Stmt)
    (k : Cont .signal) :
    (i ≤ b ∧ ∃ u, t.bind var (.int i) = (.ok (), u) ∧
      countFrom var i b body k t = (.block .absent body (.rangeBody var i b body k), u)) ∨
    (b < i ∧ countFrom var i b body k t = (.signal .normal k, t)) := by
  obtain ⟨frame, frames, hframes⟩ := List.exists_cons_of_ne_nil hf
  obtain ⟨u, hbind, -⟩ := State.bind_frames hframes var (.int i)
  by_cases hi : i ≤ b
  · refine .inl ⟨hi, u, hbind, ?_⟩
    simp only [countFrom, if_pos hi, hbind]
  · exact .inr ⟨Int64.not_le.1 hi, if_neg hi⟩

end Machine

namespace RangeLoop

open Machine (Ends Evaluates Runs Stands)

variable {l : RangeLoop} {code : Code} {s t : State} {c : Control} {p : Control × State}
  {es : List Event} {e e' : Event} {q : Except Failure Signal × State} {base : List Frame}

/-! ### Parts -/

/-- The parts of a loop begin with different controls. -/
theorem control_inj {part part' : Part} (h : l.control part = l.control part') : part = part' := by
  cases part with
  | first =>
    cases part' with
    | first => rfl
    | last => cases (Control.eval.inj h).2
    | round => cases h
  | last a =>
    cases part' with
    | first => cases (Control.eval.inj h).2
    | last a' =>
      obtain ⟨-, rfl, -, -⟩ := Cont.rangeBegin.inj (Control.eval.inj h).2
      rfl
    | round => cases h
  | round i b =>
    cases part' with
    | first | last => cases h
    | round i' b' =>
      obtain ⟨-, rfl, rfl, -, -⟩ := Cont.rangeBody.inj (Control.block.inj h).2.2
      rfl

/-- What comes after the loop waits while its first bound is evaluated. -/
theorem after_above_first (l : RangeLoop) : l.after.Above l.awaitsFirst :=
  .layer rfl .refl

/-- What comes after the loop waits while its last bound is evaluated. -/
theorem after_above_last (l : RangeLoop) (a : Int64) : l.after.Above (l.awaitsLast a) :=
  .layer rfl .refl

/-- What comes after the loop waits while its body runs. -/
theorem after_above_rest (l : RangeLoop) (i b : Int64) : l.after.Above (l.rest i b) :=
  .layer rfl .refl

/-- No part begins with the end of the loop. -/
theorem not_handsTo_control (part : Part) : ¬(l.control part).HandsTo l.after := by
  cases part <;> rintro (⟨_, h⟩ | ⟨_, h⟩) <;> cases h

/-- What is within a round is not handed to what comes after the loop. -/
theorem not_handsTo_of_within {i b : Int64} (h : c.Within (l.rest i b)) : ¬c.HandsTo l.after := by
  have hlayers : (l.rest i b).layers = l.after.layers + 1 := rfl
  rintro (⟨sig, rfl⟩ | ⟨f, rfl⟩) <;>
  · have hle := Cont.Above.layers_le h
    omega

/-- A part that finishes without a failure is inside of a call. -/
theorem frames_of_finishes {part : Part} (h : l.Finishes c part) (hs : Stands base (c, t))
    (hc : c.isFailing = false) : t.frames ≠ [] := by
  have hcalls := Cont.calls_pos l.after
  have hlength : t.frames.length = l.after.calls + base.length := by
    cases part with
    | first | last | round =>
      obtain ⟨r, rfl⟩ := h
      cases r with
      | ok => exact hs.length rfl
      | error => cases hc
  exact List.ne_nil_of_length_pos (by omega)

/-- What the loop does in a part, when it has come to the configuration `p`. -/
inductive Doing (l : RangeLoop) (code : Code) : Event → Control × State → Prop
  | first {s t : State} {c : Control}
      (alone : ∀ q, (∃ fuel, Machine.run code fuel c t = some q) → Evaluates code l.first s q) :
      Doing l code ⟨.first, s⟩ (c.onto l.awaitsFirst, t)
  | last {s t : State} {c : Control} {a : Int64}
      (alone : ∀ q, (∃ fuel, Machine.run code fuel c t = some q) → Evaluates code l.last s q) :
      Doing l code ⟨.last a, s⟩ (c.onto (l.awaitsLast a), t)
  | round {s t : State} {c : Control} {i b : Int64} (le : i ≤ b) (within : c.Within (l.rest i b))
      (alone : ∀ q, Ends code (l.rest i b) (c, t) q → Runs code l.body s q) :
      Doing l code ⟨.round i b, s⟩ (c, t)

/-- A loop that begins is in its first part, and nothing has happened. -/
theorem doing_first (s : State) : l.Doing code ⟨.first, s⟩ (l.begins, s) :=
  .first (c := .eval l.first .halt) fun _ h => h

/-- When one part follows another, the loop is where the new one begins. -/
theorem Follows.doing (h : l.Follows code e e') :
    l.Doing code e' (l.control e'.part, e'.state) := by
  have round {i b : Int64} (u : State) (hle : i ≤ b) :
      l.Doing code ⟨.round i b, u⟩ (.block .absent l.body (l.rest i b), u) :=
    .round hle .refl fun _ h => Machine.ends_block_self.1 h
  cases h with
  | last => exact .last (c := .eval l.last .halt) fun _ h => h
  | enter _ hle _ => exact round _ hle
  | again _ _ hlt _ => exact round _ ((succ_le_iff (ne_maxValue_of_lt hlt)).2 hlt)

/-- The loop is over only after a part has finished. -/
theorem Doing.not_handsTo (h : l.Doing code e (c, t)) : ¬c.HandsTo l.after := by
  cases h with
  | first => exact Machine.not_handsTo_onto l.after_above_first _
  | last => exact Machine.not_handsTo_onto (l.after_above_last _) _
  | round _ hw _ => exact not_handsTo_of_within hw

/-- A bound is evaluated further, or it has come to its end. -/
theorem step_alone {e : Expr} {k : Cont .value}
    (alone : ∀ q, (∃ fuel, Machine.run code fuel c t = some q) → Evaluates code e s q) :
    (∃ c' t', Machine.step code (c.onto k) t = (c'.onto k, t') ∧
      ∀ q, (∃ fuel, Machine.run code fuel c' t' = some q) → Evaluates code e s q) ∨
    ∃ r, c.onto k = .ofResult k r := by
  cases hres : c.result? with
  | none =>
    refine .inl ⟨_, _, Machine.step_onto hres, ?_⟩
    rintro q ⟨fuel, hrun⟩
    exact alone q ⟨fuel + 1, by rw [Machine.run, hres]; exact hrun⟩
  | some r => exact .inr ⟨r, Control.onto_of_result hres k⟩

/-- A part goes on until it has finished. -/
theorem Doing.inside (h : l.Doing code e (c, t)) (hfin : ¬l.Finishes c e.part) :
    l.Doing code e (Machine.step code c t) := by
  cases h with
  | first alone =>
    rcases step_alone (k := l.awaitsFirst) alone with ⟨c', t', hstep, alone⟩ | hends
    · exact hstep ▸ .first alone
    · exact absurd hends hfin
  | @last _ _ _ a alone =>
    rcases step_alone (k := l.awaitsLast a) alone with ⟨c', t', hstep, alone⟩ | hends
    · exact hstep ▸ .last alone
    · exact absurd hends hfin
  | round hle hw alone =>
    have hto := mt Control.handsTo_iff.1 hfin
    exact .round hle (Machine.step_within hw hto t) fun q hq => alone q (.step hto hq)

/-- What comes of a part that has finished. -/
inductive Turn (l : RangeLoop) (code : Code) (e : Event) : Control × State → Prop
  | next {e' : Event} : l.Follows code e e' → Turn l code e (l.control e'.part, e'.state)
  | ends {q : Except Failure Signal × State} : l.Completes code e q ∨ l.Leaves code e q →
      Turn l code e (.hand l.after q.1, q.2)

/-- The loop counts on to a next round, or it has come to the end of the range. -/
theorem turn_countFrom {i b : Int64} (hf : t.frames ≠ [])
    (round : ∀ u, i ≤ b → t.bind l.var (.int i) = (.ok (), u) →
      l.Follows code e ⟨.round i b, u⟩) (ends : b < i → l.Completes code e (.ok .normal, t)) :
    l.Turn code e (Machine.countFrom l.var i b l.body l.after t) := by
  rcases Machine.countFrom_cases hf l.var i b l.body l.after with
    ⟨hle, u, hbind, hcount⟩ | ⟨hlt, hcount⟩
  · exact hcount ▸ .next (round u hle hbind)
  · exact hcount ▸ .ends (.inl (ends hlt))

/-- When a part has finished, the loop begins another one, or it ends. -/
theorem Doing.turn (h : l.Doing code e (c, t)) (hfin : l.Finishes c e.part)
    (hf : c.isFailing = false → t.frames ≠ []) : l.Turn code e (Machine.step code c t) := by
  cases h with
  | first alone =>
    obtain ⟨r, hc⟩ := hfin
    have heval := alone _ ⟨0, by rw [Machine.run, Control.result?_of_onto hc]⟩
    rw [hc]
    cases r with
    | error f => exact .ends (.inr (.first (.fails heval)))
    | ok v =>
      cases v with
      | int a => exact .next (.last (.int heval))
      | float | str | array => exact .ends (.inr (.first (.other heval rfl)))
  | last alone =>
    obtain ⟨r, hc⟩ := hfin
    have heval := alone _ ⟨0, by rw [Machine.run, Control.result?_of_onto hc]⟩
    rw [hc] at hf ⊢
    cases r with
    | error f => exact .ends (.inr (.last (.fails heval)))
    | ok v =>
      cases v with
      | int b =>
        exact turn_countFrom (hf rfl) (fun _ hle hbind => .enter (.int heval) hle hbind) fun hlt =>
          .empty (.int heval) hlt
      | float | str | array => exact .ends (.inr (.last (.other heval rfl)))
  | @round s _ _ i b hle _ alone =>
    obtain ⟨r, rfl⟩ := hfin
    have hruns := alone _ (.now r t)
    -- A last round that ends regularly completes the range.
    have through {sig : Signal} (hr : r = .ok sig) (hsig : sig = .normal ∨ sig = .continued)
        (hlt : ¬i < b) : l.Completes code ⟨.round i b, s⟩ (.ok .normal, t) := by
      obtain rfl := Int64.le_antisymm hle (Int64.not_lt.1 hlt)
      exact .through (hr ▸ hruns) hsig
    -- Any other one leads to the next number, unless there is no greater one.
    have again {sig : Signal} (hr : r = .ok sig) (hsig : sig = .normal ∨ sig = .continued) :
        l.Turn code ⟨.round i b, s⟩ (if i = Int64.maxValue then (.signal .normal l.after, t)
          else Machine.countFrom l.var (i + 1) b l.body l.after t) := by
      by_cases hmax : i = Int64.maxValue
      · rw [if_pos hmax]
        exact .ends (.inl (through hr hsig fun hlt => ne_maxValue_of_lt hlt hmax))
      · rw [if_neg hmax]
        refine turn_countFrom (hf (hr ▸ rfl)) (fun _ hle hbind => ?_) fun hlt => through hr hsig ?_
        · exact .again (hr ▸ hruns) hsig ((succ_le_iff hmax).1 hle) hbind
        · exact mt (succ_le_iff hmax).2 (Int64.not_le.2 hlt)
    cases r with
    | error f => exact .ends (.inr (.fails hruns))
    | ok sig =>
      cases sig with
      | normal => exact again rfl (.inl rfl)
      | continued => exact again rfl (.inr rfl)
      | broke => exact .ends (.inr (.broke hruns))
      | returned => exact .ends (.inr (.returned hruns))

/-- Where a part is to begin, it is the one that follows. -/
theorem Turn.follows (h : l.Turn code e p) (hp : p = (l.control e'.part, e'.state)) :
    l.Follows code e e' := by
  cases h with
  | @next e'' h =>
    obtain ⟨part, state⟩ := e'
    obtain ⟨part', state'⟩ := e''
    obtain ⟨hcontrol, hstate⟩ := Prod.mk.inj hp
    obtain rfl := control_inj hcontrol
    obtain rfl : state' = state := hstate
    exact h
  | @ends q =>
    have hover := Control.handsTo_iff.2 ⟨q.1, (Prod.mk.inj hp).1.symm⟩
    exact absurd hover (not_handsTo_control e'.part)

/-! ### Traces -/

namespace Trace

/-- What is at the bottom of the stack stays there in the course of the loop. -/
theorem stands (ht : l.Trace code s es e p) (hs : Stands base (l.begins, s)) : Stands base p := by
  induction ht with
  | begins => exact hs
  | turn _ _ hstep ih => exact hstep ▸ ih.step code
  | inside _ _ ih => exact ih.step code

/-- At any time in its course the loop is in the part that its trace names. -/
theorem doing (ht : l.Trace code s es e p) (hs : Stands base (l.begins, s)) :
    l.Doing code e p := by
  induction ht with
  | begins => exact doing_first s
  | turn ht hfin hstep ih =>
    exact ((ih.turn hfin (frames_of_finishes hfin (ht.stands hs))).follows hstep).doing
  | inside _ hfin ih => exact ih.inside hfin

/-- When a part of a loop has finished, the loop begins another one, or it ends. -/
theorem turns (ht : l.Trace code s es e (c, t)) (hs : Stands base (l.begins, s))
    (hfin : l.Finishes c e.part) : l.Turn code e (Machine.step code c t) :=
  (ht.doing hs).turn hfin (frames_of_finishes hfin (ht.stands hs))

/-- When a part has finished and the next step begins another, the two follow each other by the
    rules. -/
theorem follows (ht : l.Trace code s es e (c, t)) (hs : Stands base (l.begins, s))
    (hfin : l.Finishes c e.part)
    (hstep : Machine.step code c t = (l.control e'.part, e'.state)) : l.Follows code e e' :=
  (ht.turns hs hfin).follows hstep

/-- The trace of a loop goes on until the loop is over. -/
theorem goes_on (ht : l.Trace code s es e (c, t)) (hs : Stands base (l.begins, s)) :
    (Machine.step code c t).1.HandsTo l.after ∨
      ∃ es' e', l.Trace code s es' e' (Machine.step code c t) := by
  by_cases hfin : l.Finishes c e.part
  · have hturn := ht.turns hs hfin
    generalize hp : Machine.step code c t = p at hturn
    cases hturn with
    | next => exact .inr ⟨_, _, ht.turn hfin hp⟩
    | ends => exact .inl (Control.handsTo_iff.2 ⟨_, rfl⟩)
  · exact .inr ⟨es, e, ht.inside hfin⟩

end Trace

/-- Until a loop is over, each configuration is in its trace. -/
theorem trace_after (hs : Stands base (l.begins, s)) (n : Nat) :
    (∃ m ≤ n, (Machine.after code m (l.begins, s)).1.HandsTo l.after) ∨
      ∃ es e, l.Trace code s es e (Machine.after code n (l.begins, s)) := by
  induction n with
  | zero => exact .inr ⟨[], _, .begins⟩
  | succ n ih =>
    rcases ih with ⟨m, hm, hover⟩ | ⟨es, e, ht⟩
    · exact .inl ⟨m, Nat.le_succ_of_le hm, hover⟩
    · rcases ht.goes_on hs with hover | htrace
      · exact .inl ⟨n + 1, Nat.le_refl _, Machine.after_succ code n _ ▸ hover⟩
      · exact .inr (Machine.after_succ code n _ ▸ htrace)

/-! ### Counting -/

/-- The parts of a loop from `a` through `b`. -/
def schedule (a b : Int64) : List Part :=
  .first :: .last a :: (numbers a b).map fun i => .round i b

/-- The parts `es` were before the given one. -/
def Staged (es : List Event) : Part → Prop
  | .first => es = []
  | .last _ => es.map (·.part) = [.first]
  | .round i b => ∃ a, a ≤ i ∧ i ≤ b ∧
    es.map (·.part) ++ [.round i b] = .first :: .last a :: (numbers a i).map fun j => .round j b

/-- The next part comes where the schedule has it. -/
theorem Follows.staged (h : l.Follows code e e') (hes : Staged es e.part) :
    Staged (es ++ [e]) e'.part := by
  cases h with
  | last =>
    obtain rfl : es = [] := hes
    rfl
  | @enter _ _ _ a b _ hle =>
    have hes : es.map (·.part) = [.first] := hes
    refine ⟨a, Int64.le_refl a, hle, ?_⟩
    rw [List.map_append, hes, numbers_self]
    rfl
  | @again _ _ _ i b _ _ _ hlt =>
    obtain ⟨a, ha, -, hes⟩ := hes
    have hmax := ne_maxValue_of_lt hlt
    refine ⟨a, ?_, (succ_le_iff hmax).2 hlt, ?_⟩
    · have hsucc := toInt_succ hmax
      rw [Int64.le_iff_toInt_le] at ha ⊢
      omega
    · rw [List.map_append, List.map_singleton, hes, numbers_succ ha hmax, List.map_append]
      rfl

/-- Parts that were begun one after another are an initial part of a schedule. -/
theorem Staged.order (hes : Staged es e.part) :
    ∃ a b, (es ++ [e]).map (·.part) <+: schedule a b := by
  obtain ⟨part, state⟩ := e
  rw [List.map_append, List.map_singleton]
  cases part with
  | first =>
    obtain rfl : es = [] := hes
    exact ⟨0, 0, List.prefix_append [Part.first] _⟩
  | last a =>
    have hes : es.map (·.part) = [.first] := hes
    exact ⟨a, a, hes ▸ List.prefix_append [Part.first, .last a] _⟩
  | round i b =>
    obtain ⟨a, -, hle, hes⟩ := hes
    have hnumbers := (prefix_numbers a hle).map fun j => Part.round j b
    exact ⟨a, b, hes ▸ (List.prefix_append_right_inj [Part.first, .last a]).2 hnumbers⟩

/-- A loop that completes the range has had all of its parts. -/
theorem Completes.schedule_eq (h : l.Completes code e q) (hes : Staged es e.part) :
    ∃ a b, (es ++ [e]).map (·.part) = schedule a b := by
  rw [List.map_append]
  cases h with
  | @empty _ _ a b _ hlt =>
    have hes : es.map (·.part) = [.first] := hes
    refine ⟨a, b, ?_⟩
    rw [hes, schedule, numbers_of_lt hlt]
    rfl
  | @through _ _ b =>
    obtain ⟨a, -, -, hes⟩ := hes
    exact ⟨a, b, hes⟩

/-- When a round begins, the variable of the loop has its number. -/
theorem Follows.binds (h : l.Follows code e e') {i b : Int64} (hround : e'.part = .round i b) :
    e'.state.lookup l.var = .ok (some (.int i)) := by
  cases h with
  | last => cases hround
  | enter _ _ hbind | again _ _ _ hbind =>
    obtain ⟨rfl, rfl⟩ := Part.round.inj hround
    exact State.lookup_of_bind hbind

/-- What the parts of a loop are that begins in the state `s`. -/
structure Counts (l : RangeLoop) (code : Code) (s : State) (events : List Event) : Prop where
  /-- The first part begins when the loop does. -/
  head : events.head? = some ⟨.first, s⟩
  /-- Each part follows from the one before it. -/
  chain : events.IsChain (l.Follows code)
  /-- The bounds are evaluated once, and there is one round for each number, in their order. None of
      the numbers is cut off. -/
  order : ∃ a b, events.map (·.part) <+: schedule a b ∧ (numbers a b).map Int64.toInt =
    (List.range (b.toInt + 1 - a.toInt).toNat).map fun n : Nat => a.toInt + n
  /-- In each round the loop variable is bound to the number when the body begins. -/
  binds : ∀ e ∈ events, ∀ i b, e.part = .round i b →
    e.state.lookup l.var = .ok (some (.int i))

namespace Trace

/-- The parts of a trace are in the order of the schedule. -/
theorem staged (ht : l.Trace code s es e p) (hs : Stands base (l.begins, s)) :
    Staged es e.part := by
  induction ht with
  | begins => rfl
  | turn ht hfin hstep ih => exact (ht.follows hs hfin hstep).staged ih
  | inside _ _ ih => exact ih

/-- The first part of a trace is the first bound. -/
theorem head_eq (ht : l.Trace code s es e p) : (es ++ [e]).head? = some ⟨.first, s⟩ := by
  induction ht with
  | begins => rfl
  | turn _ _ _ ih =>
    rw [List.head?_append, ih]
    rfl
  | inside _ _ ih => exact ih

/-- In a trace each part follows the one before it. -/
theorem isChain (ht : l.Trace code s es e p) (hs : Stands base (l.begins, s)) :
    (es ++ [e]).IsChain (l.Follows code) := by
  induction ht with
  | begins => exact .singleton _
  | turn ht hfin hstep ih =>
    rw [List.append_assoc]
    exact List.isChain_append_cons_cons.2 ⟨ih, ht.follows hs hfin hstep, .singleton _⟩
  | inside _ _ ih => exact ih

/-- In every round of a trace the variable had the number of the round when it began. -/
theorem binds (ht : l.Trace code s es e p) (hs : Stands base (l.begins, s)) {d : Event}
    (hd : d ∈ es ++ [e]) {i b : Int64} (hround : d.part = .round i b) :
    d.state.lookup l.var = .ok (some (.int i)) := by
  induction ht with
  | begins =>
    obtain rfl := List.mem_singleton.1 hd
    cases hround
  | turn ht hfin hstep ih =>
    rcases List.mem_append.1 hd with hd | hd
    · exact ih hd
    · obtain rfl := List.mem_singleton.1 hd
      exact (ht.follows hs hfin hstep).binds hround
  | inside _ _ ih => exact ih hd

/-- What the parts of a loop are, at any time in its course. -/
theorem counts (ht : l.Trace code s es e p) (hs : Stands base (l.begins, s)) :
    l.Counts code s (es ++ [e]) := by
  obtain ⟨a, b, horder⟩ := (ht.staged hs).order
  exact ⟨ht.head_eq, ht.isChain hs, ⟨a, b, horder, toInt_numbers a b⟩,
    fun _ hd _ _ hround => ht.binds hs hd hround⟩

end Trace

/-! ### Endings -/

/-- A loop that ends does so after one of its parts: it completes the range, with all of the parts,
    or it leaves early. -/
theorem Trace.ends (ht : l.Trace code s es e p) (hs : Stands base (l.begins, s))
    (h : Ends code l.after p q) : ∃ es e p, l.Trace code s es e p ∧
      (l.Leaves code e q ∨
        l.Completes code e q ∧ ∃ a b, (es ++ [e]).map (·.part) = schedule a b) := by
  induction h generalizing es e with
  | now r t => exact absurd (Control.handsTo_iff.2 ⟨r, rfl⟩) (ht.doing hs).not_handsTo
  | @step c t q hover hends ih =>
    by_cases hfin : l.Finishes c e.part
    · have hturn := ht.turns hs hfin
      generalize hp : Machine.step code c t = p at hturn hends ih
      cases hturn with
      | next => exact ih (ht.turn hfin hp)
      | @ends q' h =>
        obtain rfl : q = q' := Machine.ends_hand.1 hends
        refine ⟨es, e, _, ht, ?_⟩
        exact h.symm.imp_right fun h => ⟨h, h.schedule_eq (ht.staged hs)⟩
    · exact ih (ht.inside hfin)

/-- A part of a loop ends, by itself. -/
def Halts (l : RangeLoop) (code : Code) (e : Event) : Prop :=
  match e.part with
  | .first => ∃ q, Evaluates code l.first e.state q
  | .last _ => ∃ q, Evaluates code l.last e.state q
  | .round _ _ => ∃ q, Runs code l.body e.state q

/-- A bound stays in its part until it comes to something. -/
theorem Trace.bound {k : Cont .value} {c : Control} {r : Except Failure Value} {t' : State}
    (ht : l.Trace code s es e (c.onto k, t))
    (hpart : ∀ c : Control, l.Finishes c e.part → ∃ r, c = .ofResult k r) {fuel : Nat}
    (hrun : Machine.run code fuel c t = some (r, t')) :
    l.Trace code s es e (.ofResult k r, t') := by
  induction fuel using Nat.strong_induction_on generalizing c t with
  | _ fuel ih =>
    rcases Machine.run_eq_some hrun with ⟨hres, rfl⟩ | ⟨hres, n, hn, hrun⟩
    · rwa [← Control.onto_of_result hres]
    · have hnot : ¬l.Finishes (c.onto k) e.part := fun hfin => by
        obtain ⟨r, hc⟩ := hpart _ hfin
        cases hres.symm.trans (Control.result?_of_onto hc)
      have hstep := ht.inside hnot
      rw [Machine.step_onto hres] at hstep
      exact ih n hn hstep hrun

/-- A round stays in its part until its body has ended. -/
theorem Trace.round {i b : Int64} (ht : l.Trace code s es e (c, t)) (hpart : e.part = .round i b)
    {r : Except Failure Signal} {t' : State} (hends : Ends code (l.rest i b) (c, t) (r, t')) :
    l.Trace code s es e (.hand (l.rest i b) r, t') := by
  generalize hp : (c, t) = p at hends
  generalize hq : (r, t') = q at hends
  induction hends generalizing c t with
  | now r t =>
    obtain ⟨rfl, rfl⟩ := Prod.mk.inj hp
    obtain ⟨rfl, rfl⟩ := Prod.mk.inj hq
    exact ht
  | step hover _ ih =>
    obtain ⟨rfl, rfl⟩ := Prod.mk.inj hp
    have hnot : ¬l.Finishes c e.part := fun hfin => by
      rw [hpart] at hfin
      exact hover (Control.handsTo_iff.2 hfin)
    exact ih (ht.inside hnot) rfl hq

/-- A part that ends by itself finishes, and the loop goes on from there. -/
theorem Trace.finishes (ht : l.Trace code s es e (l.control e.part, e.state))
    (h : l.Halts code e) : ∃ c t, l.Trace code s es e (c, t) ∧ l.Finishes c e.part ∧
      ∀ q, Ends code l.after (c, t) q → Ends code l.after (l.control e.part, e.state) q := by
  obtain ⟨part, state⟩ := e
  cases part with
  | first =>
    obtain ⟨⟨r, t⟩, fuel, hrun⟩ := h
    refine ⟨_, t, Trace.bound (c := .eval l.first .halt) ht (fun _ h => h) hrun, ⟨r, rfl⟩, ?_⟩
    exact fun q hq => (Machine.ends_eval l.after_above_first).2 ⟨r, t, ⟨fuel, hrun⟩, hq⟩
  | last a =>
    obtain ⟨⟨r, t⟩, fuel, hrun⟩ := h
    refine ⟨_, t, Trace.bound (c := .eval l.last .halt) ht (fun _ h => h) hrun, ⟨r, rfl⟩, ?_⟩
    exact fun q hq => (Machine.ends_eval (l.after_above_last a)).2 ⟨r, t, ⟨fuel, hrun⟩, hq⟩
  | round i b =>
    obtain ⟨⟨r, t⟩, hruns⟩ := h
    refine ⟨_, t, ht.round rfl (Machine.ends_block_self.2 hruns), ⟨r, rfl⟩, ?_⟩
    exact fun q hq => (Machine.ends_block (l.after_above_rest i b)).2 ⟨r, t, hruns, hq⟩

/-- How many parts can still follow. -/
def Part.left : Part → Nat
  | .first => 2 ^ 64 + 1
  | .last _ => 2 ^ 64
  | .round i b => (b.toInt - i.toInt).toNat

/-- Fewer parts can follow the later one of two parts. -/
theorem Follows.left_lt (h : l.Follows code e e') : e'.part.left < e.part.left := by
  cases h with
  | last => exact Nat.lt_succ_self _
  | @enter _ _ _ a b =>
    have hle := Int64.le_toInt a
    have hlt := Int64.toInt_lt b
    simp only [Part.left]
    omega
  | @again _ _ _ i b _ _ _ hlt =>
    have hsucc := toInt_succ (ne_maxValue_of_lt hlt)
    rw [Int64.lt_iff_toInt_lt] at hlt
    simp only [Part.left]
    omega

/-- A loop of which each part ends by itself does end. -/
theorem Trace.ends_of_halts (hs : Stands base (l.begins, s))
    (halts : ∀ {es e p}, l.Trace code s es e p → l.Halts code e)
    (ht : l.Trace code s es e (l.control e.part, e.state)) :
    ∃ q, Ends code l.after (l.control e.part, e.state) q := by
  induction hn : e.part.left using Nat.strong_induction_on generalizing es e with
  | _ n ih =>
    obtain ⟨c, t, hct, hfin, hends⟩ := ht.finishes (halts ht)
    have hover := (hct.doing hs).not_handsTo
    have hturn := hct.turns hs hfin
    generalize hp : Machine.step code c t = p at hturn
    cases hturn with
    | next h =>
      obtain ⟨q, hq⟩ := ih _ (hn ▸ h.left_lt) (hct.turn hfin hp) rfl
      exact ⟨q, hends q (.step hover (hp ▸ hq))⟩
    | @ends q => exact ⟨q, hends q (.step hover (hp ▸ .now q.1 q.2))⟩

/-- What is known of a loop that begins in the state `s`. -/
structure KeepsCount (l : RangeLoop) (code : Code) (s : State) : Prop where
  /-- The trace tells all that happens until the loop is over. -/
  covers : ∀ n, (∃ m ≤ n, (Machine.after code m (l.begins, s)).1.HandsTo l.after) ∨
    ∃ es e, l.Trace code s es e (Machine.after code n (l.begins, s))
  /-- The parts are the bounds and then rounds in the order of the numbers. -/
  counts : ∀ {es e p}, l.Trace code s es e p → l.Counts code s (es ++ [e])
  /-- The loop has had all of the parts when it ends, unless it is left early. -/
  ends : ∀ {q}, Ends code l.after (l.begins, s) q → ∃ es e p, l.Trace code s es e p ∧
    (l.Leaves code e q ∨
      l.Completes code e q ∧ ∃ a b, (es ++ [e]).map (·.part) = schedule a b)
  /-- The loop does end if each of the parts that it begins ends by itself. -/
  terminates : (∀ {es e p}, l.Trace code s es e p → l.Halts code e) →
    ∃ q, Ends code l.after (l.begins, s) q

/-- A loop that is in a call keeps count, whatever its bounds and its body do. -/
theorem keepsCount (hs : Stands base (l.begins, s)) : l.KeepsCount code s where
  covers := trace_after hs
  counts ht := ht.counts hs
  ends h := Trace.begins.ends hs h
  terminates halts := Trace.ends_of_halts hs halts .begins

end RangeLoop

end PoolScript
