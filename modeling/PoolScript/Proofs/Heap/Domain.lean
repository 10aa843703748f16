import PoolScript.Operator
import PoolScript.Proofs.Heap.Holding
import PoolScript.Proofs.Number.Whole
import PoolScript.Proofs.Pool.Joining

/-!
# The domain of the operators

Which fault an operator has, if any, depends on the types of its operands, on whether it divides by
zero, and on whether there is room for the string that it makes (`Heap.refusal`). It is the one
fault that it has (`OperateOutcome.error_iff`). With or without it, both operands are given back,
and the string that it makes is joined to what is left then (`Holding.Reached.binary_total`).
-/

namespace PoolScript

/-- Whether a value of this type is a number. -/
def ValueType.isNumber : ValueType → Bool
  | int | float => true
  | str | array => false

namespace BinOp

/-- Whether the operator has a meaning for operands of these types, of which one is a string. -/
def acceptsText (op : BinOp) : ValueType → ValueType → Bool
  | .str, .str => op = plus || op = eq || op = neq
  | .str, .int | .str, .float | .int, .str | .float, .str => op = plus
  | _, _ => false

/-- Whether the operator has a meaning for operands of these types. -/
def accepts (op : BinOp) (lhs rhs : ValueType) : Bool :=
  lhs.isNumber && rhs.isNumber || op.acceptsText lhs rhs

/-- Whether the operator makes a string of operands of these types. -/
def concatenates (op : BinOp) (lhs rhs : ValueType) : Bool :=
  op = plus && lhs = .str && rhs ≠ .array

/-- Whether the operator divides. -/
def divides : BinOp → Bool
  | div | mod => true
  | _ => false

end BinOp

namespace Heap

/-- The fault with which `op` refuses `lhs` and `rhs`, if it does. -/
def refusal (heap : Heap) (op : BinOp) (lhs rhs : Value) : Option Fault :=
  if op.accepts lhs.type rhs.type = false then some (.operandMismatch op lhs.type rhs.type)
  else if op.divides ∧ rhs.truth? = some false then some .divisionByZero
  else if op.concatenates lhs.type rhs.type ∧ heap.liveStrings = heap.strings.capacity then
    some (.poolExhausted heap.strings.name heap.strings.capacity)
  else none

/-- `b` is `a` with one more string, at `h`. There is one reference to it. -/
structure Joined (a : Heap) (text : String) (h : Handle) (b : Heap) : Prop where
  strings : a.strings.Joined text h b.strings
  cells : b.cells = a.cells

/-- What comes of `op` for `lhs` and `rhs`, before they are given back. -/
inductive OperateOutcome (heap : Heap) (op : BinOp) (lhs rhs : Value) :
    Except Fault Value × Heap → Prop
  | mismatch (refused : op.accepts lhs.type rhs.type = false) :
      OperateOutcome heap op lhs rhs (.error (.operandMismatch op lhs.type rhs.type), heap)
  | zero (accepted : op.accepts lhs.type rhs.type = true) (divides : op.divides = true)
      (zero : rhs.truth? = some false) :
      OperateOutcome heap op lhs rhs (.error .divisionByZero, heap)
  | number {v : Value} (accepted : op.accepts lhs.type rhs.type = true)
      (nonzero : ¬(op.divides = true ∧ rhs.truth? = some false))
      (plain : op.concatenates lhs.type rhs.type = false) :
      OperateOutcome heap op lhs rhs (.ok v, heap)
  | full (concatenates : op.concatenates lhs.type rhs.type = true)
      (full : heap.liveStrings = heap.strings.capacity) :
      OperateOutcome heap op lhs rhs
        (.error (.poolExhausted heap.strings.name heap.strings.capacity), heap)
  | text {s t : String} {h : Handle} {heap' : Heap}
      (concatenates : op.concatenates lhs.type rhs.type = true)
      (left : heap.text? lhs = some s) (right : heap.display rhs = .ok t)
      (room : heap.liveStrings < heap.strings.capacity) (joined : heap.Joined (s ++ t) h heap') :
      OperateOutcome heap op lhs rhs (.ok (.str h), heap')

end Heap

namespace BinOp

variable {op : BinOp} {l r : ValueType} {lhs rhs : Value} {y : Double} {f : Fault}
  {sign : NaNSign}

/-! ### Types -/

theorem concatenates_iff : op.concatenates l r = true ↔ (op = plus ∧ l = .str) ∧ r ≠ .array := by
  simp [concatenates]

theorem accepts_of_concatenates (h : op.concatenates l r = true) : op.accepts l r = true := by
  obtain ⟨⟨rfl, rfl⟩, hr⟩ := concatenates_iff.1 h
  cases r with
  | array => exact absurd rfl hr
  | _ => rfl

theorem divides_of_concatenates (h : op.concatenates l r = true) : op.divides = false := by
  obtain ⟨⟨rfl, rfl⟩, hr⟩ := concatenates_iff.1 h
  rfl

/-! ### Numbers -/

theorem truth?_eq_false_iff (hy : rhs.asFloat? = some y) :
    rhs.truth? = some false ↔ (y.number == 0.0) = true := by
  cases rhs with
  | int n =>
    obtain rfl := Option.some.inj hy
    simp [Value.truth?, Double.ofFloat, Double.of, intToFloat_beq_zero]
  | float x =>
    obtain rfl := Option.some.inj hy
    simp [Value.truth?, bne]
  | str | array => cases hy

theorem guarded_error_iff {zero : Prop} [Decidable zero] {v : Value} :
    (if zero then .error .divisionByZero else .ok v : Except Fault Value) = .error f ↔
      zero ∧ f = .divisionByZero := by
  split
  · next hz => exact ⟨fun h => ⟨hz, (Except.error.inj h).symm⟩, fun h => h.2 ▸ rfl⟩
  · next hz => exact iff_of_false nofun fun h => hz h.1

theorem onInts_error_iff {a b : Int64} :
    op.onInts a b = .error f ↔ (op.divides = true ∧ b = 0) ∧ f = .divisionByZero := by
  cases op with
  | div | mod => exact guarded_error_iff.trans (by simp only [divides, true_and])
  | _ => exact iff_of_false nofun (by rintro ⟨⟨⟨⟩, -⟩, -⟩)

theorem onFloats_error_iff {x y : Double} :
    op.onFloats sign x y = .error f ↔
      (op.divides = true ∧ (y.number == 0.0) = true) ∧ f = .divisionByZero := by
  cases op with
  | div | mod => exact guarded_error_iff.trans (by simp only [divides, true_and])
  | _ => exact iff_of_false nofun (by rintro ⟨⟨⟨⟩, -⟩, -⟩)

/-- An operator on numbers fails only where it divides by zero. -/
theorem onNumbers_error_iff (hl : lhs.type.isNumber = true) (hr : rhs.type.isNumber = true) :
    op.onNumbers sign lhs rhs = .error f ↔
      (op.divides = true ∧ rhs.truth? = some false) ∧ f = .divisionByZero := by
  -- Beside a double an integer is taken for one, which is zero only if the integer is.
  have floats {x y : Double} (hy : rhs.asFloat? = some y)
      (hn : op.onNumbers sign lhs rhs = op.onFloats sign x y) :
      op.onNumbers sign lhs rhs = .error f ↔
        (op.divides = true ∧ rhs.truth? = some false) ∧ f = .divisionByZero := by
    rw [truth?_eq_false_iff hy, hn]
    exact onFloats_error_iff
  cases lhs with
  | int a =>
    cases rhs with
    | int b => exact onInts_error_iff.trans (by simp [Value.truth?])
    | float => exact floats rfl rfl
    | str | array => cases hr
  | float =>
    cases rhs with
    | int | float => exact floats rfl rfl
    | str | array => cases hr
  | str | array => cases hl

theorem onNumbers_mismatch (op : BinOp) (h : (lhs.type.isNumber && rhs.type.isNumber) = false) :
    op.onNumbers sign lhs rhs = .error (.operandMismatch op lhs.type rhs.type) := by
  cases lhs <;> cases rhs <;> first | rfl | cases h

end BinOp

namespace Heap

variable {heap heap' : Heap} {op : BinOp} {lhs rhs v : Value} {a b h : Handle} {f : Fault}
  {r : Except Fault Value × Heap} {sign : NaNSign}

/-! ### What comes of an operator -/

theorem exists_str_of_isLive (hv : heap.isLive (.str h) = true) :
    ∃ text, heap.str h = .ok text ∧ heap.text? (.str h) = some text := by
  obtain ⟨e, he⟩ := Option.isSome_iff_exists.1 hv
  exact ⟨e.content, by simp [str, Pool.get?, he], by simp [text?, Pool.get?, he]⟩

theorem exists_display_of_isLive (hv : heap.isLive v = true) (hn : v.type ≠ .array) :
    ∃ text, heap.display v = .ok text := by
  cases v with
  | int | float => exact ⟨_, rfl⟩
  | str h =>
    obtain ⟨text, ht, -⟩ := exists_str_of_isLive hv
    exact ⟨text, by simp only [display, scalar, ht, Except.map, Scalar.text]⟩
  | array => exact absurd rfl hn

theorem exists_sameText_of_isLive (ha : heap.isLive (.str a) = true)
    (hb : heap.isLive (.str b) = true) : ∃ same, heap.sameText a b = .ok same := by
  obtain ⟨s, hs, -⟩ := exists_str_of_isLive ha
  obtain ⟨t, ht, -⟩ := exists_str_of_isLive hb
  exact ⟨s == t, by rw [sameText, hs, ht]⟩

/-- Where a string is made, there need only be room for it. -/
theorem refusal_of_concatenates (hc : op.concatenates lhs.type rhs.type = true) :
    heap.refusal op lhs rhs = if heap.liveStrings = heap.strings.capacity then
      some (.poolExhausted heap.strings.name heap.strings.capacity) else none := by
  rw [refusal, if_neg (by simp [BinOp.accepts_of_concatenates hc]),
    if_neg (by simp [BinOp.divides_of_concatenates hc])]
  simp only [hc, true_and]

namespace OperateOutcome

/-- Where no text has a meaning, the operands have to be numbers. -/
theorem onNumbers (ht : op.acceptsText lhs.type rhs.type = false) :
    OperateOutcome heap op lhs rhs (op.onNumbers sign lhs rhs, heap) := by
  have ha : op.accepts lhs.type rhs.type = (lhs.type.isNumber && rhs.type.isNumber) := by
    rw [BinOp.accepts, ht, Bool.or_false]
  cases hn : lhs.type.isNumber && rhs.type.isNumber with
  | false =>
    rw [op.onNumbers_mismatch hn]
    exact .mismatch (ha.trans hn)
  | true =>
    obtain ⟨hl, hr⟩ := Bool.and_eq_true_iff.1 hn
    have hplain : op.concatenates lhs.type rhs.type = false := by
      rw [Bool.eq_false_iff]
      intro hc
      rw [(BinOp.concatenates_iff.1 hc).1.2] at hl
      cases hl
    cases hop : op.onNumbers sign lhs rhs with
    | error f =>
      obtain ⟨⟨hd, hz⟩, rfl⟩ := (BinOp.onNumbers_error_iff hl hr).1 hop
      exact .zero (ha.trans hn) hd hz
    | ok v =>
      refine .number (ha.trans hn) (fun hz => ?_) hplain
      cases hop.symm.trans ((BinOp.onNumbers_error_iff hl hr).2 ⟨hz, rfl⟩)

theorem concat (hw : heap.strings.WellFormed) (hl : heap.isLive (.str a) = true)
    (hr : heap.isLive rhs = true) (hn : rhs.type ≠ .array) :
    OperateOutcome heap .plus (.str a) rhs (heap.concat a rhs) := by
  have hc : BinOp.plus.concatenates (Value.str a).type rhs.type = true :=
    BinOp.concatenates_iff.2 ⟨⟨rfl, rfl⟩, hn⟩
  obtain ⟨s, hs, hleft⟩ := exists_str_of_isLive hl
  obtain ⟨t, ht⟩ := exists_display_of_isLive hr hn
  obtain ⟨strings, cells⟩ := heap
  simp only [Heap.concat, hs, ht, Heap.allocString]
  rcases hw.alloc_cases (s ++ t) with ⟨h, strings', ha, hal⟩ | ⟨ha, hfull⟩
  · rw [ha]
    exact .text hc hleft ht hal.live_lt ⟨Pool.alloc_joined hw.toConsistent ha, rfl⟩
  · rw [ha]
    exact .full hc hfull

theorem operate (hw : heap.strings.WellFormed) (op : BinOp) (hl : heap.isLive lhs = true)
    (hr : heap.isLive rhs = true) :
    OperateOutcome heap op lhs rhs (heap.operate sign op lhs rhs) := by
  -- Only three of the operators have a meaning for texts.
  cases op with
  | plus =>
    cases lhs with
    | str a =>
      cases rhs with
      | array b => exact .onNumbers rfl
      | _ => exact concat hw hl hr (by rintro ⟨⟩)
    | int | float =>
      cases rhs with
      | str b =>
        obtain ⟨t, ht, -⟩ := exists_str_of_isLive hr
        rw [Heap.operate, ht]
        exact .number rfl (by rintro ⟨⟨⟩, -⟩) rfl
      | _ => exact .onNumbers rfl
    | array => cases rhs <;> exact .onNumbers rfl
  | eq | neq =>
    cases lhs with
    | str a =>
      cases rhs with
      | str b =>
        obtain ⟨same, hs⟩ := exists_sameText_of_isLive hl hr
        rw [Heap.operate, hs]
        exact .number rfl (by rintro ⟨⟨⟩, -⟩) rfl
      | _ => exact .onNumbers rfl
    | _ => cases rhs <;> exact .onNumbers rfl
  | _ => exact .onNumbers (by cases lhs <;> cases rhs <;> rfl)

/-- An operator fails with the fault with which it refuses its operands, and only then. -/
theorem error_iff (ho : OperateOutcome heap op lhs rhs r) :
    r.1 = .error f ↔ heap.refusal op lhs rhs = some f := by
  cases ho with
  | mismatch refused => simp [refusal, refused]
  | zero accepted divides zero => simp [refusal, accepted, divides, zero]
  | number accepted nonzero plain =>
    rw [refusal, if_neg (by simp [accepted]), if_neg nonzero, if_neg (by simp [plain])]
    exact iff_of_false nofun nofun
  | full concatenates full =>
    rw [refusal_of_concatenates concatenates, if_pos full, Except.error.injEq, Option.some.injEq]
  | text concatenates left right room =>
    rw [refusal_of_concatenates concatenates, if_neg room.ne]
    exact iff_of_false nofun nofun

end OperateOutcome

/-! ### What is left -/

namespace Joined

variable {text : String}

theorem ne_of_isLive (hj : heap.Joined text h heap') (hv : heap.isLive v = true) : v ≠ .str h := by
  rintro rfl
  simp [isLive, Pool.isLive, hj.strings.entry?_self] at hv

/-- Giving back anything else does not matter to the string. -/
theorem release (hj : heap.Joined text h heap') (hw : heap.strings.WellFormed) (hv : v ≠ .str h)
    (hn : v.type ≠ .array) : (heap.release v).Joined text h (heap'.release v) := by
  rw [release_eq, release_eq]
  cases v with
  | int | float =>
    change (heap.drain []).Joined text h (heap'.drain [])
    rwa [drain_nil, drain_nil]
  | str k =>
    rw [giveBack, giveBack, drain_nil, drain_nil]
    exact ⟨(hj.strings.release hw.toConsistent fun hk => hv (hk ▸ rfl)).2, hj.cells⟩
  | array => exact absurd rfl hn

end Joined

namespace Holding

variable {strings cells : Nat} {s : Holding}

/-- In every heap that is reached, an operator fails exactly where it refuses its operands, and
    gives both back in any case. Nothing else is done with the heap, unless it makes a string, which
    is joined to what is left. -/
theorem Reached.binary_total (hs : Reached strings cells s) (sign : NaNSign) (op : BinOp)
    (hl : s.heap.isLive lhs = true) (hr : s.heap.isLive rhs = true) :
    (∀ f, (s.heap.binary sign op lhs rhs).1 = .error f ↔ s.heap.refusal op lhs rhs = some f) ∧
    (op.concatenates lhs.type rhs.type = false ∨
        (∃ f, (s.heap.binary sign op lhs rhs).1 = .error f) →
      (s.heap.binary sign op lhs rhs).2 = (s.heap.release lhs).release rhs) ∧
    (op.concatenates lhs.type rhs.type = true → ∀ v, (s.heap.binary sign op lhs rhs).1 = .ok v →
      ∃ h left right, v = .str h ∧ s.heap.text? lhs = some left ∧
        s.heap.display rhs = .ok right ∧
        ((s.heap.release lhs).release rhs).Joined (left ++ right) h
          (s.heap.binary sign op lhs rhs).2) := by
  have hw : s.heap.strings.WellFormed := hs.evolves.strings.wellFormed (wellFormed_empty ..).1
  have ho : OperateOutcome s.heap op lhs rhs (s.heap.operate sign op lhs rhs) :=
    .operate hw op hl hr
  rw [binary]
  simp only [releaseAll_pair]
  generalize s.heap.operate sign op lhs rhs = r at ho ⊢
  refine ⟨fun f => ho.error_iff, ?_⟩
  cases ho with
  | mismatch | zero | full => exact ⟨fun _ => rfl, fun _ => nofun⟩
  | number _ _ plain => exact ⟨fun _ => rfl, fun hc => absurd hc (by simp [plain])⟩
  | @text left right h heap' hc hleft hright _ hj =>
    refine ⟨?_, fun _ v hv => ?_⟩
    · rintro (hc' | ⟨f, ⟨⟩⟩)
      cases hc.symm.trans hc'
    · cases hv
      -- Neither operand is an array, so that nothing else is given back with them.
      obtain ⟨⟨-, hstr⟩, hn⟩ := BinOp.concatenates_iff.1 hc
      refine ⟨h, left, right, rfl, hleft, hright, ?_⟩
      have hw' : (s.heap.release lhs).strings.WellFormed :=
        (Thins.releaseAll s.heap [lhs]).strings.evolves.wellFormed hw
      refine (hj.release hw (hj.ne_of_isLive hl) ?_).release hw' (hj.ne_of_isLive hr) hn
      rw [hstr]
      exact nofun

/-- A text that is held twice, in a heap with room for `n` strings. -/
def twice (n : Nat) : Holding :=
  (start n 0).does (.allocScalar (.str "ha")) 0 |>.does (.retain (.str ⟨0, 0⟩)) {.str ⟨0, 0⟩}

theorem twice_reached {n : Nat} (hn : n = 1 ∨ n = 2) : Reached n 0 (twice n) := by
  have h : Reached n 0 (start n 0) := .refl
  rcases hn with rfl | rfl <;> refine (h.does ?_ ?_).does ?_ ?_ <;> decide +kernel

/-- The text cannot be put behind itself where there is no room for another one. Where there is
    room, that gives both references to the text back. -/
theorem twice_binary :
    (twice 1).heap.isLive (.str ⟨0, 0⟩) = true ∧
    ((twice 1).heap.binary .clear .plus (.str ⟨0, 0⟩) (.str ⟨0, 0⟩)).1 =
      .error (.poolExhausted "string" 1) ∧
    (twice 2).heap.isLive (.str ⟨0, 0⟩) = true ∧
    (((twice 2).heap.release (.str ⟨0, 0⟩)).release (.str ⟨0, 0⟩)).Joined "haha" ⟨1, 0⟩
      ((twice 2).heap.binary .clear .plus (.str ⟨0, 0⟩) (.str ⟨0, 0⟩)).2 := by
  have hl₁ : (twice 1).heap.isLive (.str ⟨0, 0⟩) = true := by decide +kernel
  have hl₂ : (twice 2).heap.isLive (.str ⟨0, 0⟩) = true := by decide +kernel
  have hv : ((twice 2).heap.binary .clear .plus (.str ⟨0, 0⟩) (.str ⟨0, 0⟩)).1 =
      .ok (.str ⟨1, 0⟩) := by decide +kernel
  have hfull := ((twice_reached (.inl rfl)).binary_total .clear .plus hl₁ hl₁).1
  refine ⟨hl₁, (hfull _).2 (by decide +kernel), hl₂, ?_⟩
  obtain ⟨h, left, right, hh, hleft, hright, hj⟩ :=
    ((twice_reached (.inr rfl)).binary_total .clear .plus hl₂ hl₂).2.2 rfl _ hv
  cases hh
  cases hleft.symm.trans (show (twice 2).heap.text? (.str ⟨0, 0⟩) = some "ha" by decide +kernel)
  cases hright.symm.trans (show (twice 2).heap.display (.str ⟨0, 0⟩) = .ok "ha" by decide +kernel)
  exact hj

end Holding

end Heap

end PoolScript
