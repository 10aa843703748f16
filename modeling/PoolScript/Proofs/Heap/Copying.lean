import PoolScript.Heap.Elements
import PoolScript.Proofs.Pool.Entries

/-!
# Copies of values

To copy a value is to count one more reference to what it refers to (`Heap.Retains`). A copy is
given, or else an assertion has failed and the heap is as it was (`retain_cases`): the handle led
nowhere, or the count would have run over.
-/

namespace PoolScript.Heap

variable {heap heap' : Heap} {v : Value}

/-- `heap'` is `heap` with one more reference counted to what `v` refers to. -/
inductive Retains (heap : Heap) : Value → Heap → Prop
  | number {v : Value} (hv : v.isCounted = false) : Retains heap v heap
  | str {h : Handle} {e : Entry String} (he : heap.strings.entry? h = some e) :
      Retains heap (.str h) ⟨heap.strings.put h.index { e with refs := e.refs + 1 }, heap.cells⟩
  | array {h : Handle} {e : Entry Cell} (he : heap.cells.entry? h = some e) :
      Retains heap (.array h) ⟨heap.strings, heap.cells.put h.index { e with refs := e.refs + 1 }⟩

/-- A copy is counted, or an assertion fails. Of what is live only the count can fail it. -/
theorem retain_cases (heap : Heap) (v : Value) :
    (∃ heap', heap.retain v = (.ok v, heap') ∧ heap.Retains v heap') ∨
    ∃ a, heap.retain v = (.error (.aborted a), heap) ∧ (heap.isLive v = true → a = .countFits) := by
  obtain ⟨strings, cells⟩ := heap
  cases v with
  | int | float => exact .inl ⟨_, rfl, .number rfl⟩
  | str h =>
    rcases strings.retain_cases h with ⟨e, he, -, hr⟩ | ⟨e, -, -, hr⟩ | ⟨he, hr⟩
    · exact .inl ⟨_, by simp only [retain, hr]; rfl, .str he⟩
    · exact .inr ⟨_, by simp only [retain, hr]; rfl, fun _ => rfl⟩
    · exact .inr ⟨_, by simp only [retain, hr]; rfl, by simp [isLive, Pool.isLive, he]⟩
  | array h =>
    rcases cells.retain_cases h with ⟨e, he, -, hr⟩ | ⟨e, -, -, hr⟩ | ⟨he, hr⟩
    · exact .inl ⟨_, by simp only [retain, hr]; rfl, .array he⟩
    · exact .inr ⟨_, by simp only [retain, hr]; rfl, fun _ => rfl⟩
    · exact .inr ⟨_, by simp only [retain, hr]; rfl, by simp [isLive, Pool.isLive, he]⟩

/-- Of what is live there is a copy as long as the count fits into thirty-two bits. -/
theorem exists_retain (hl : heap.isLive v = true)
    (hf : ∀ n, heap.refs? v = some n → n + 1 < UInt32.size) :
    ∃ heap', heap.retain v = (.ok v, heap') ∧ heap.Retains v heap' := by
  obtain ⟨strings, cells⟩ := heap
  cases v with
  | int | float => exact ⟨_, rfl, .number rfl⟩
  | str h =>
    rcases strings.retain_cases h with ⟨e, he, -, hr⟩ | ⟨e, he, hn, -⟩ | ⟨he, -⟩
    · exact ⟨_, by simp only [retain, hr]; rfl, .str he⟩
    · exact absurd (hf e.refs (by simp [refs?, Pool.refs?, he])) (Nat.not_lt.2 hn)
    · simp [isLive, Pool.isLive, he] at hl
  | array h =>
    rcases cells.retain_cases h with ⟨e, he, -, hr⟩ | ⟨e, he, hn, -⟩ | ⟨he, -⟩
    · exact ⟨_, by simp only [retain, hr]; rfl, .array he⟩
    · exact absurd (hf e.refs (by simp [refs?, Pool.refs?, he])) (Nat.not_lt.2 hn)
    · simp [isLive, Pool.isLive, he] at hl

/-- What is copied is live. -/
theorem Retains.isLive (h : heap.Retains v heap') : heap.isLive v = true := by
  cases h with
  | number hv => cases v <;> first | rfl | cases hv
  | str he | array he => simp [Heap.isLive, Pool.isLive, he]

/-- Copies of the key and the value of an element, one after the other. Where the second one fails,
    the first one is given back. -/
theorem entry_cases (heap : Heap) (cell : Handle) :
    (heap.element? cell = none ∧ heap.entry cell = (.ok none, heap)) ∨
    ∃ e, heap.element? cell = some e ∧
      ((∃ heap₁ heap₂, heap.Retains e.key heap₁ ∧ heap₁.Retains e.value heap₂ ∧
          heap.entry cell = (.ok (some (e.key, e.value)), heap₂)) ∨
        (∃ a, heap.entry cell = (.error (.aborted a), heap) ∧
          (heap.isLive e.key = true → a = .countFits)) ∨
        ∃ heap₁ a, heap.Retains e.key heap₁ ∧
          heap.entry cell = (.error (.aborted a), heap₁.release e.key) ∧
          (heap₁.isLive e.value = true → a = .countFits)) := by
  cases he : heap.element? cell with
  | none => exact .inl ⟨rfl, by simp only [entry, he]⟩
  | some e =>
    refine .inr ⟨e, rfl, ?_⟩
    rcases heap.retain_cases e.key with ⟨heap₁, hk, hr⟩ | ⟨a, hk, ha⟩
    · rcases heap₁.retain_cases e.value with ⟨heap₂, hv, hr'⟩ | ⟨a, hv, ha⟩
      · exact .inl ⟨heap₁, heap₂, hr, hr', by simp only [entry, he, hk, hv]⟩
      · exact .inr (.inr ⟨heap₁, a, hr, by simp only [entry, he, hk, hv], ha⟩)
    · exact .inr (.inl ⟨a, by simp only [entry, he, hk], ha⟩)

end PoolScript.Heap
