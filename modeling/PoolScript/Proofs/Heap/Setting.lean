import PoolScript.Heap.Elements

/-!
# Which ends setting has

Some of the ends that setting an element might come to would leave its key and its value to nobody.
They are never come to: an element that was found is there, an array in which no key was found is
there too, and a pool that is not full has room for a cell. So an element is set, or put in front,
or its key and its value are given back (`set_eq`).
-/

namespace PoolScript

namespace Pool

variable {α : Type} {p : Pool α}

/-- A full pool has room for nothing. -/
theorem alloc_of_isFull (h : p.isFull = true) (a : α) :
    p.alloc a = (.error (.poolExhausted p.name p.capacity), p) := by
  obtain ⟨hfree, hsize⟩ : p.free = [] ∧ p.capacity ≤ p.slots.size := by
    simpa [isFull] using h
  simp only [alloc, hfree, if_neg (Nat.not_lt.2 hsize)]

/-- What is not full has room. -/
theorem exists_alloc_of_not_isFull (h : p.isFull = false) (a : α) :
    ∃ k q, p.alloc a = (.ok k, q) := by
  rw [alloc]
  split
  · exact ⟨_, _, rfl⟩
  · next hfree =>
    have hsize : p.slots.size < p.capacity := by simpa [isFull, hfree] using h
    rw [if_pos hsize]
    exact ⟨_, _, rfl⟩

end Pool

namespace Heap

variable {heap : Heap} {a h : Handle} {e : Element} {key : Value} {link : Option Handle}

/-! ### Finding -/

/-- What is found on a walk is an element that is there. -/
theorem element?_of_findFrom {key : Scalar} {n : Nat}
    (hf : heap.findFrom key n link = .ok (some (h, e))) : heap.element? h = some e := by
  fun_induction findFrom heap key n link with
  | case1 => cases hf
  | case2 => cases hf
  | case3 _ _ _ he =>
    cases hf
    exact he
  | case4 _ _ _ _ _ ih => exact ih hf
  | case5 => cases hf

theorem element?_of_find {key : Scalar} (hf : heap.find a key = .ok (some (h, e))) :
    heap.element? h = some e := by
  rw [find] at hf
  split at hf
  · exact element?_of_findFrom hf
  · cases hf

theorem element?_of_findValue (hf : heap.findValue a key = .ok (some (h, e))) :
    heap.element? h = some e := by
  rw [findValue] at hf
  split at hf
  · exact element?_of_find hf
  · cases hf

/-- What was searched is an array that is there. -/
theorem exists_first_of_findValue {found : Option (Handle × Element)}
    (hf : heap.findValue a key = .ok found) : ∃ link, heap.first a = .ok link := by
  rw [findValue] at hf
  split at hf
  · rw [find] at hf
    split at hf
    · next link hl => exact ⟨link, hl⟩
    · cases hf
  · cases hf

/-! ### Setting -/

/-- Puts `key` and `value` in front of the elements of `array`, or gives them back if there is no
    room. -/
def insertOrRelease (array : Handle) (link : Option Handle) (key value : Value) (heap : Heap) :
    Except Fault Unit × Heap :=
  match heap.insertFirst array link key value with
  | (.ok (), heap) => (.ok (), heap)
  | (.error f, heap) => (.error f, heap.releaseAll [key, value])

/-- In a full pool nothing is inserted. -/
theorem insertFirst_of_isFull (h : heap.cells.isFull = true) (a : Handle) (link : Option Handle)
    (key v : Value) : heap.insertFirst a link key v =
      (.error (.poolExhausted heap.cells.name heap.cells.capacity), heap) := by
  obtain ⟨strings, cells⟩ := heap
  simp only [insertFirst, Pool.alloc_of_isFull h]

/-- Where there is room, an element is inserted. -/
theorem insertFirst_of_not_isFull (h : heap.cells.isFull = false) (a : Handle)
    (link : Option Handle) (key v : Value) : (heap.insertFirst a link key v).1 = .ok () := by
  obtain ⟨strings, cells⟩ := heap
  obtain ⟨k, q, hq⟩ := Pool.exists_alloc_of_not_isFull h (.element ⟨key, v, link⟩)
  simp only [insertFirst, hq]

/-- Where there is room, nothing is given back. -/
theorem insertOrRelease_of_not_isFull (h : heap.cells.isFull = false) (a : Handle)
    (link : Option Handle) (key v : Value) :
    heap.insertOrRelease a link key v = heap.insertFirst a link key v := by
  have hok := insertFirst_of_not_isFull h a link key v
  rw [insertOrRelease]
  generalize heap.insertFirst a link key v = r at hok ⊢
  obtain ⟨_, heap'⟩ := r
  obtain rfl := hok
  rfl

/-- Inserting fails for want of room only. -/
theorem insertOrRelease_error_iff (heap : Heap) (a : Handle) (link : Option Handle)
    (key v : Value) :
    (∃ f, (heap.insertOrRelease a link key v).1 = .error f) ↔ heap.cells.isFull = true := by
  cases hfull : heap.cells.isFull with
  | true =>
    rw [insertOrRelease, insertFirst_of_isFull hfull]
    exact iff_of_true ⟨_, rfl⟩ rfl
  | false =>
    rw [insertOrRelease_of_not_isFull hfull, insertFirst_of_not_isFull hfull]
    exact iff_of_false (by rintro ⟨f, ⟨⟩⟩) nofun

theorem set_eq (heap : Heap) (a : Handle) (key v : Value) :
    heap.set a key v =
      match heap.findValue a key with
      | .ok (some (h, e)) =>
        (.ok (), (heap.modifyCell h fun _ => .element { e with value := v }).releaseAll
          [e.value, key])
      | .ok none =>
        match heap.first a with
        | .ok link => heap.insertOrRelease a link key v
        | .error f => (.error f, heap.releaseAll [key, v])
      | .error f => (.error f, heap.releaseAll [key, v]) := by
  rw [set]
  rcases hf : heap.findValue a key with f | _ | ⟨h, e⟩
  · rfl
  · -- Room is tested for before the element is made, which does not fail then.
    obtain ⟨link, hl⟩ := exists_first_of_findValue hf
    simp only [hl]
    cases hfull : heap.cells.isFull with
    | true => rw [if_pos rfl, insertOrRelease, insertFirst_of_isFull hfull]
    | false => rw [if_neg nofun, insertOrRelease_of_not_isFull hfull]
  · simp only [element?_of_findValue hf]

end Heap

end PoolScript
