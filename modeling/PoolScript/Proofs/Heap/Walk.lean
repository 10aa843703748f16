import PoolScript.Heap.Elements
import PoolScript.Heap.View
import PoolScript.Operator
import PoolScript.Proofs.Heap.Release
import PoolScript.Proofs.Pool.Handles

/-!
# Walking arrays

No chain has more cells than the pool has slots, so the walks along a chain are never cut
short: where the cells are laid out in chains they are functions of the list of elements. With
that, nothing that only reads a balanced heap can meet a handle that leads nowhere, as long as
it starts from a live value.

* `elementsFrom_eq`, `findFrom_eq`, `leadingTo_eq`: the walks along a chain;
* `elements_eq`, `find_eq`: reading an array that is laid out;
* `Balanced.display`, `Balanced.scalar`: reading a live value does not fail for a handle.
-/

namespace PoolScript

/-- A fault that says of a handle of the interpreter that it leads nowhere: where it was followed,
    or where a reference was to be counted. -/
inductive Fault.Dangling : Fault → Prop
  | invalidHandle (what : Referent) : Dangling (.invalidHandle what)
  | retainsLive (what : Referent) (h : Handle) : Dangling (.aborted (.retainsLive what h))

/-- The fault, if there is one, is not that a handle leads nowhere. -/
def Fault.Sane {α : Type} : Except Fault α → Prop
  | .ok _ => True
  | .error f => ¬f.Dangling

namespace Fault

variable {α β : Type}

@[simp] theorem sane_ok (a : α) : Sane (.ok a : Except Fault α) := trivial

@[simp] theorem sane_error (f : Fault) :
    Sane (.error f : Except Fault α) ↔ ¬f.Dangling := .rfl

theorem Sane.map {r : Except Fault α} (h : Sane r) (g : α → β) : Sane (r.map g) := by
  cases r with
  | ok => trivial
  | error => exact h

/-- Several results, none of which says that a handle leads nowhere. -/
theorem Sane.mapM {g : α → Except Fault β} {as : List α} (h : ∀ a ∈ as, Sane (g a)) :
    Sane (as.mapM g) := by
  induction as with
  | nil => trivial
  | cons a as ih =>
    have ha := h a List.mem_cons_self
    have has := ih fun a ha => h a (List.mem_cons_of_mem _ ha)
    rw [List.mapM_cons]
    generalize g a = r at ha ⊢
    generalize as.mapM g = s at has ⊢
    cases r <;> cases s <;> trivial

end Fault

namespace Heap

variable {heap : Heap} {a h : Handle} {e : Element} {link : Option Handle}
  {xs ys : List (Handle × Element)} {φ : Handle → List (Handle × Element)} {m : Multiset Value}
  {pins : Set Value} {v : Value} {n : Nat}

/-! ### Cells -/

theorem element?_eq_some : heap.element? h = some e ↔ heap.cells.get? h = some (.element e) := by
  rw [element?]
  split
  · next e' he => rw [he, Option.some.injEq, Option.some.injEq, Cell.element.injEq]
  · next hne => exact iff_of_false (by rintro ⟨⟩) (hne e)

theorem first_eq_ok : heap.first a = .ok link ↔ heap.cells.get? a = some (.head link) := by
  rw [first]
  split
  · next l hl => rw [hl, Except.ok.injEq, Option.some.injEq, Cell.head.injEq]
  · next hne => exact iff_of_false (by rintro ⟨⟩) (hne link)

/-- What a cell holds is stored. -/
theorem mem_stored {c : Cell} (hc : heap.cells.get? h = some c) (hv : v ∈ c.values) :
    v ∈ heap.stored := by
  obtain ⟨n, pinned, he⟩ := Pool.get?_eq_some.1 hc
  rw [stored, stored_vacate he]
  exact Multiset.mem_add.2 (.inl hv)

/-- An array lives where its head is. -/
theorem live_array : heap.Live (.array a) ↔ ∃ link, heap.cells.get? a = some (.head link) := by
  constructor
  · intro h
    obtain ⟨n, pinned, ht⟩ := h rfl
    obtain ⟨link, he⟩ := tally?_head ht
    exact ⟨link, Pool.get?_eq_some.2 ⟨_, _, he⟩⟩
  · rintro ⟨link, h⟩ -
    obtain ⟨n, pinned, he⟩ := Pool.get?_eq_some.1 h
    exact ⟨n, pinned, by simp [tally?, he, Entry.tally]⟩

/-- A string lives where its text is. -/
theorem live_str : heap.Live (.str h) ↔ ∃ text, heap.strings.get? h = some text := by
  constructor
  · intro hl
    obtain ⟨n, pinned, ht⟩ := hl rfl
    obtain ⟨text, he⟩ := tally?_str ht
    exact ⟨text, Pool.get?_eq_some.2 ⟨_, _, he⟩⟩
  · rintro ⟨text, ht⟩ -
    obtain ⟨n, pinned, he⟩ := Pool.get?_eq_some.1 ht
    exact ⟨n, pinned, by simp [tally?, he]⟩

/-- There are finitely many arrays. -/
theorem finite_arrays (heap : Heap) :
    {a | ∃ link, heap.cells.get? a = some (.head link)}.Finite :=
  heap.cells.finite_handles fun _ ⟨_, ha⟩ => ⟨_, ha⟩

/-- `v` names a string or an array that is there. -/
def Present (heap : Heap) : Value → Prop
  | .str h => ∃ text, heap.strings.get? h = some text
  | .array h => ∃ link, heap.cells.get? h = some (.head link)
  | _ => False

/-- What is there lives and is counted. -/
theorem present_iff : heap.Present v ↔ v.isCounted ∧ heap.Live v := by
  cases v with
  | int => simp [Present, Value.isCounted]
  | float => simp [Present, Value.isCounted]
  | str h => simp [Present, Value.isCounted, live_str]
  | array h => simp [Present, Value.isCounted, live_array]

theorem Present.tally? (hv : heap.Present v) : ∃ n pinned, heap.tally? v = some (n, pinned) :=
  let ⟨hc, hl⟩ := present_iff.1 hv
  hl hc

theorem Present.isLive (hv : heap.Present v) : heap.isLive v = true :=
  let ⟨_, _, ht⟩ := hv.tally?
  isLive_of_tally? ht

theorem Present.isCounted (hv : heap.Present v) : v.isCounted :=
  (present_iff.1 hv).1

/-- Nothing is there when everything was given up. -/
theorem not_present_clear (hs : heap.strings.WellFormed) (hc : heap.cells.WellFormed) (v : Value) :
    ¬heap.clear.Present v := by
  cases v <;>
    simp [Present, Heap.clear, Pool.get?, Pool.entry?_clear hs.size_lt,
      Pool.entry?_clear hc.size_lt]

/-! ### Chains are short -/

/-- A chain has no more cells than there are slots. -/
theorem length_le_longest (hx : Layout.Chain heap.cells.get? link xs) :
    xs.length ≤ heap.longest := by
  -- The cells of a chain are in different slots, and all of them are among those that there are.
  have hn : (xs.map (·.1.index)).Nodup := by
    have hmap : xs.map (·.1.index) = (xs.map (·.1)).map Handle.index := List.map_map.symm
    rw [hmap]
    refine List.Nodup.map_on (fun h hh k hk hi => ?_) hx.nodup
    obtain ⟨p, hp, rfl⟩ := List.mem_map.1 hh
    obtain ⟨q, hq, rfl⟩ := List.mem_map.1 hk
    obtain ⟨_, _, hp⟩ := Pool.get?_eq_some.1 (hx.element hp)
    obtain ⟨_, _, hq⟩ := Pool.get?_eq_some.1 (hx.element hq)
    exact Pool.eq_of_index_eq hp hq hi
  have hs : xs.map (·.1.index) ⊆ List.range heap.longest := fun i hi => by
    obtain ⟨p, hp, rfl⟩ := List.mem_map.1 hi
    obtain ⟨_, _, hp⟩ := Pool.get?_eq_some.1 (hx.element hp)
    exact List.mem_range.2 (Pool.index_lt hp)
  simpa using (hn.subperm hs).length_le

/-! ### Walks -/

/-- A walk visits the elements of the chain in turn. -/
theorem elementsFrom_eq (hx : Layout.Chain heap.cells.get? link xs) (hn : xs.length ≤ n) :
    heap.elementsFrom n link = xs.map (·.2) := by
  induction hx generalizing n with
  | nil => cases n <;> rfl
  | cons he _ ih =>
    cases n with
    | zero => cases hn
    | succ n =>
      simp only [elementsFrom, element?_eq_some.2 he, ih (Nat.le_of_succ_le_succ hn), List.map_cons]

/-- A search finds the first element of the chain whose key matches. -/
theorem findFrom_eq (hx : Layout.Chain heap.cells.get? link xs) (hn : xs.length ≤ n)
    (key : Scalar) :
    heap.findFrom key n link = .ok (xs.find? fun p => heap.keyMatches p.2.key key) := by
  induction hx generalizing n with
  | nil => cases n <;> rfl
  | cons he _ ih =>
    cases n with
    | zero => cases hn
    | succ n =>
      simp only [findFrom, element?_eq_some.2 he, ih (Nat.le_of_succ_le_succ hn), List.find?_cons]
      split <;> simp_all

/-- The cell before an element of a chain that comes after the cell `a`. -/
theorem leadingTo_eq (hx : Layout.Chain heap.cells.get? link (xs ++ (h, e) :: ys))
    (hn : xs.length < n) :
    heap.leadingTo h n a link = some ((xs.map (·.1)).getLastD a) := by
  induction xs generalizing a link n with
  | nil =>
    cases hx
    obtain ⟨n, rfl⟩ := Nat.exists_eq_add_one_of_ne_zero (Nat.ne_of_gt hn)
    simp [leadingTo]
  | cons p xs ih =>
    have hd := hx.nodup
    obtain ⟨k, d⟩ := p
    cases hx with
    | cons hk hx =>
      obtain ⟨n, rfl⟩ := Nat.exists_eq_add_one_of_ne_zero (Nat.ne_of_gt (Nat.zero_lt_of_lt hn))
      -- The element is further on, since no cell comes twice.
      have hkh : k ≠ h := by rintro rfl; simp at hd
      have hnext : heap.next? k = d.next := by simp [next?, element?_eq_some.2 hk]
      rw [leadingTo, if_neg hkh, hnext, ih hx (Nat.lt_of_succ_lt_succ hn), List.map_cons,
        List.getLastD_cons]

/-- The elements of an array are those of its chain. -/
theorem elements_eq (hl : Layout.Laid heap.cells.get? φ)
    (ha : heap.cells.get? a = some (.head link)) : heap.elements a = .ok ((φ a).map (·.2)) := by
  have hx := hl.chain ha
  rw [Heap.elements, first_eq_ok.2 ha]
  exact congrArg Except.ok (elementsFrom_eq hx (length_le_longest hx))

/-- An array is searched along its chain. -/
theorem find_eq (hl : Layout.Laid heap.cells.get? φ)
    (ha : heap.cells.get? a = some (.head link)) (key : Scalar) :
    heap.find a key = .ok ((φ a).find? fun p => heap.keyMatches p.2.key key) := by
  have hx := hl.chain ha
  rw [Heap.find, first_eq_ok.2 ha]
  exact findFrom_eq hx (length_le_longest hx) key

namespace Balanced

theorem elements (hb : heap.Balanced m pins) (ha : heap.Live (.array a)) :
    ∃ link xs, heap.cells.get? a = some (.head link) ∧
      Layout.Chain heap.cells.get? link xs ∧ heap.elements a = .ok (xs.map (·.2)) := by
  obtain ⟨link, ha⟩ := live_array.1 ha
  obtain ⟨φ, hl⟩ := hb.laid
  exact ⟨link, φ a, ha, hl.chain ha, elements_eq hl ha⟩

theorem find (hb : heap.Balanced m pins) (ha : heap.Live (.array a)) (key : Scalar) :
    ∃ link xs, heap.cells.get? a = some (.head link) ∧ Layout.Chain heap.cells.get? link xs ∧
      heap.find a key = .ok (xs.find? fun p => heap.keyMatches p.2.key key) := by
  obtain ⟨link, ha⟩ := live_array.1 ha
  obtain ⟨φ, hl⟩ := hb.laid
  exact ⟨link, φ a, ha, hl.chain ha, find_eq hl ha key⟩

/-! ### Reading -/

theorem str (hv : heap.Live (.str h)) : ∃ text, heap.str h = .ok text := by
  obtain ⟨text, ht⟩ := live_str.1 hv
  exact ⟨text, by rw [Heap.str, ht]⟩

theorem scalar (hv : heap.Live v) : Fault.Sane (heap.scalar v) := by
  cases v with
  | int => trivial
  | float => trivial
  | str h =>
    obtain ⟨text, ht⟩ := str hv
    rw [Heap.scalar, ht]
    trivial
  | array => rintro ⟨⟩

/-- A search for a value fails only if the value cannot be a key. -/
theorem findValue (hb : heap.Balanced m pins) (ha : heap.Live (.array a)) (hv : heap.Live v) :
    (∃ link xs p, heap.cells.get? a = some (.head link) ∧
      Layout.Chain heap.cells.get? link xs ∧ heap.findValue a v = .ok (xs.find? p)) ∨
    ∃ f, heap.findValue a v = .error f ∧ ¬f.Dangling := by
  rw [Heap.findValue]
  have hs := scalar hv
  generalize heap.scalar v = r at hs ⊢
  cases r with
  | ok key =>
    obtain ⟨link, xs, hl, hx, hf⟩ := hb.find ha key
    exact .inl ⟨link, xs, _, hl, hx, hf⟩
  | error f => exact .inr ⟨f, rfl, hs⟩

theorem size (hb : heap.Balanced m pins) (ha : heap.Live (.array a)) :
    Fault.Sane (heap.size a) := by
  obtain ⟨_, _, -, -, he⟩ := hb.elements ha
  rw [Heap.size, he]
  trivial

theorem get? (hb : heap.Balanced m pins) (ha : heap.Live (.array a)) (key : Scalar) :
    Fault.Sane (heap.get? a key) := by
  obtain ⟨_, _, -, -, hf⟩ := hb.find ha key
  rw [Heap.get?, hf]
  trivial

theorem innerText (hv : heap.Live v) : Fault.Sane (heap.innerText v) := by
  simp only [Heap.innerText]
  split
  · trivial
  · exact (scalar hv).map _

/-- What an element stores lives, so it can be shown. -/
theorem elementText (hb : heap.Balanced m pins) (he : heap.cells.get? h = some (.element e)) :
    Fault.Sane (heap.elementText e) := by
  have hk := innerText (hb.live_stored (v := e.key) (mem_stored he (by simp [Cell.values])))
  have hv := innerText (hb.live_stored (v := e.value) (mem_stored he (by simp [Cell.values])))
  rw [Heap.elementText]
  generalize heap.innerText e.key = r at hk ⊢
  generalize heap.innerText e.value = s at hv ⊢
  cases r <;> cases s <;> trivial

/-- What lives can be shown, and an array with its elements. -/
theorem display (hb : heap.Balanced m pins) (hv : heap.Live v) : Fault.Sane (heap.display v) := by
  simp only [Heap.display]
  split
  · next a =>
    obtain ⟨link, xs, -, hx, he⟩ := hb.elements hv
    rw [he]
    refine Fault.Sane.map (Fault.Sane.mapM fun e he => ?_) _
    obtain ⟨p, hp, rfl⟩ := List.mem_map.1 he
    exact hb.elementText (hx.element hp)
  · exact (scalar hv).map _

end Balanced

end Heap

end PoolScript
