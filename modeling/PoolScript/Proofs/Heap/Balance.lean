import Mathlib.Tactic.Abel
import PoolScript.Heap.Release
import PoolScript.Proofs.Heap.Chain
import PoolScript.Proofs.Heap.Copying
import PoolScript.Proofs.Heap.Tally
import PoolScript.Proofs.Pool.Entries

/-!
# Balanced heaps

Whoever holds a value owns a reference to what it names. Some values are held outside of the
heap, by variables, by what is left to be done, or by the host: these are the *owned* values
`m`. The others are *stored* in it, as the keys and values of elements.

A heap is *balanced* for `m` if its pools are well-formed, its cells are laid out in chains,
the cells of elements are counted once and never pinned, and strings and arrays are counted
as often as they are owned or stored. In a balanced heap nothing that is owned or stored is
stale.

After a heap was cleared, what was owned before may still be around and be stored anew. The
*books* of a heap (`Heap.Booked`) are kept even then: they tell the chains `φ` of its arrays,
the owned values, exactly what is pinned, and which values are gone for good. A balanced heap is
one whose books have nothing gone (`Balanced.booked`, `Booked.balanced`), so all that is done
with a heap is shown for books, and holds of balanced heaps.

* `Booked.add_string`, `Booked.add_head`, `Booked.retain`: who makes or copies a value owns one
  more;
* `Booked.drain`: who gives values back owns them no more. What an array stores becomes owned
  by the list of what remains to be given back when the array goes;
* `Booked.pin`, `Booked.unpin`: pinning is nobody's.
-/

namespace PoolScript

/-- What the entry of a head adds to a tally. -/
def Entry.tally : Entry Cell → Option (Nat × Bool)
  | ⟨.head _, refs, pinned⟩ => some (refs, pinned)
  | ⟨.element _, _, _⟩ => none

/-- The values that a cell owns. -/
def Cell.values : Cell → List Value
  | .head _ => []
  | .element e => [e.key, e.value]

/-- The values that the cells of a pool own. -/
def Pool.stored (cells : Pool Cell) : Multiset Value :=
  cells.contents.flatMap Cell.values

namespace Heap

/-- The keys and values of all elements. -/
def stored (heap : Heap) : Multiset Value :=
  heap.cells.stored

/-- How often the strings and arrays of a heap are counted. -/
def tally? (heap : Heap) : Tally
  | .str h => (heap.strings.entry? h).map fun e => (e.refs, e.pinned)
  | .array h => (heap.cells.entry? h).bind Entry.tally
  | _ => none

variable {strings strings' : Pool String} {cells cells' : Pool Cell} {h : Handle}

theorem coe_cons_add (v : Value) (vs : List Value) (m : Multiset Value) :
    ((v :: vs : List Value) : Multiset Value) + m = {v} + (vs + m) := by
  rw [← Multiset.cons_coe, ← Multiset.singleton_add, add_assoc]

/-- An entry of a string that changes is the only one in the tally that does. -/
theorem tally?_strings {x : Option (Entry String)}
    (hs : strings'.entry? = Function.update strings.entry? h x) :
    tally? ⟨strings', cells⟩ =
      Function.update (tally? ⟨strings, cells⟩) (.str h) (x.map fun e => (e.refs, e.pinned)) := by
  funext v
  by_cases hv : v = .str h
  · subst hv; simp [tally?, hs]
  · rw [Function.update_of_ne hv]
    cases v with
    | str k =>
      have hk : k ≠ h := fun hk => hv (hk ▸ rfl)
      simp [tally?, hs, hk]
    | _ => rfl

/-- A cell that changes is the only one in the tally that does, and counts there only as a head. -/
theorem tally?_cells {x : Option (Entry Cell)}
    (hc : cells'.entry? = Function.update cells.entry? h x) :
    tally? ⟨strings, cells'⟩ =
      Function.update (tally? ⟨strings, cells⟩) (.array h) (x.bind Entry.tally) := by
  funext v
  by_cases hv : v = .array h
  · subst hv; simp [tally?, hc]
  · rw [Function.update_of_ne hv]
    cases v with
    | array k =>
      have hk : k ≠ h := fun hk => hv (hk ▸ rfl)
      simp [tally?, hc, hk]
    | _ => rfl

theorem tally?_number (heap : Heap) {v : Value} (hv : v.isCounted = false) :
    heap.tally? v = none := by
  cases v <;> first | rfl | cases hv

/-- What is tallied as an array is the head of one. -/
theorem tally?_head {heap : Heap} {n : Nat} {pinned : Bool}
    (ha : heap.tally? (.array h) = some (n, pinned)) :
    ∃ link, heap.cells.entry? h = some ⟨.head link, n, pinned⟩ := by
  obtain ⟨⟨c, n', pinned'⟩, he, ht⟩ := Option.bind_eq_some_iff.1 ha
  cases c with
  | head link => cases ht; exact ⟨link, he⟩
  | element => cases ht

/-- What is tallied as a string is the entry of one. -/
theorem tally?_str {heap : Heap} {n : Nat} {pinned : Bool}
    (hs : heap.tally? (.str h) = some (n, pinned)) :
    ∃ text, heap.strings.entry? h = some ⟨text, n, pinned⟩ := by
  obtain ⟨⟨text, n', pinned'⟩, he, ht⟩ := Option.map_eq_some_iff.1 hs
  cases ht
  exact ⟨text, he⟩

/-- The references to strings and arrays are counted right, with the owned values `m`. -/
structure Balanced (heap : Heap) (m : Multiset Value) (pins : Set Value) : Prop where
  strings : heap.strings.WellFormed
  cells : heap.cells.WellFormed
  laid : ∃ φ, Layout.Laid heap.cells.get? φ
  element : ∀ {h e n pinned}, heap.cells.entry? h = some ⟨.element e, n, pinned⟩ →
    n = 1 ∧ pinned = false
  tally : heap.tally?.Right (m + heap.stored) pins

/-- A value leads to something, if it has a handle. -/
def Live (heap : Heap) (v : Value) : Prop :=
  v.isCounted → ∃ n pinned, heap.tally? v = some (n, pinned)

/-- The books of a heap: its arrays are laid out as `φ`, the values `m` are owned, those in
    `pins` are pinned, and those in `gone` lead nowhere. -/
structure Booked (heap : Heap) (φ : Handle → List (Handle × Element)) (m : Multiset Value)
    (pins gone : Set Value) : Prop where
  strings : heap.strings.WellFormed
  cells : heap.cells.WellFormed
  laid : Layout.Laid heap.cells.get? φ
  element : ∀ {h e n pinned}, heap.cells.entry? h = some ⟨.element e, n, pinned⟩ →
    n = 1 ∧ pinned = false
  tally : heap.tally?.Exact (m + heap.stored) pins gone
  stale : ∀ v ∈ gone, heap.isLive v = false

/-- No value that is gone will be made again by the next allocation. -/
structure Spares (heap : Heap) (gone : Set Value) : Prop where
  strings : ∀ {text h q}, heap.strings.Allocated text h q → .str h ∉ gone
  cells : ∀ {c h q}, heap.cells.Allocated c h q → .array h ∉ gone

variable {heap : Heap} {φ : Handle → List (Handle × Element)} {m m' : Multiset Value}
  {pins pins' gone : Set Value} {v : Value} {n n' : Nat} {pinned pinned' : Bool}
  {link : Option Handle}

/-- Nothing given back spares every heap. -/
theorem Spares.empty (heap : Heap) : heap.Spares ∅ :=
  ⟨fun _ => Set.notMem_empty _, fun _ => Set.notMem_empty _⟩

/-- The books of a balanced heap have nothing gone. -/
theorem Balanced.booked (hb : heap.Balanced m pins) :
    ∃ φ, ∃ p ⊆ pins, heap.Booked φ m p ∅ := by
  obtain ⟨φ, hl⟩ := hb.laid
  obtain ⟨p, hp, ht⟩ := Tally.right_iff.1 hb.tally
  exact ⟨φ, p, hp, hb.strings, hb.cells, hl, hb.element, ht, fun _ hv => hv.elim⟩

/-- Books with nothing gone are those of a balanced heap, which may pin fewer values than allowed.
    -/
theorem Booked.balanced (hk : heap.Booked φ m pins ∅) (hp : pins ⊆ pins') :
    heap.Balanced m pins' :=
  ⟨hk.strings, hk.cells, ⟨φ, hk.laid⟩, hk.element, Tally.right_iff.2 ⟨pins, hp, hk.tally⟩⟩

/-! ### What leads somewhere -/

/-- A value that the tally has is live. -/
theorem isLive_of_tally? (hv : heap.tally? v = some (n, pinned)) : heap.isLive v := by
  cases v with
  | int => rfl
  | float => rfl
  | str h =>
    obtain ⟨text, he⟩ := tally?_str hv
    simp [isLive, Pool.isLive, he]
  | array h =>
    obtain ⟨link, he⟩ := tally?_head hv
    simp [isLive, Pool.isLive, he]

/-- What is live is so for the program too. -/
theorem Live.isLive (hv : heap.Live v) : heap.isLive v = true := by
  cases hc : v.isCounted with
  | true =>
    obtain ⟨n, pinned, ht⟩ := hv hc
    exact isLive_of_tally? ht
  | false => cases v <;> first | rfl | cases hc

/-- Changing a string that is there makes nothing live. -/
theorem isLive_strings {e : Entry String} (he : strings.entry? h = some e)
    {x : Option (Entry String)} (hs : strings'.entry? = Function.update strings.entry? h x)
    (hv : isLive ⟨strings, cells⟩ v = false) : isLive ⟨strings', cells⟩ v = false := by
  cases v with
  | str k =>
    have hk : k ≠ h := by rintro rfl; simp [isLive, Pool.isLive, he] at hv
    simpa [isLive, Pool.isLive, hs, Function.update_of_ne hk] using hv
  | _ => exact hv

/-- Changing a cell that is there makes nothing live. -/
theorem isLive_cells {e : Entry Cell} (he : cells.entry? h = some e)
    {x : Option (Entry Cell)} (hc : cells'.entry? = Function.update cells.entry? h x)
    (hv : isLive ⟨strings, cells⟩ v = false) : isLive ⟨strings, cells'⟩ v = false := by
  cases v with
  | array k =>
    have hk : k ≠ h := by rintro rfl; simp [isLive, Pool.isLive, he] at hv
    simpa [isLive, Pool.isLive, hc, Function.update_of_ne hk] using hv
  | _ => exact hv

/-- A new string is the only thing that becomes live. -/
theorem isLive_allocated_string {text : String} (hal : strings.Allocated text h strings')
    (hne : v ≠ .str h) (hv : isLive ⟨strings, cells⟩ v = false) :
    isLive ⟨strings', cells⟩ v = false := by
  cases v with
  | str k =>
    have hk : k ≠ h := by rintro rfl; exact hne rfl
    simpa [isLive, Pool.isLive, hal.entry?, Function.update_of_ne hk] using hv
  | _ => exact hv

/-- A new cell is the only thing that becomes live. -/
theorem isLive_allocated_cell {c : Cell} (hal : cells.Allocated c h cells')
    (hne : v ≠ .array h) (hv : isLive ⟨strings, cells⟩ v = false) :
    isLive ⟨strings, cells'⟩ v = false := by
  cases v with
  | array k =>
    have hk : k ≠ h := by rintro rfl; exact hne rfl
    simpa [isLive, Pool.isLive, hal.entry?, Function.update_of_ne hk] using hv
  | _ => exact hv

/-- Nothing is done with a number, or with a value that leads nowhere. -/
theorem pin_absent (hv : v.isCounted → heap.isLive v = false) : heap.pin v = heap := by
  cases v with
  | int => rfl
  | float => rfl
  | str h =>
    have he : heap.strings.entry? h = none := by simpa [isLive, Pool.isLive] using hv rfl
    simp only [Heap.pin, Pool.pin, he]
  | array h =>
    have he : heap.cells.entry? h = none := by simpa [isLive, Pool.isLive] using hv rfl
    simp only [Heap.pin, Pool.pin, he]

/-! ### What is made -/

theorem wellFormed_empty (strings cells : Nat) :
    (Heap.empty strings cells).strings.WellFormed ∧ (Heap.empty strings cells).cells.WellFormed :=
  have hlt (n : Nat) : min n maxSlots < UInt32.size :=
    (min_le_right n maxSlots).trans_lt (Nat.sub_one_lt (by decide))
  ⟨Pool.wellFormed_empty "string" (hlt strings), Pool.wellFormed_empty "array" (hlt cells)⟩

/-- A string is allocated where there is room, and else nothing changes. -/
theorem allocString_cases (hw : heap.strings.WellFormed) (text : String) :
    (∃ h strings, heap.allocString text = (.ok (.str h), ⟨strings, heap.cells⟩) ∧
      heap.strings.Allocated text h strings) ∨
    heap.allocString text =
      (.error (.poolExhausted heap.strings.name heap.strings.capacity), heap) := by
  obtain ⟨strings, cells⟩ := heap
  rcases hw.alloc_cases text with ⟨h, strings', ha, hal⟩ | ⟨ha, -⟩
  · exact .inl ⟨h, strings', by simp only [Heap.allocString, ha]; rfl, hal⟩
  · exact .inr (by simp only [Heap.allocString, ha]; rfl)

/-- An array is allocated where there is room, and else nothing changes. -/
theorem allocArray_cases (hw : heap.cells.WellFormed) :
    (∃ h cells, heap.allocArray = (.ok (.array h), ⟨heap.strings, cells⟩) ∧
      heap.cells.Allocated (.head none) h cells) ∨
    heap.allocArray =
      (.error (.poolExhausted heap.cells.name heap.cells.capacity), heap) := by
  obtain ⟨strings, cells⟩ := heap
  rcases hw.alloc_cases (.head none) with ⟨h, cells', ha, hal⟩ | ⟨ha, -⟩
  · exact .inl ⟨h, cells', by simp only [Heap.allocArray, ha]; rfl, hal⟩
  · exact .inr (by simp only [Heap.allocArray, ha]; rfl)

/-! ### What is stored -/

/-- A cell that is vacated gives its values to the list of what remains. -/
theorem stored_vacate {e : Entry Cell} (he : cells.entry? h = some e) :
    cells.stored = e.content.values + (cells.vacate h.index).stored :=
  Multiset.coe_eq_coe.2 ((Pool.contents_vacate he).flatMap_right _)

/-- Counting changes nothing that is stored. -/
theorem stored_recount {c : Cell} (he : cells.entry? h = some ⟨c, n, pinned⟩) :
    (cells.put h.index ⟨c, n', pinned'⟩).stored = cells.stored := by
  obtain ⟨rest, hr, hr'⟩ := Pool.contents_put he ⟨c, n', pinned'⟩
  exact Multiset.coe_eq_coe.2 ((hr'.flatMap_right _).trans (hr.flatMap_right _).symm)

/-! ### Books -/

namespace Booked

/-- The books of an empty heap are empty. -/
theorem empty (strings cells : Nat) : (Heap.empty strings cells).Booked (fun _ => []) 0 ∅ ∅ where
  strings := (wellFormed_empty ..).1
  cells := (wellFormed_empty ..).2
  laid := by
    have : (Heap.empty strings cells).cells.get? = fun _ => none := by
      funext h
      simp [Heap.empty, Pool.empty, Pool.get?, Pool.entry?]
    rw [this]
    exact .none
  element he := by simp [Heap.empty, Pool.empty, Pool.entry?] at he
  tally := by
    have : (Heap.empty strings cells).tally? = fun _ => none := by
      funext v
      cases v <;> simp [tally?, Heap.empty, Pool.empty, Pool.entry?]
    have hs : (Heap.empty strings cells).stored = 0 := by
      simp [stored, Pool.stored, Heap.empty, Pool.empty, Pool.contents]
    rw [this, hs]
    exact .none fun v hv => absurd hv (Multiset.notMem_zero v)
  stale _ hv := hv.elim

/-! ### What is there -/

/-- What is owned is there, if it is not gone. -/
theorem known (hk : heap.Booked φ m pins gone) (hv : v ∈ m) : heap.Live v ∨ v ∈ gone :=
  hk.tally.owned (Multiset.mem_add.2 (.inl hv))

/-- What is stored is live, or gone for good. -/
theorem known_stored (hk : heap.Booked φ m pins gone) (hv : v ∈ heap.stored) :
    heap.Live v ∨ v ∈ gone :=
  hk.tally.owned (Multiset.mem_add.2 (.inr hv))

/-- What is owned is live, or gone for good. -/
theorem known_owned (hk : heap.Booked φ ({v} + m) pins gone) : heap.Live v ∨ v ∈ gone :=
  hk.known (Multiset.mem_add.2 (.inl (Multiset.mem_singleton_self v)))

/-- What is known but not there is gone, or a number. -/
theorem gone_of_known (hv : heap.Live v ∨ v ∈ gone) (ht : heap.tally? v = none)
    (hc : v.isCounted) : v ∈ gone :=
  hv.resolve_left fun hl => by
    obtain ⟨n, pinned, ht'⟩ := hl hc
    cases ht.symm.trans ht'

/-- What is counted and not tallied is gone, and the program finds it stale. -/
theorem stale_of_known (hk : heap.Booked φ m pins gone) (hv : heap.Live v ∨ v ∈ gone)
    (ht : heap.tally? v = none) (hc : v.isCounted) : heap.isLive v = false :=
  hk.stale v (gone_of_known hv ht hc)

/-! ### What is not counted -/

/-- A number and a value that is gone can be owned besides. -/
theorem add_absent (hk : heap.Booked φ m pins gone) (hv : heap.tally? v = none)
    (hg : v.isCounted → v ∈ gone) : heap.Booked φ ({v} + m) pins gone :=
  { hk with tally := by rw [add_assoc]; exact hk.tally.add_absent hv hg }

/-- What is not tallied need not be given back. -/
theorem of_absent (hk : heap.Booked φ ({v} + m) pins gone) (hv : heap.tally? v = none) :
    heap.Booked φ m pins gone :=
  { hk with tally := (add_assoc {v} m _ ▸ hk.tally).of_absent hv }

theorem number (hk : heap.Booked φ m pins gone) (hv : v.isCounted = false) :
    heap.Booked φ ({v} + m) pins gone :=
  hk.add_absent (heap.tally?_number hv) (by simp [hv])

/-- Pinning what is not tallied changes nothing in the heap. -/
theorem repin_absent (hk : heap.Booked φ m pins gone) (hv : heap.tally? v = none)
    (hpins : ∀ w ≠ v, w ∈ pins' ↔ w ∈ pins) (hg : v.isCounted → v ∈ gone) :
    heap.Booked φ m pins' gone :=
  { hk with tally := hk.tally.repin_absent hv hpins hg }

/-! ### Strings -/

/-- An entry of a string is recounted, and only its share of the tally with it. -/
theorem recount_string (hk : Booked ⟨strings, cells⟩ φ m pins gone) {text : String}
    (he : strings.entry? h = some ⟨text, n, pinned⟩)
    (ht : Tally.Exact (Function.update (tally? ⟨strings, cells⟩) (.str h) (some (n', pinned')))
      (m' + cells.stored) pins' gone) :
    Booked ⟨strings.put h.index ⟨text, n', pinned'⟩, cells⟩ φ m' pins' gone where
  __ := hk
  strings := hk.strings.put he _
  tally := by
    rw [tally?_strings (Pool.entry?_put he _)]
    exact ht
  stale v hv := isLive_strings he (Pool.entry?_put he _) (hk.stale v hv)

/-- An entry of a string is forgotten, and only its share of the tally with it. -/
theorem forget_string (hk : Booked ⟨strings, cells⟩ φ m pins gone) {e : Entry String}
    (he : strings.entry? h = some e)
    (ht : Tally.Exact (Function.update (tally? ⟨strings, cells⟩) (.str h) none)
      (m' + cells.stored) pins' gone) :
    Booked ⟨strings.vacate h.index, cells⟩ φ m' pins' gone where
  __ := hk
  strings := hk.strings.vacate he
  tally := by
    rw [tally?_strings (Pool.entry?_vacate he)]
    exact ht
  stale v hv := isLive_strings he (Pool.entry?_vacate he) (hk.stale v hv)

/-! ### Heads -/

/-- The counter and the pin of a head change. -/
theorem recount_head (hk : Booked ⟨strings, cells⟩ φ m pins gone)
    (he : cells.entry? h = some ⟨.head link, n, pinned⟩)
    (ht : Tally.Exact (Function.update (tally? ⟨strings, cells⟩) (.array h) (some (n', pinned')))
      (m' + cells.stored) pins' gone) :
    Booked ⟨strings, cells.put h.index ⟨.head link, n', pinned'⟩⟩ φ m' pins' gone := by
  have hput := Pool.entry?_put he ⟨.head link, n', pinned'⟩
  have hget : (cells.put h.index ⟨.head link, n', pinned'⟩).get? = cells.get? := by
    rw [Pool.get?_update hput, Function.update_eq_self_iff, Pool.get?, he]
    rfl
  refine ⟨hk.strings, hk.cells.put he _, by rw [hget]; exact hk.laid, fun {k e c p} hke => ?_, ?_,
    fun v hv => isLive_cells he hput (hk.stale v hv)⟩
  · by_cases hkh : k = h
    · subst hkh; simp [hput] at hke
    · rw [hput, Function.update_of_ne hkh] at hke
      exact hk.element hke
  · rw [tally?_cells hput]
    change Tally.Exact _ (m' + Pool.stored _) pins' gone
    rw [stored_recount he]
    exact ht

/-- A new string is owned once. -/
theorem add_string (hk : Booked ⟨strings, cells⟩ φ m pins gone) {text : String}
    (ha : strings.Allocated text h strings') (hg : .str h ∉ gone) :
    Booked ⟨strings', cells⟩ φ ({.str h} + m) pins gone where
  __ := hk
  strings := ha.wellFormed hk.strings
  tally := by
    rw [tally?_strings ha.entry?, add_assoc]
    exact hk.tally.alloc rfl (by simp [tally?, ha.vacant]) hg
  stale v hv := isLive_allocated_string ha (fun he => hg (he ▸ hv)) (hk.stale v hv)

/-- A new head, without elements, is owned once. -/
theorem add_head (hk : Booked ⟨strings, cells⟩ φ m pins gone)
    (ha : cells.Allocated (.head none) h cells') (hg : .array h ∉ gone) :
    Booked ⟨strings, cells'⟩ (Function.update φ h []) ({.array h} + m) pins gone := by
  have hget : cells'.get? = Function.update cells.get? h (some (.head none)) :=
    Pool.get?_update ha.entry?
  have hvacant : cells.get? h = none := by simp [Pool.get?, ha.vacant]
  refine ⟨hk.strings, ha.wellFormed hk.cells, hget ▸ hk.laid.add_head hvacant,
    fun {k e c p} hke => ?_, ?_,
    fun v hv => isLive_allocated_cell ha (fun he => hg (he ▸ hv)) (hk.stale v hv)⟩
  · by_cases hkh : k = h
    · subst hkh; simp [ha.entry?] at hke
    · rw [ha.entry?, Function.update_of_ne hkh] at hke
      exact hk.element hke
  · have hstored : cells'.stored = cells.stored :=
      Multiset.coe_eq_coe.2 (ha.contents.flatMap_right _)
    rw [tally?_cells ha.entry?]
    change Tally.Exact _ ({.array h} + m + Pool.stored _) pins gone
    rw [hstored, add_assoc]
    exact hk.tally.alloc rfl (by simp [tally?, ha.vacant]) hg

/-! ### Copying and pinning values -/

/-- Who copies a value owns one more. -/
theorem retain (hk : heap.Booked φ m pins gone) (hv : heap.Live v ∨ v ∈ gone) {heap' : Heap}
    (hr : heap.Retains v heap') : heap'.Booked φ ({v} + m) pins gone := by
  cases ht : heap.tally? v with
  | none =>
    -- What leads nowhere is not copied, so this is a number.
    cases hc : v.isCounted with
    | true =>
      have := hk.stale_of_known hv ht hc
      rw [hr.isLive] at this
      cases this
    | false =>
      cases hr with
      | number => exact hk.number hc
      | str | array => cases hc
  | some x =>
    obtain ⟨strings, cells⟩ := heap
    cases hr with
    | number hc => cases (tally?_number _ hc).symm.trans ht
    | str he' =>
      obtain ⟨text, he⟩ := tally?_str ht
      cases he'.symm.trans he
      refine hk.recount_string he ?_
      rw [add_assoc]
      exact hk.tally.retain ht
    | array he' =>
      obtain ⟨link, he⟩ := tally?_head ht
      cases he'.symm.trans he
      refine hk.recount_head he ?_
      rw [add_assoc]
      exact hk.tally.retain ht

/-- What is pinned joins the pinned values. Nobody owns more or less. -/
theorem pin (hk : heap.Booked φ m pins gone) (hv : heap.Live v ∨ v ∈ gone) :
    (heap.pin v).Booked φ m (insert v pins) gone := by
  cases ht : heap.tally? v with
  | none =>
    rw [pin_absent (hk.stale_of_known hv ht)]
    exact hk.repin_absent ht (fun w hw => by simp [hw]) (gone_of_known hv ht)
  | some x =>
    obtain ⟨strings, cells⟩ := heap
    cases v with
    | int => cases ht
    | float => cases ht
    | str h =>
      obtain ⟨text, he⟩ := tally?_str ht
      simp only [Heap.pin, Pool.pin, he]
      exact hk.recount_string he (hk.tally.set_pin ht)
    | array h =>
      obtain ⟨link, he⟩ := tally?_head ht
      simp only [Heap.pin, Pool.pin, he]
      exact hk.recount_head he (hk.tally.set_pin ht)

end Booked

namespace Balanced

theorem empty (strings cells : Nat) : (Heap.empty strings cells).Balanced 0 pins :=
  (Booked.empty strings cells).balanced (Set.empty_subset _)

/-! ### What is there -/

/-- What is owned is live in a balanced heap. -/
theorem live (hb : heap.Balanced m pins) (hv : v ∈ m) : heap.Live v :=
  hb.tally.live (Multiset.mem_add.2 (.inl hv))

/-- What is stored is live in a balanced heap. -/
theorem live_stored (hb : heap.Balanced m pins) (hv : v ∈ heap.stored) : heap.Live v :=
  hb.tally.live (Multiset.mem_add.2 (.inr hv))

theorem live_owned (hb : heap.Balanced ({v} + m) pins) : heap.Live v :=
  hb.live (Multiset.mem_add.2 (.inl (Multiset.mem_singleton_self _)))

/-! ### Numbers -/

theorem number (hb : heap.Balanced m pins) (hv : v.isCounted = false) :
    heap.Balanced ({v} + m) pins := by
  obtain ⟨φ, p, hp, hk⟩ := hb.booked
  exact (hk.number hv).balanced hp

theorem of_number (hb : heap.Balanced ({v} + m) pins) (hv : v.isCounted = false) :
    heap.Balanced m pins := by
  obtain ⟨φ, p, hp, hk⟩ := hb.booked
  exact (hk.of_absent (heap.tally?_number hv)).balanced hp

/-! ### Making and copying values -/

/-- Who makes a string owns it. Without room the heap is as before. -/
theorem allocString (hb : heap.Balanced m pins) (text : String) :
    (∃ v heap', heap.allocString text = (.ok v, heap') ∧ heap'.Balanced ({v} + m) pins) ∨
      (heap.allocString text =
        (.error (.poolExhausted heap.strings.name heap.strings.capacity), heap)) := by
  obtain ⟨φ, p, hp, hk⟩ := hb.booked
  refine (allocString_cases hk.strings text).imp_left ?_
  rintro ⟨h, strings, ha, hal⟩
  exact ⟨.str h, _, ha, (hk.add_string hal (Set.notMem_empty _)).balanced hp⟩

/-- Who makes an array owns it. Without room the heap is as before. -/
theorem allocArray (hb : heap.Balanced m pins) :
    (∃ v heap', heap.allocArray = (.ok v, heap') ∧ heap'.Balanced ({v} + m) pins) ∨
      (heap.allocArray = (.error (.poolExhausted heap.cells.name heap.cells.capacity), heap)) := by
  obtain ⟨φ, p, hp, hk⟩ := hb.booked
  refine (allocArray_cases hk.cells).imp_left ?_
  rintro ⟨h, cells, ha, hal⟩
  exact ⟨.array h, _, ha, (hk.add_head hal (Set.notMem_empty _)).balanced hp⟩

/-- Who copies a live value owns one more, and the heap stays balanced. -/
theorem retain (hb : heap.Balanced m pins) (hv : heap.Live v) {heap' : Heap}
    (hr : heap.Retains v heap') : heap'.Balanced ({v} + m) pins := by
  obtain ⟨φ, p, hp, hk⟩ := hb.booked
  exact (hk.retain (.inl hv) hr).balanced hp

/-- A live value may be pinned at any time. -/
theorem pin (hb : heap.Balanced m pins) (hv : heap.Live v) :
    (heap.pin v).Balanced m (insert v pins) := by
  obtain ⟨φ, p, hp, hk⟩ := hb.booked
  exact (hk.pin (.inl hv)).balanced (Set.insert_subset_insert hp)

end Balanced

end Heap

end PoolScript
