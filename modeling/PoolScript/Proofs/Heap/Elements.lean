import PoolScript.Proofs.Heap.Outcome

/-!
# Changing arrays

Operations that take values own them, and what they give out is owned by whoever asked. So
an operation that is given the values `vs` in a heap whose books have `vs + m` leaves a heap
whose books have what it gives out and `m`: each outcome of an operation keeps the books, with
the chains that it tells. In a balanced heap (`Heap.Yields`) an operation that fails gives out
nothing, has given back what it took, and the fault is not that a handle leads nowhere.

* `Booked.set_value`, `Booked.add_element`, `Booked.take_element`: the three changes of a chain;
* `Booked.fetch`, `Booked.entry`, `Booked.set`, `Booked.remove`: the operations, and the same
  for balanced heaps.
-/

namespace PoolScript.Heap

variable {α : Type} {heap : Heap} {strings : Pool String} {cells cells' : Pool Cell}
  {a b h : Handle} {e : Element} {c : Cell} {link : Option Handle}
  {xs ys : List (Handle × Element)} {φ φ' : Handle → List (Handle × Element)}
  {m : Multiset Value} {pins gone : Set Value} {key v : Value} {s : Scalar} {n k : Nat}
  {pinned : Bool}

/-- What an operation gives out is owned besides `m`. A fault gives out nothing. -/
def Yields (own : α → Multiset Value) (m : Multiset Value) (pins : Set Value) :
    Except Fault α × Heap → Prop
  | (.ok a, heap) => heap.Balanced (own a + m) pins
  | (.error f, heap) => heap.Balanced m pins ∧ ¬f.Dangling

/-- What is owned after an operation that gives out no value. -/
abbrev nothing {α : Type} (_ : α) : Multiset Value := 0

/-- What succeeds without a change yields nothing. -/
theorem Yields.ok {x : α} (hb : heap.Balanced m pins) : Yields nothing m pins (.ok x, heap) := by
  rwa [Yields, zero_add]

theorem coe_pair (v w : Value) : (([v, w] : List Value) : Multiset Value) = {v} + {w} := rfl

/-! ### Cells in place -/

/-- A cell that is rewritten exchanges the values that it owns. -/
theorem stored_put (he : cells.entry? h = some ⟨c, n, pinned⟩) (c' : Cell) :
    c'.values + cells.stored = c.values + (cells.put h.index ⟨c', n, pinned⟩).stored := by
  obtain ⟨rest, hr, hr'⟩ := Pool.contents_put he ⟨c', n, pinned⟩
  have h₁ := Multiset.coe_eq_coe.2 (hr.flatMap_right Cell.values)
  have h₂ := Multiset.coe_eq_coe.2 (hr'.flatMap_right Cell.values)
  simp only [List.flatMap_cons, ← Multiset.coe_add] at h₁ h₂
  rw [Pool.stored, Pool.stored, h₁, h₂]
  abel

/-- A link that is set leaves the values of a cell. -/
theorem values_withNext (c : Cell) (link : Option Handle) :
    (c.withNext link).values = c.values := by
  cases c <;> rfl

/-- A link that is set leaves what a cell is tallied with. -/
theorem tally_withNext (c : Cell) (link : Option Handle) :
    Entry.tally ⟨c.withNext link, n, pinned⟩ = Entry.tally ⟨c, n, pinned⟩ := by
  cases c <;> rfl

/-- A cell that leads somewhere else stores the same. -/
theorem stored_relink (he : cells.entry? h = some ⟨c, n, pinned⟩) (link : Option Handle) :
    (cells.put h.index ⟨c.withNext link, n, pinned⟩).stored = cells.stored := by
  have := stored_put he (c.withNext link)
  rw [values_withNext] at this
  exact (add_left_cancel this).symm

/-- Links have no part in the tally. -/
theorem tally?_relink (he : cells.entry? h = some ⟨c, n, pinned⟩) (link : Option Handle) :
    tally? ⟨strings, cells.put h.index ⟨c.withNext link, n, pinned⟩⟩ = tally? ⟨strings, cells⟩ := by
  rw [tally?_cells (Pool.entry?_put he _), Function.update_eq_self_iff, Option.bind_some,
    tally_withNext]
  simp [tally?, he]

/-- Elements have no part in the tally. -/
theorem tally?_element {x : Option (Entry Cell)}
    (hq : cells'.entry? = Function.update cells.entry? h x)
    (hold : ∀ y, cells.entry? h = some y → y.tally = none)
    (hnew : ∀ y, x = some y → y.tally = none) :
    tally? ⟨strings, cells'⟩ = tally? ⟨strings, cells⟩ := by
  rw [tally?_cells hq, Function.update_eq_self_iff]
  refine (Option.bind_eq_none_iff.2 hnew).trans (Option.bind_eq_none_iff.2 hold).symm

/-! ### Books and chains -/

/-- Counting references does not make a live value stale. -/
theorem Retains.live {heap' : Heap} (hr : heap.Retains v heap') {w : Value} (hw : heap.Live w) :
    heap'.Live w := by
  obtain ⟨strings, cells⟩ := heap
  intro hc
  obtain ⟨n, pinned, ht⟩ := hw hc
  -- Only the counter of `v` changes, and `w` may be `v`.
  cases hr with
  | number => exact ⟨n, pinned, ht⟩
  | @str h e he =>
    rw [tally?_strings (Pool.entry?_put he _)]
    by_cases hwh : w = .str h
    · exact ⟨_, _, by rw [hwh, Function.update_self]; rfl⟩
    · exact ⟨n, pinned, by rwa [Function.update_of_ne hwh]⟩
  | @array h e he =>
    rw [tally?_cells (Pool.entry?_put he _)]
    by_cases hwh : w = .array h
    · subst hwh
      obtain ⟨link, he'⟩ := tally?_head ht
      obtain rfl := Option.some.inj (he.symm.trans he')
      exact ⟨_, _, Function.update_self ..⟩
    · exact ⟨n, pinned, by rwa [Function.update_of_ne hwh]⟩

namespace Booked

/-- An element that is given another value gives out the one it had. -/
theorem set_value (hk : Booked ⟨strings, cells⟩ φ ({v} + m) pins gone)
    (he : cells.entry? h = some ⟨.element e, n, pinned⟩) :
    Booked ⟨strings, cells.put h.index ⟨.element { e with value := v }, n, pinned⟩⟩
      (fun b => Layout.Chain.revalue h v (φ b)) ({e.value} + m) pins gone := by
  have hput := Pool.entry?_put he ⟨.element { e with value := v }, n, pinned⟩
  have hstored := stored_put he (.element { e with value := v })
  simp only [Cell.values, coe_pair] at hstored
  have hl := hk.laid.set_value (Pool.get?_eq_some.2 ⟨_, _, he⟩) v
  refine ⟨hk.strings, hk.cells.put he _, Pool.get?_put he _ ▸ hl, fun {k d n p} hkd => ?_, ?_,
    fun w hw => isLive_cells he hput (hk.stale w hw)⟩
  · by_cases hkh : k = h
    · subst hkh
      simp only [hput, Function.update_self, Option.some.injEq, Entry.mk.injEq] at hkd
      exact hkd.2.1 ▸ hkd.2.2 ▸ hk.element he
    · rw [hput, Function.update_of_ne hkh] at hkd
      exact hk.element hkd
  · rw [tally?_element hput (by simp [he, Entry.tally]) (by simp [Entry.tally])]
    -- All but the value stays, so one stored value is exchanged for another.
    have hm :
      {e.value} + m + (cells.put h.index ⟨.element { e with value := v }, n, pinned⟩).stored =
        {v} + m + cells.stored := by
      refine add_left_cancel (a := {e.key}) ?_
      calc {e.key} + ({e.value} + m + Pool.stored _)
          = ({e.key} + {e.value} + Pool.stored _) + m := by abel
        _ = ({e.key} + {v} + cells.stored) + m := by rw [hstored]
        _ = _ := by abel
    exact hm ▸ hk.tally

/-- A new first element stores the key and the value. -/
theorem add_element (hk : Booked ⟨strings, cells⟩ φ ({key} + ({v} + m)) pins gone)
    (ha : cells.entry? a = some ⟨.head link, n, pinned⟩)
    (hal : cells.Allocated (.element ⟨key, v, link⟩) h cells') (hg : .array h ∉ gone) :
    Booked ⟨strings, cells'.put a.index ⟨.head (some h), n, pinned⟩⟩
      (Function.update φ a ((h, ⟨key, v, link⟩) :: φ a)) m pins gone := by
  have hah : a ≠ h := by rintro rfl; simp [hal.vacant] at ha
  have ha' : cells'.entry? a = some ⟨.head link, n, pinned⟩ := by
    rw [hal.entry?, Function.update_of_ne hah, ha]
  have hput := Pool.entry?_put ha' ⟨.head (some h), n, pinned⟩
  -- The head leads to the new element now, and the new element to what was first.
  have hvacant : cells.get? h = none := by simp [Pool.get?, hal.vacant]
  have hl := hk.laid.insert (Pool.get?_eq_some.2 ⟨_, _, ha⟩) hvacant key v
  refine ⟨hk.strings, (hal.wellFormed hk.cells).put ha' _, get?_inserted ha hal ▸ hl,
    fun {k d n p} hkd => ?_, ?_, fun w hw => ?_⟩
  · rw [hput] at hkd
    by_cases hka : k = a
    · subst hka; simp at hkd
    · rw [Function.update_of_ne hka, hal.entry?] at hkd
      by_cases hkh : k = h
      · subst hkh
        simp only [Function.update_self, Option.some.injEq, Entry.mk.injEq] at hkd
        exact ⟨hkd.2.1.symm, hkd.2.2.symm⟩
      · rw [Function.update_of_ne hkh] at hkd
        exact hk.element hkd
  · have hstored : (cells'.put a.index ⟨.head (some h), n, pinned⟩).stored =
        {key} + {v} + cells.stored :=
      (stored_relink ha' (some h)).trans (Multiset.coe_eq_coe.2 (hal.contents.flatMap_right _))
    change Tally.Exact _ (m + Pool.stored _) pins gone
    rw [show Heap.mk strings (cells'.put a.index ⟨.head (some h), n, pinned⟩) =
        ⟨strings, cells'.put a.index ⟨(Cell.head link).withNext (some h), n, pinned⟩⟩ from rfl,
      tally?_relink ha', tally?_element hal.entry? (by simp [hal.vacant]) (by simp [Entry.tally])]
    have hm : m + (cells'.put a.index ⟨.head (some h), n, pinned⟩).stored =
        {key} + ({v} + m) + cells.stored := by
      rw [hstored]
      abel
    exact hm ▸ hk.tally
  · have hwh : w ≠ .array h := by rintro rfl; exact hg hw
    exact isLive_cells ha' hput (isLive_allocated_cell hal hwh (hk.stale w hw))

/-- An element that is taken out of its array gives out its key and its value. -/
theorem take_element (hk : Booked ⟨strings, cells⟩ φ m pins gone)
    (ha : cells.get? a = some (.head link)) (hx : φ a = xs ++ (h, e) :: ys)
    (hbe : (xs.map (·.1)).getLastD a = b) (he : cells.entry? b = some ⟨c, n, pinned⟩) :
    Booked ⟨strings, (cells.put b.index ⟨c.withNext e.next, n, pinned⟩).vacate h.index⟩
      (Function.update φ a (Layout.Chain.relink b e.next (xs ++ ys)))
      ({e.key} + ({e.value} + m)) pins gone := by
  have hbh : b ≠ h := hk.laid.before_ne ha hx hbe
  obtain ⟨n', pinned', hh⟩ :=
    Pool.get?_eq_some.1 (hk.laid.element ha (h := h) (e := e) (by simp [hx]))
  -- The cell before it is relinked first, and then its own cell is vacated.
  have hput := Pool.entry?_put he ⟨c.withNext e.next, n, pinned⟩
  have hh' : Pool.entry? (cells.put b.index ⟨c.withNext e.next, n, pinned⟩) h =
      some ⟨.element e, n', pinned'⟩ := by
    rw [hput, Function.update_of_ne hbh.symm]
    exact hh
  have hvac := Pool.entry?_vacate hh'
  have hl := hk.laid.unlink ha hx hbe (Pool.get?_eq_some.2 ⟨_, _, he⟩)
  refine ⟨hk.strings, (hk.cells.put he _).vacate hh',
    get?_unlinked hk.laid ha hx hbe he ▸ hl, fun {k d n₁ p₁} hkd => ?_, ?_,
    fun w hw => isLive_cells hh' hvac (isLive_cells he hput (hk.stale w hw))⟩
  · change Pool.entry? _ _ = _ at hkd
    have hkh : k ≠ h := by rintro rfl; simp [hvac] at hkd
    rw [hvac, Function.update_of_ne hkh, hput] at hkd
    by_cases hkb : k = b
    · rw [hkb, Function.update_self] at hkd
      cases c with
      | head => cases hkd
      | element => cases hkd; exact hk.element he
    · rw [Function.update_of_ne hkb] at hkd
      exact hk.element hkd
  · -- Relinking counts nothing, and the cell of an element is in no tally.
    have hstored := stored_vacate hh'
    rw [stored_relink he] at hstored
    rw [tally?_element hvac (by simp [hh', Entry.tally]) (by rintro _ ⟨⟩), tally?_relink he]
    change Tally.Exact _ (_ + Pool.stored _) pins gone
    have hm : {e.key} + ({e.value} + m) +
        ((cells.put b.index ⟨c.withNext e.next, n, pinned⟩).vacate h.index).stored =
          m + cells.stored := by
      rw [hstored, Cell.values, coe_pair]
      abel
    exact hm ▸ hk.tally

/-! ### Operations -/

/-- The key of an element is live, or gone for good. -/
theorem known_key (hk : heap.Booked φ m pins gone) (he : heap.cells.get? h = some (.element e)) :
    heap.Live e.key ∨ e.key ∈ gone :=
  hk.known_stored (mem_stored he (by simp [Cell.values]))

/-- The value of an element is live, or gone for good. -/
theorem known_value (hk : heap.Booked φ m pins gone)
    (he : heap.cells.get? h = some (.element e)) : heap.Live e.value ∨ e.value ∈ gone :=
  hk.known_stored (mem_stored he (by simp [Cell.values]))

/-- The value of the element that was found is owned besides. -/
theorem fetch (hk : heap.Booked φ m pins gone) (a : Handle) (key : Value) :
    (heap.fetch a key).2.Booked φ
      ((match (heap.fetch a key).1 with | .ok o => o.toList | .error _ => [] : List Value) + m)
      pins gone := by
  have ho := fetch_outcome hk.laid a key
  generalize heap.fetch a key = r at ho ⊢
  cases ho with
  | rejected => simpa using hk
  | absent => simpa using hk
  | found head _ find copy =>
    exact hk.retain (hk.known_value (hk.laid.element head (List.mem_of_find?_eq_some find))) copy
  | aborted => simpa using hk

/-- The key and the value of an element are owned besides. -/
theorem entry (hk : heap.Booked φ m pins gone) (cell : Handle) :
    (heap.entry cell).2.Booked φ
      ((match (heap.entry cell).1 with
        | .ok (some (k, v)) => [k, v]
        | _ => [] : List Value) + m) pins gone := by
  rcases heap.entry_cases cell with ⟨-, hr⟩ | ⟨e, he, h⟩
  · rw [hr]
    simpa using hk
  have he := element?_eq_some.1 he
  rcases h with ⟨heap₁, heap₂, hkey, hvalue, hr⟩ | ⟨a, hr, -⟩ | ⟨heap₁, a, hkey, hr, -⟩
  · rw [hr]
    have := (hk.retain (hk.known_key he) hkey).retain
      ((hk.known_value he).imp_left hkey.live) hvalue
    rwa [add_left_comm, ← add_assoc] at this
  · rw [hr]
    simpa using hk
  · rw [hr, Multiset.coe_nil, zero_add]
    have hcopied : heap₁.Booked φ (([e.key] : List Value) + m) pins gone :=
      hk.retain (hk.known_key he) hkey
    exact hcopied.releaseAll

/-- To set an element keeps the books, whichever way it goes out. -/
theorem set {r : Except Fault Unit × Heap} (hk : heap.Booked φ ({key} + ({v} + m)) pins gone)
    (hs : heap.Spares gone) (ho : SetOutcome heap φ a key v r φ') :
    r.2.Booked φ' m pins gone := by
  cases ho with
  | rejected =>
    refine releaseAll ?_
    rwa [coe_pair, add_assoc]
  | replaced _ _ _ cell =>
    refine releaseAll ?_
    rw [coe_pair, add_assoc]
    refine set_value ?_ cell
    rwa [add_left_comm]
  | inserted head _ _ cell => exact hk.add_element head cell (hs.cells cell)

/-- To remove an element keeps the books, whether there is one or not. -/
theorem remove {r : Except Fault Bool × Heap} (hk : heap.Booked φ m pins gone)
    (ho : RemoveOutcome heap φ a s r φ') : r.2.Booked φ' m pins gone := by
  cases ho with
  | rejected => exact hk
  | absent => exact hk
  | taken head _ split _ last cell =>
    refine releaseAll ?_
    rw [coe_pair, add_assoc]
    exact hk.take_element head split last cell

end Booked

namespace Balanced

theorem live_key (hb : heap.Balanced m pins) (he : heap.cells.get? h = some (.element e)) :
    heap.Live e.key :=
  hb.live_stored (mem_stored he (by simp [Cell.values]))

theorem live_value (hb : heap.Balanced m pins) (he : heap.cells.get? h = some (.element e)) :
    heap.Live e.value :=
  hb.live_stored (mem_stored he (by simp [Cell.values]))

/-- What is fetched is owned by whoever asked. -/
theorem fetch (hb : heap.Balanced m pins) (ha : heap.Live (.array a)) (hv : heap.Live key) :
    Yields (fun o : Option Value => (o.toList : Multiset Value)) m pins (heap.fetch a key) := by
  obtain ⟨φ, p, hp, hk⟩ := hb.booked
  have ho := fetch_outcome hk.laid a key
  have hf := hk.fetch a key
  generalize heap.fetch a key = r at ho hf ⊢
  cases ho with
  | rejected fault => exact ⟨hb, fault ha hv⟩
  | absent => exact hf.balanced hp
  | found => exact hf.balanced hp
  | aborted head _ find live =>
    have he := hb.live_value (hk.laid.element head (List.mem_of_find?_eq_some find))
    obtain rfl := live he.isLive
    exact ⟨hb, nofun⟩

/-- A key and a value that are looked at in a walk are owned by the walk. -/
theorem entry (hb : heap.Balanced m pins) (cell : Handle) :
    Yields (fun o : Option (Value × Value) => (o.elim [] fun p => [p.1, p.2] : List Value)) m pins
      (heap.entry cell) := by
  obtain ⟨φ, p, hp, hk⟩ := hb.booked
  have hbooked := hk.entry cell
  rcases heap.entry_cases cell with ⟨-, hr⟩ | ⟨e, he, h⟩
  · rw [hr] at hbooked ⊢
    exact hbooked.balanced hp
  have he := element?_eq_some.1 he
  -- Key and value are live, so that only a count can run over.
  rcases h with ⟨_, _, -, -, hr⟩ | ⟨_, hr, hlive⟩ | ⟨heap₁, _, hkey, hr, hlive⟩
  · rw [hr] at hbooked ⊢
    exact hbooked.balanced hp
  · obtain rfl := hlive (hb.live_key he).isLive
    rw [hr]
    exact ⟨hb, nofun⟩
  · obtain rfl := hlive (hkey.live (hb.live_value he)).isLive
    rw [hr]
    exact ⟨(hb.retain (hb.live_key he) hkey).release, nofun⟩

/-- The key and the value of an element are copied, unless a count runs over. -/
theorem entry_cases (hb : heap.Balanced m pins) (he : heap.element? h = some e) :
    (∃ heap', heap.entry h = (.ok (some (e.key, e.value)), heap')) ∨
      ∃ heap', heap.entry h = (.error (.aborted .countFits), heap') := by
  rcases Heap.entry_cases heap h with ⟨hn, -⟩ | ⟨e', he', hr⟩
  · cases he.symm.trans hn
  obtain rfl := Option.some.inj (he.symm.trans he')
  have hcell := element?_eq_some.1 he
  rcases hr with ⟨_, _, -, -, hr⟩ | ⟨_, hr, hlive⟩ | ⟨_, _, hkey, hr, hlive⟩
  · exact .inl ⟨_, hr⟩
  · obtain rfl := hlive (hb.live_key hcell).isLive
    exact .inr ⟨_, hr⟩
  · obtain rfl := hlive (hkey.live (hb.live_value hcell)).isLive
    exact .inr ⟨_, hr⟩

/-- In a balanced heap an element is set without a fault, but for want of room or for its key. -/
theorem set (hb : heap.Balanced ({key} + ({v} + m)) pins) (ha : heap.Live (.array a)) :
    Yields nothing m pins (heap.set a key v) := by
  obtain ⟨φ, p, hp, hk⟩ := hb.booked
  obtain ⟨φ', ho⟩ := set_outcome hk.cells hk.laid a key v
  have hs := (hk.set (.empty heap) ho).balanced hp
  generalize heap.set a key v = r at ho hs ⊢
  cases ho with
  | rejected fault => exact ⟨hs, fault ha (hb.live (by simp))⟩
  | replaced => exact .ok hs
  | inserted => exact .ok hs

theorem remove (hb : heap.Balanced m pins) (ha : heap.Live (.array a)) (key : Scalar) :
    Yields nothing m pins (heap.remove a key) := by
  obtain ⟨φ, p, hp, hk⟩ := hb.booked
  obtain ⟨φ', ho⟩ := remove_outcome hk.laid a key
  have hr := (hk.remove ho).balanced hp
  generalize heap.remove a key = r at ho hr ⊢
  cases ho with
  | rejected dead => exact absurd ha dead
  | absent => exact .ok hr
  | taken => exact .ok hr

/-- To remove by a key that is a value: the key stays with whoever asked. -/
theorem removeValue (hb : heap.Balanced m pins) (ha : heap.Live (.array a)) (hk : heap.Live key) :
    Yields nothing m pins (heap.removeValue a key) := by
  rw [Heap.removeValue]
  have hs := scalar hk
  generalize heap.scalar key = r at hs ⊢
  cases r with
  | ok s => exact hb.remove ha s
  | error f => exact ⟨hb, hs⟩

end Balanced

end PoolScript.Heap
