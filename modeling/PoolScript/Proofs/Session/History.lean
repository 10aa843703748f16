import PoolScript.Proofs.Session.Actions

/-!
# The history of a session

A session begins with an empty heap. A host that passes in only values that it holds, and
none of them twice, makes a *history*: it is known which values the host holds, and which it
lost when the heap was cleared.

At every point of a history, whatever the program, its host functions and the limits are, and
whatever failed before, the session is at rest (`Session.History.rests`). What the host lost
leads nowhere, as long as no slot has run out of generations (`Session.History.retired`). So
the values of the host and those stored in elements are all that is counted
(`Session.History.accounted`).
-/

namespace PoolScript.Session

variable {program : Program} {limits : Limits} {pins : Set Value} {s : Session}
  {held lost : Multiset Value}

/-- The sessions of a host that holds the values `held` and has lost the values `lost`. It pins
    none but those in `pins`. -/
inductive History (program : Program) (limits : Limits) (pins : Set Value) :
    Session → (held lost : Multiset Value) → Prop
  | new (platform : Platform) : History program limits pins (.new program limits platform) 0 0
  /-- Numbers can be had at any time. -/
  | number {s : Session} {held lost : Multiset Value} {v : Value} :
      History program limits pins s held lost → v.isCounted = false →
      History program limits pins s ({v} + held) lost
  /-- The host does something with some of its values, which gives it others. -/
  | act {s s' : Session} {rest lost : Multiset Value} {a : HostAction} {fuel : Nat}
      {given : List Value} :
      History program limits pins s (a.takes + rest) lost → (∀ v ∈ a.borrows, v ∈ rest) →
      a.PinsIn pins → a.perform fuel s = some (given, s') →
      History program limits pins s' (given + if a.clears then 0 else rest)
        (lost + if a.clears then rest else 0)

namespace History

theorem rests (h : History program limits pins s held lost) : s.Rests held pins := by
  induction h with
  | new platform => exact ⟨.empty .., rfl⟩
  | number _ hv ih => exact ⟨ih.heap.number hv, ih.frames⟩
  | act _ ha hp hr ih => exact HostAction.perform_rests ih ha hp hr

/-- What the host holds is there. -/
theorem isLive (h : History program limits pins s held lost) {v : Value} (hv : v ∈ held) :
    s.state.heap.isLive v := by
  have hl := h.rests.heap.live hv
  cases v with
  | int => rfl
  | float => rfl
  | str k =>
    obtain ⟨text, ht⟩ := Heap.live_str.1 hl
    obtain ⟨n, pinned, he⟩ := Pool.get?_eq_some.1 ht
    simp [Heap.isLive, Pool.isLive, he]
  | array k =>
    obtain ⟨link, hl⟩ := Heap.live_array.1 hl
    obtain ⟨n, pinned, he⟩ := Pool.get?_eq_some.1 hl
    simp [Heap.isLive, Pool.isLive, he]

/-- What the host lost is retired. -/
theorem retired (h : History program limits pins s held lost) :
    ∀ v ∈ lost, v.isCounted → s.state.heap.Retired v := by
  induction h with
  | new => exact fun v hv => absurd hv (Multiset.notMem_zero v)
  | number _ _ ih => exact ih
  | @act s s' rest lost a fuel given h ha hp hr ih =>
    intro v hv hc
    -- Lost before, or held until the heap was cleared.
    rcases Multiset.mem_add.1 hv with hv | hv
    · exact (HostAction.perform_evolves hr).retired (ih v hv hc)
    · split at hv
      · next hcl =>
        have hh := h.rests.heap
        exact HostAction.perform_retires hh.strings hh.cells hcl hr hc
          (h.isLive (Multiset.mem_add.2 (.inr hv)))
      · exact absurd hv (Multiset.notMem_zero v)

end History

/-! ### Accounts -/

/-- No call is open, nothing is pinned, and strings and arrays are counted as often as they
    are among the values `m` of the host or stored in elements. -/
structure Accounted (s : Session) (m : Multiset Value) : Prop where
  frames : s.state.frames = []
  string_unpinned : ∀ {h e}, s.state.heap.strings.entry? h = some e → e.pinned = false
  cell_unpinned : ∀ {h e}, s.state.heap.cells.entry? h = some e → e.pinned = false
  string_refs : ∀ {h e}, s.state.heap.strings.entry? h = some e →
    e.refs = m.count (.str h) + s.state.heap.stored.count (.str h)
  array_refs : ∀ {h e link}, s.state.heap.cells.entry? h = some e → e.content = .head link →
    e.refs = m.count (.array h) + s.state.heap.stored.count (.array h)

/-- A session at rest in which the host pinned nothing is accounted for. -/
theorem Rests.accounted (h : s.Rests held ∅) : s.Accounted held := by
  have tally {v n pinned} (hv : s.state.heap.tally? v = some (n, pinned)) :
      n = held.count v + s.state.heap.stored.count v ∧ pinned = false := by
    refine ⟨by rw [← Multiset.count_add, h.heap.tally.count hv], ?_⟩
    cases pinned with
    | false => rfl
    | true => exact absurd (h.heap.tally.pinned hv) (Set.notMem_empty v)
  have string {k e} (he : s.state.heap.strings.entry? k = some e) :
      s.state.heap.tally? (.str k) = some (e.refs, e.pinned) := by simp [Heap.tally?, he]
  have head {k e link} (he : s.state.heap.cells.entry? k = some e) (hc : e.content = .head link) :
      s.state.heap.tally? (.array k) = some (e.refs, e.pinned) := by
    obtain ⟨c, n, pinned⟩ := e
    obtain rfl : c = .head link := hc
    simp [Heap.tally?, he, Entry.tally]
  refine ⟨h.frames, fun he => (tally (string he)).2, fun {k e} he => ?_,
    fun he => (tally (string he)).1, fun he hc => (tally (head he hc)).1⟩
  cases hc : e.content with
  | head link => exact (tally (head he hc)).2
  | element d =>
    obtain ⟨c, n, pinned⟩ := e
    obtain rfl : c = .element d := hc
    exact (h.heap.element he).2

/-- At every point of a history, the values of the host, lost ones included, and those stored in
    elements are all that is counted, unless a slot has run out of generations. -/
theorem History.accounted (h : History program limits ∅ s held lost) (hy : s.state.heap.Young) :
    s.Accounted (held + lost) := by
  have ha := h.rests.accounted
  -- What the host has lost is retired, and what is retired is not live.
  have stale {v} (hc : v.isCounted) (hl : s.state.heap.isLive v) : lost.count v = 0 := by
    refine Multiset.count_eq_zero.2 ?_
    intro hm
    rw [(h.retired v hm hc).isLive_eq_false hy] at hl
    cases hl
  refine ⟨ha.frames, ha.string_unpinned, ha.cell_unpinned, fun {k e} he => ?_,
    fun {k e link} he hc => ?_⟩
  · rw [Multiset.count_add, stale rfl (by simp [Heap.isLive, Pool.isLive, he]), Nat.add_zero]
    exact ha.string_refs he
  · rw [Multiset.count_add, stale rfl (by simp [Heap.isLive, Pool.isLive, he]), Nat.add_zero]
    exact ha.array_refs he hc

/-- A run and a call of a host that pins nothing leave a session in which nothing is counted but
    the values of the host, what the call returned among them, and those stored in elements. -/
theorem History.returns_accounted (h : History program limits ∅ s held lost) (fuel : Nat) :
    (∀ s', s.run fuel = some s' → s'.state.heap.Young → s'.Accounted (held + lost)) ∧
    ∀ name (args : List Value) rest r s', held = args + rest →
      s.call fuel name args = some (r, s') → s'.state.heap.Young →
      s'.Accounted (returned r + rest + lost) := by
  constructor
  · intro s' hr hy
    have hp : HostAction.run.perform fuel s = some ([], s') := by simp [HostAction.perform, hr]
    have h' : History program limits ∅ s (HostAction.run.takes + held) lost := by
      simpa [HostAction.takes] using h
    have ha := (h'.act (by simp [HostAction.borrows]) trivial hp).accounted hy
    simpa [HostAction.clears, add_comm] using ha
  · intro name args rest r s' hh hr hy
    subst hh
    have hp : (HostAction.call name args).perform fuel s = some (returned r, s') := by
      simp [HostAction.perform, hr]
    have h' := History.act (a := .call name args) h (by simp [HostAction.borrows]) trivial hp
    simpa [HostAction.clears] using h'.accounted hy

/-- A script with a function that gives its argument back. -/
def echo : Program :=
  ⟨[⟨"main", [], [.expr 1 (.call "echo" [.str "a"])], 1⟩,
    ⟨"echo", ["x"], [.ret 2 (some (.var "x"))], 2⟩]⟩

/-- A session of `echo` whose host has made a string. -/
def echoing : Session :=
  ((Session.new echo .default).onHeap (HeapAction.allocScalar (.str "a")).perform).2

theorem echoing_history : History echo .default ∅ echoing ([Value.str ⟨0, 0⟩] + 0) 0 := by
  have h : History echo .default ∅ (.new echo .default)
      ((HostAction.heap (.allocScalar (.str "a"))).takes + 0) 0 := .new .plain
  have hr : (HostAction.heap (.allocScalar (.str "a"))).perform 0 (.new echo .default) =
      some ([.str ⟨0, 0⟩], echoing) := rfl
  exact h.act (by simp [HostAction.borrows, HeapAction.borrows]) trivial hr

/-- The string that `echo` is called with is counted once when it has come back, and not at all
    after a run. -/
theorem echo_accounted :
    (∃ s, echoing.run 100 = some s ∧ s.Accounted {Value.str ⟨0, 0⟩}) ∧
    ∃ s, echoing.call 100 "echo" [.str ⟨0, 0⟩] = some (.ok (.str ⟨0, 0⟩), s) ∧
      s.Accounted {Value.str ⟨0, 0⟩} := by
  have h := History.returns_accounted echoing_history 100
  constructor
  · have hy : (echoing.run 100).any fun s => decide s.state.heap.Young := by decide +kernel
    obtain ⟨s, hs, hy⟩ := (Option.any_eq_true _ _).1 hy
    exact ⟨s, hs, h.1 s hs (of_decide_eq_true hy)⟩
  · have hy : (echoing.call 100 "echo" [.str ⟨0, 0⟩]).any fun r =>
        returned r.1 = [.str ⟨0, 0⟩] && decide r.2.state.heap.Young := by decide +kernel
    rcases (Option.any_eq_true _ _).1 hy with ⟨⟨_ | v, s⟩, hs, hy⟩
    · cases hy
    · obtain ⟨hv, hy⟩ := Bool.and_eq_true_iff.1 hy
      obtain rfl : v = .str ⟨0, 0⟩ := by simpa [returned] using hv
      exact ⟨s, hs, h.2 "echo" _ 0 _ s rfl hs (of_decide_eq_true hy)⟩

end PoolScript.Session
