import Mathlib.Data.List.Chain
import PoolScript.Proofs.Heap.Remaining
import PoolScript.Proofs.Machine.Layers

/-!
# Walking an array

A loop over an array visits its elements while its body may do anything with them. What happens in
the course of one such loop is its *trace* (`EachLoop.Trace`): the configurations from where the
loop begins to where it ends, with the visits until then. In each of them, as long as no slot has
been vacated as often as there are generations in the course of a single visit:

* the elements visited are elements that the array had when the loop began, in their order and
  beginning with the first one, and none of them has been taken away before its visit;
* the loop variables get the key and the value that the element has then;
* when the loop comes to its end, all elements that have stayed have been visited, unless the
  body has left the loop or has taken away both the last element visited and the one after it, or
  a count of references runs over, which aborts everything.

The elements that have stayed are told by `Heap.Remains`, from one visit to the next.
-/

namespace PoolScript

open Heap (Stays Remains)

/-- A loop over the elements of an array, and what is left to be done after it. -/
structure EachLoop where
  key : String
  value : String
  body : List Stmt
  array : Handle
  after : Cont .signal

namespace EachLoop

variable (l : EachLoop)

/-- The loop is to begin. -/
def begins : Control :=
  .value (.array l.array) (.eachBegin l.key l.value l.body l.after)

/-- What is left to be done after the body ran for the element in `cell`, which led to `next`. -/
def rest (cell : Handle) (next : Option Handle) : Cont .signal :=
  .eachBody l.key l.value l.body (.array l.array) cell next l.after

/-- The body is to be run for the element in `cell`. -/
def enters (cell : Handle) (next : Option Handle) : Control :=
  .block .absent l.body (l.rest cell next)

theorem enters_inj {cell cell' : Handle} {next next' : Option Handle}
    (h : l.enters cell next = l.enters cell' next') : cell = cell' ∧ next = next' := by
  obtain ⟨-, -, hrest⟩ := Control.block.inj h
  obtain ⟨-, -, -, -, hcell, hnext, -⟩ := Cont.eachBody.inj hrest
  exact ⟨hcell, hnext⟩

/-- The loop is to begin, or its body has ended. -/
def AtTurn (c : Control) : Prop :=
  c = l.begins ∨ ∃ sig cell next, c = .signal sig (l.rest cell next)

/-- A visit to the element in `cell`. -/
structure Visit where
  cell : Handle
  /-- The cell after it, when the visit begins. -/
  next : Option Handle
  /-- The state in which the visit begins. -/
  before : State
  /-- The state in which the loop variables are bound. -/
  bound : State

/-- The configurations in the course of a loop that begins in the state `s`, with the visits until
    then, the last one included. -/
inductive Trace (code : Code) (s : State) : List Visit → Control × State → Prop
  | begins : Trace code s [] (l.begins, s)
  | visit {vs : List Visit} {c : Control} {cell : Handle} {next : Option Handle}
      {before bound : State} : Trace code s vs (c, before) → l.AtTurn c →
      Machine.step code c before = (l.enters cell next, bound) →
      Trace code s (vs ++ [⟨cell, next, before, bound⟩]) (l.enters cell next, bound)
  | inside {vs : List Visit} {c : Control} {t : State} : Trace code s vs (c, t) →
      ¬l.AtTurn c → ¬c.HandsTo l.after → Trace code s vs (Machine.step code c t)

variable {l}

/-- From one state to the next no slot was vacated as often as there are generations. -/
def Brief (states : List State) : Prop :=
  states.IsChain fun s t => s.heap.cells.Near t.heap.cells

end EachLoop

/-! ### Finding the next element -/

theorem State.bind_frames {s : State} {frame : Frame} {frames : List Frame}
    (hs : s.frames = frame :: frames) (name : String) (v : Value) :
    ∃ s', s.bind name v = (.ok (), s') ∧ s'.frames = (frame.set name v).2 :: frames := by
  obtain ⟨heap, _, out, journal⟩ := s
  subst hs
  exact ⟨_, rfl, rfl⟩

namespace Machine

/-- Where there is an element the body of the loop is entered, unless a count runs over. -/
theorem walkFrom_cases {s : State} {m : Multiset Value} {pins : Set Value} {h : Handle}
    {e : Element} {frame : Frame} {frames : List Frame} (key value : String) (body : List Stmt)
    (subject : Value) (k : Cont .signal) (hb : s.Balanced m pins)
    (he : s.heap.element? h = some e) (hs : s.frames = frame :: frames) :
    (∃ s', walkFrom key value body subject (some h) k s =
        (.block .absent body (.eachBody key value body subject h e.next k), s') ∧
      s'.frames = ((frame.set key e.key).2.set value e.value).2 :: frames) ∨
    ∃ s', walkFrom key value body subject (some h) k s =
      (.failing (.of (.aborted .countFits)) k, s') := by
  have hnext : s.heap.next? h = e.next := by
    rw [Heap.next?, he]
    rfl
  rcases Heap.Balanced.entry_cases hb he with ⟨heap, hr⟩ | ⟨heap, hr⟩
  · obtain ⟨s₂, h₂, hf₂⟩ := State.bind_frames (s := ⟨heap, s.frames, s.out, s.journal⟩) hs key e.key
    obtain ⟨s₃, h₃, hf₃⟩ := State.bind_frames hf₂ value e.value
    refine .inl ⟨s₃, ?_, hf₃⟩
    simp only [walkFrom, State.onHeap, hr, h₂, h₃, hnext]
  · refine .inr ⟨State.releaseAll [subject] ⟨heap, s.frames, s.out, s.journal⟩, ?_⟩
    simp only [walkFrom, State.onHeap, hr]

end Machine

namespace Heap.Remains

variable {base before heap : Heap} {a h : Handle} {pre post : List Handle} {e : Element}

/-- The element that a loop goes on to after the one in `h` is the next one that has stayed. There
    is none if none has stayed, or if `h` and the one that came after it have been taken away. -/
theorem nextToVisit_cases (hr : Remains base a (pre ++ h :: post) before)
    (hr' : Remains base a (pre ++ h :: post) heap) (hev : before.cells.Evolves heap.cells)
    (hn : before.cells.Near heap.cells) (hstays : Stays base before h)
    (he : before.element? h = some e) :
    (∃ k mid post', Machine.nextToVisit heap h e.next = some k ∧ post = mid ++ k :: post' ∧
      Stays base heap k ∧ ∀ m ∈ mid, ¬Stays base heap m) ∨
    Machine.nextToVisit heap h e.next = none ∧ ((∀ m ∈ post, ¬Stays base heap m) ∨
      ∃ n, e.next = some n ∧ ¬Stays before heap h ∧ ¬Stays before heap n) := by
  have hm : h ∈ pre ++ h :: post := List.mem_append_right _ List.mem_cons_self
  by_cases hlive : heap.cells.isLive h
  · -- The element has stayed, and leads to the next one.
    have hstays' : Stays base heap h := (hr.stays_iff hev hn hm).2 ⟨hstays, hlive⟩
    obtain ⟨e', he'⟩ := hr'.element hm hstays'
    have hto : Machine.nextToVisit heap h e.next = e'.next := by
      simp only [Machine.nextToVisit, he']
    rw [hto]
    cases hk : e'.next with
    | none => exact .inr ⟨rfl, .inl (hr'.next_none hstays' he' hk)⟩
    | some k =>
      obtain ⟨mid, post', hpost, hks, hmid⟩ := hr'.next_some hstays' he' hk
      exact .inl ⟨k, mid, post', rfl, hpost, hks, hmid⟩
  · -- The one that it led to when the visit began is next, if that has stayed.
    have hto : Machine.nextToVisit heap h e.next =
        e.next.filter fun k => (heap.element? k).isSome := by
      simp only [Machine.nextToVisit, element?_eq_none hlive]
    rw [hto]
    cases hk : e.next with
    | none =>
      refine .inr ⟨rfl, .inl fun m hm hs => ?_⟩
      exact hr.next_none hstays he hk m hm (hr.stays_of_later hev hs)
    | some k =>
      obtain ⟨mid, post', rfl, hks, hmid⟩ := hr.next_some hstays he hk
      have hkm : k ∈ pre ++ h :: (mid ++ k :: post') := by simp
      by_cases hklive : heap.cells.isLive k
      · have hks' : Stays base heap k := (hr.stays_iff hev hn hkm).2 ⟨hks, hklive⟩
        obtain ⟨d, hd⟩ := hr'.element hkm hks'
        refine .inl ⟨k, mid, post', ?_, rfl, hks', ?_⟩
        · rw [Option.filter_some, hd]
          rfl
        · exact fun m hm hs => hmid m hm (hr.stays_of_later hev hs)
      · -- Both are gone, so the walk has lost its way, whatever is behind them.
        refine .inr ⟨?_, .inr ⟨k, rfl, hr.not_stays hev hm hstays hlive,
          hr.not_stays hev hkm hks hklive⟩⟩
        rw [Option.filter_some, element?_eq_none hklive]
        rfl

end Heap.Remains

namespace EachLoop

open Machine (Sound)

variable {l : EachLoop} {code : Code} {s t : State} {c : Control} {hs : List Handle}
  {us vs : List Visit} {v : Visit} {m : Multiset Value} {pins : Set Value}

/-! ### What is known of the visits -/

/-- The loop variables are bound to what the element holds when the visit begins. -/
def Visit.Binds (l : EachLoop) (v : Visit) : Prop :=
  ∃ e frame frames, v.before.heap.element? v.cell = some e ∧ v.next = e.next ∧
    v.before.frames = frame :: frames ∧
    v.bound.frames = ((frame.set l.key e.key).2.set l.value e.value).2 :: frames

/-- The body has left the loop, or the call that it is in. -/
def LeftEarly (l : EachLoop) (c : Control) : Prop :=
  ∃ cell next, c = .signal .broke (l.rest cell next) ∨ c = .signal .returned (l.rest cell next)

/-- A count of references has run over, which aborts the loop. -/
def Aborted (l : EachLoop) (c : Control) : Prop :=
  c = .failing (.of (.aborted .countFits)) l.after

/-- All of the elements `hs` that have stayed since the state `s` have been visited, or the last of
    the visits has taken away both its element and the one after it. -/
def Finished (s : State) (hs : List Handle) (vs : List Visit) (t : State) : Prop :=
  (∀ h ∈ hs, Stays s.heap t.heap h → h ∈ vs.map (·.cell)) ∨
    ∃ v n, vs.getLast? = some v ∧ v.next = some n ∧ ¬Stays v.before.heap t.heap v.cell ∧
      ¬Stays v.before.heap t.heap n

/-- The visits `us` and the visit `v` after them: `v` is to one of the elements `hs` that have
    stayed since the state `s`, and those that have stayed of the elements before it were
    visited. -/
structure Stage (l : EachLoop) (s : State) (hs : List Handle) (us : List Visit) (v : Visit) :
    Prop where
  split : ∃ pre post, hs = pre ++ v.cell :: post ∧ (us.map (·.cell)).Sublist pre ∧
    ∀ h ∈ pre, Stays s.heap v.before.heap h → h ∈ us.map (·.cell)
  first : (us ++ [v]).head?.map (·.cell) = hs.head?
  remains : Remains s.heap l.array hs v.before.heap
  visits : ∀ u ∈ us ++ [v], Stays s.heap u.before.heap u.cell ∧ u.Binds l

/-- How far a loop that began in the state `s` has come. -/
inductive Course (l : EachLoop) (s : State) (hs : List Handle) :
    List Visit → Control × State → Prop
  | begins : Course l s hs [] (l.begins, s)
  | visits {us : List Visit} {v : Visit} {c : Control} {t : State} (stage : l.Stage s hs us v)
      (becomes : v.before.heap.Becomes t.heap)
      (control : c.Within (l.rest v.cell v.next) ∨ c.HandsTo l.after) :
      Course l s hs (us ++ [v]) (c, t)

/-- What comes of a turn. -/
inductive Turn (l : EachLoop) (s : State) (hs : List Handle) (vs : List Visit) (c : Control)
    (t : State) : Control × State → Prop
  | visit (w : Visit) : w.before = t → l.Stage s hs vs w →
      Turn l s hs vs c t (l.enters w.cell w.next, w.bound)
  | ends {sig : Signal} {t' : State} : l.LeftEarly c ∨ Finished s hs vs t →
      Turn l s hs vs c t (.signal sig l.after, t')
  | aborts {c' : Control} {t' : State} : l.Aborted c' → Turn l s hs vs c t (c', t')

/-! ### Turns -/

theorem not_handsTo_of_atTurn (h : l.AtTurn c) : ¬c.HandsTo l.after := by
  rcases h with rfl | ⟨sig, cell, next, rfl⟩
  · rintro (⟨_, h⟩ | ⟨_, h⟩) <;> cases h
  · rintro (⟨sig', h⟩ | ⟨_, h⟩)
    · have hl := congrArg Cont.layers (Control.signal.inj h).2
      exact absurd hl (Nat.succ_ne_self _)
    · cases h

/-- At a turn the body has ended that ran last. -/
theorem eq_of_atTurn {cell : Handle} {next : Option Handle} (h : l.AtTurn c)
    (hw : c.Within (l.rest cell next)) : ∃ sig, c = .signal sig (l.rest cell next) := by
  rcases h with rfl | ⟨sig, cell', next', rfl⟩
  · cases hw with
    | layer hk hw =>
      have hl := hw.layers_le
      cases hk
      exact absurd hl (Nat.not_succ_le_self _)
  · exact ⟨sig, by rw [Cont.Above.eq_of_layers hw rfl]⟩

/-- Where there is an element the loop visits it, unless it is aborted. -/
theorem visit_cases (l : EachLoop) {h : Handle} {e : Element} (hb : t.Balanced m pins)
    (he : t.heap.element? h = some e) (hf : t.frames ≠ []) :
    (∃ w : Visit, w.cell = h ∧ w.before = t ∧ w.Binds l ∧
      Machine.walkFrom l.key l.value l.body (.array l.array) (some h) l.after t =
        (l.enters w.cell w.next, w.bound)) ∨
    ∃ c t', Machine.walkFrom l.key l.value l.body (.array l.array) (some h) l.after t = (c, t') ∧
      l.Aborted c := by
  obtain ⟨frame, frames, hframes⟩ := List.exists_cons_of_ne_nil hf
  rcases Machine.walkFrom_cases l.key l.value l.body (.array l.array) l.after hb he hframes with
    ⟨bound, hwalk, hbound⟩ | ⟨t', hwalk⟩
  · exact .inl
      ⟨⟨h, e.next, t, bound⟩, rfl, rfl, ⟨e, frame, frames, he, rfl, hframes, hbound⟩, hwalk⟩
  · exact .inr ⟨_, t', hwalk, rfl⟩

/-- The loop comes to the first element, or there is none. -/
theorem turn_begins (hb : s.Balanced m pins) (hr : Remains s.heap l.array hs s.heap)
    (ha : s.heap.cells.get? l.array = some (.head hs.head?)) (hf : s.frames ≠ []) :
    l.Turn s hs [] l.begins s (Machine.step code l.begins s) := by
  have hstep : Machine.step code l.begins s = Machine.walkFrom l.key l.value l.body
      (.array l.array) hs.head? l.after s := by
    simp only [begins, Machine.step, Machine.receive, Heap.first_eq_ok.2 ha]
  rw [hstep]
  cases hs with
  | nil => exact .ends (.inr (.inl fun h hm => absurd hm List.not_mem_nil))
  | cons h hs =>
    obtain ⟨e, he⟩ := hr.element List.mem_cons_self rfl
    rw [List.head?_cons]
    rcases visit_cases l hb he hf with ⟨w, rfl, rfl, hbinds, hwalk⟩ | ⟨c, t', hwalk, habort⟩
    · rw [hwalk]
      refine .visit w rfl ⟨⟨[], hs, rfl, List.Sublist.slnil, ?_⟩, rfl, hr, ?_⟩
      · exact fun h hm => absurd hm List.not_mem_nil
      · intro u hu
        obtain rfl := List.mem_singleton.1 hu
        exact ⟨rfl, hbinds⟩
    · rw [hwalk]
      exact .aborts habort

/-- The visit `v` makes up for all elements up to those of which none has stayed. -/
theorem Stage.visited {heap : Heap} {pre gone : List Handle} (hst : l.Stage s hs us v)
    (hpre : ∀ h ∈ pre, Stays s.heap v.before.heap h → h ∈ us.map (·.cell))
    (hev : v.before.heap.cells.Evolves heap.cells) (hgone : ∀ h ∈ gone, ¬Stays s.heap heap h) :
    ∀ h ∈ pre ++ v.cell :: gone, Stays s.heap heap h → h ∈ (us ++ [v]).map (·.cell) := by
  intro h hm hstays
  rw [List.map_append, List.mem_append]
  rcases List.mem_append.1 hm with hm | hm
  · exact .inl (hpre h hm (hst.remains.stays_of_later hev hstays))
  · rcases List.mem_cons.1 hm with rfl | hm
    · exact .inr (List.mem_singleton_self _)
    · exact absurd hstays (hgone h hm)

theorem Stage.visit {w : Visit} {pre post mid post' : List Handle} (hst : l.Stage s hs us v)
    (hsplit : hs = pre ++ v.cell :: post) (hpost : post = mid ++ w.cell :: post')
    (hsub : (us.map (·.cell)).Sublist pre)
    (hpre : ∀ h ∈ pre, Stays s.heap v.before.heap h → h ∈ us.map (·.cell))
    (hmid : ∀ h ∈ mid, ¬Stays s.heap w.before.heap h)
    (hr : Remains s.heap l.array hs w.before.heap)
    (hev : v.before.heap.cells.Evolves w.before.heap.cells)
    (hstays : Stays s.heap w.before.heap w.cell) (hbinds : w.Binds l) :
    l.Stage s hs (us ++ [v]) w := by
  refine ⟨⟨pre ++ v.cell :: mid, post', ?_, ?_, hst.visited hpre hev hmid⟩, ?_, hr, ?_⟩
  · rw [hsplit, hpost, List.append_assoc, List.cons_append]
  · rw [List.map_append]
    exact hsub.append (List.nil_sublist mid |>.cons_cons v.cell)
  · rw [← hst.first]
    cases us <;> rfl
  · intro u hu
    rcases List.mem_append.1 hu with hu | hu
    · exact hst.visits u hu
    · obtain rfl := List.mem_singleton.1 hu
      exact ⟨hstays, hbinds⟩

/-- After a visit the loop comes to the next of the elements that have stayed. -/
theorem Stage.turn (hst : l.Stage s hs us v) (hb : t.Balanced m pins)
    (hr : Remains s.heap l.array hs t.heap)
    (hev : v.before.heap.cells.Evolves t.heap.cells)
    (hn : v.before.heap.cells.Near t.heap.cells) (hf : t.frames ≠ []) (sig : Signal) :
    l.Turn s hs (us ++ [v]) (.signal sig (l.rest v.cell v.next)) t
      (Machine.step code (.signal sig (l.rest v.cell v.next)) t) := by
  -- A round that is left by a jump ends the walk.
  have early (hsig : sig = .broke ∨ sig = .returned) :
      l.LeftEarly (.signal sig (l.rest v.cell v.next)) := by
    rcases hsig with rfl | rfl
    · exact ⟨_, _, .inl rfl⟩
    · exact ⟨_, _, .inr rfl⟩
  -- After any other one the walk goes on with the next element that has stayed.
  have walk : l.Turn s hs (us ++ [v]) (.signal sig (l.rest v.cell v.next)) t
      (Machine.walkFrom l.key l.value l.body (.array l.array)
        (Machine.nextToVisit t.heap v.cell v.next) l.after t) := by
    obtain ⟨pre, post, hsplit, hsub, hpre⟩ := hst.split
    obtain ⟨hstays, e, -, -, he, hnext, -⟩ := hst.visits v (List.mem_append_right _ (by simp))
    have hrv := hst.remains
    have hrt := hr
    rw [hsplit] at hrv hrt
    rw [hnext]
    rcases hrv.nextToVisit_cases hrt hev hn hstays he with
      ⟨k, mid, post', hto, hpost, hk, hmid⟩ | ⟨hto, hend⟩
    · have hkm : k ∈ hs := by simp [hsplit, hpost]
      obtain ⟨d, hd⟩ := hr.element hkm hk
      rw [hto]
      rcases visit_cases l hb hd hf with ⟨w, rfl, rfl, hbinds, hwalk⟩ | ⟨c, t', hwalk, habort⟩
      · rw [hwalk]
        exact .visit w rfl (hst.visit hsplit hpost hsub hpre hmid hr hev hk hbinds)
      · rw [hwalk]
        exact .aborts habort
    · rw [hto]
      refine .ends (.inr ?_)
      -- The walk ends. Either nothing behind has stayed, or both the element and its next one are
      -- gone.
      rcases hend with hnone | ⟨n, hn, hgone, hgone'⟩
      · exact .inl fun h hm => hst.visited hpre hev hnone h (hsplit ▸ hm)
      · exact .inr ⟨v, n, List.getLast?_concat, hnext.trans hn, hgone, hgone'⟩
  cases sig with
  | normal | continued => exact walk
  | broke => exact .ends (.inl (early (.inl rfl)))
  | returned => exact .ends (.inl (early (.inr rfl)))

/-! ### The course of a loop -/

theorem pos_of_atTurn {n : Nat} (h : l.AtTurn c) (hover : c.Over n) : 0 < n := by
  rcases h with rfl | ⟨sig, cell, next, rfl⟩
  · exact hover.1
  · exact Cont.Over.pos hover

theorem array_mem_of_atTurn (h : l.AtTurn c) : Value.array l.array ∈ c.values := by
  rcases h with rfl | ⟨sig, cell, next, rfl⟩ <;>
    exact Multiset.mem_add.2 (.inl (Multiset.mem_singleton_self _))

/-- The heap at a turn is laid out, and the array of the loop is there. -/
theorem laid_of_atTurn (h : l.AtTurn c) (hs : Sound (fun _ => True) m pins (c, t)) :
    ∃ φ link, Layout.Laid t.heap.cells.get? φ ∧
      t.heap.cells.get? l.array = some (.head link) := by
  have hlive := hs.balanced.live (Multiset.mem_add.2 (.inl (array_mem_of_atTurn h)))
  obtain ⟨link, ha⟩ := Heap.live_array.1 hlive
  obtain ⟨φ, hl⟩ := Heap.Balanced.laid hs.balanced
  exact ⟨φ, link, hl, ha⟩

/-- What comes of a turn in the course of a loop. -/
theorem Course.turn (hc : l.Course s hs vs (c, t)) (code : Code) (hturn : l.AtTurn c)
    (hsound : Sound (fun _ => True) m pins (c, t)) (hr : Remains s.heap l.array hs s.heap)
    (ha : s.heap.cells.get? l.array = some (.head hs.head?))
    (hn : ∀ v, vs.getLast? = some v → v.before.heap.cells.Near t.heap.cells) :
    l.Turn s hs vs c t (Machine.step code c t) := by
  have hf : t.frames ≠ [] := List.length_pos_iff.1 (pos_of_atTurn hturn hsound.calls)
  cases hc with
  | begins => exact turn_begins hsound.balanced hr ha hf
  | @visits us v _ _ hst hb hcontrol =>
    obtain ⟨sig, rfl⟩ :=
      eq_of_atTurn hturn (hcontrol.resolve_right (not_handsTo_of_atTurn hturn))
    obtain ⟨φ, link, hl, ha'⟩ := laid_of_atTurn hturn hsound
    have hnear := hn v List.getLast?_concat
    exact hst.turn hsound.balanced (hst.remains.later hb hnear hl ha') hb.evolves.cells hnear hf
      sig

theorem Brief.front {states : List State} (hb : Brief (states ++ [t])) : Brief states :=
  (List.isChain_append.1 hb).1

theorem Brief.near (hb : Brief (vs.map (·.before) ++ [t])) (hv : vs.getLast? = some v) :
    v.before.heap.cells.Near t.heap.cells := by
  obtain ⟨us, rfl⟩ := List.getLast?_eq_some_iff.1 hv
  rw [List.map_append, List.append_assoc] at hb
  exact (List.isChain_append_cons_cons.1 hb).2.1

/-- Between turns the loop stays with the last visit, until it is handed a failure. -/
theorem Course.inside (hc : l.Course s hs vs (c, t)) (hturn : ¬l.AtTurn c)
    (hover : ¬c.HandsTo l.after) : l.Course s hs vs (Machine.step code c t) := by
  cases hc with
  | begins => exact absurd (.inl rfl) hturn
  | @visits us v _ _ hst hb hcontrol =>
    refine .visits hst (hb.trans (Machine.step_becomes .refl code c)) ?_
    have hw := hcontrol.resolve_right hover
    by_cases hto : c.HandsTo (l.rest v.cell v.next)
    · rcases hto with ⟨sig, rfl⟩ | ⟨f, rfl⟩
      · exact absurd (.inr ⟨sig, _, _, rfl⟩) hturn
      · exact .inr (.inr ⟨f, rfl⟩)
    · exact .inl (Machine.step_within hw hto t)

namespace Trace

theorem sound {p : Control × State} (ht : l.Trace code s vs p)
    (hs : Sound (fun _ => True) m pins (l.begins, s)) : Sound (fun _ => True) m pins p := by
  have step {c : Control} {t : State} (h : Sound (fun _ => True) m pins (c, t)) :
      Sound (fun _ => True) m pins (Machine.step code c t) :=
    Machine.step_sound (fun _ _ => trivial) h code.hostFailsOf_true
  induction ht with
  | begins => exact hs
  | visit _ _ he ih => exact he ▸ step ih
  | inside _ _ _ ih => exact step ih

theorem course {p : Control × State} (ht : l.Trace code s vs p)
    (hsound : Sound (fun _ => True) m pins (l.begins, s)) (hr : Remains s.heap l.array hs s.heap)
    (ha : s.heap.cells.get? l.array = some (.head hs.head?))
    (hb : Brief (vs.map (·.before))) : l.Course s hs vs p := by
  induction ht with
  | begins => exact .begins
  | @visit vs c cell next before bound ht hturn he ih =>
    rw [List.map_append] at hb
    have hcourse := ih hb.front
    have hout := hcourse.turn code hturn (ht.sound hsound) hr ha fun v hv => hb.near hv
    have hb' := Machine.step_becomes (.refl : before.heap.Becomes before.heap) code c
    generalize hp : Machine.step code c before = p at hout hb'
    rw [hp] at he
    cases hout with
    | visit w hw hst =>
      obtain ⟨hcontrol, rfl⟩ := Prod.mk.inj he
      obtain ⟨rfl, rfl⟩ := l.enters_inj hcontrol
      subst hw
      exact .visits hst hb' (.inl .refl)
    | ends => cases he
    | aborts habort => cases habort.symm.trans (congrArg Prod.fst he)
  | inside ht hturn hover ih => exact (ih hb).inside hturn hover

end Trace

/-! ### What a loop visits -/

/-- What the visits `vs` are in a loop over the elements in the cells `hs` that begins in the
    state `s`. -/
structure Visits (l : EachLoop) (s : State) (hs : List Handle) (vs : List Visit) : Prop where
  /-- The elements are visited in their order. -/
  sublist : (vs.map (·.cell)).Sublist hs
  /-- The first one visited is the first one of all. -/
  first : ∀ v, vs.head? = some v → hs.head? = some v.cell
  length_le : vs.length ≤ hs.length
  nodup : (vs.map (·.cell)).Nodup
  /-- An element that is visited has not been taken away since the loop began. -/
  stays : ∀ v ∈ vs, Stays s.heap v.before.heap v.cell
  binds : ∀ v ∈ vs, v.Binds l

theorem Course.visits_of {p : Control × State} (hc : l.Course s hs vs p) (hn : hs.Nodup) :
    l.Visits s hs vs := by
  cases hc with
  | begins =>
    refine ⟨List.nil_sublist _, ?_, Nat.zero_le _, List.nodup_nil, ?_, ?_⟩
    · rintro v ⟨⟩
    · exact fun v hv => absurd hv List.not_mem_nil
    · exact fun v hv => absurd hv List.not_mem_nil
  | @visits us v c t hst =>
    obtain ⟨pre, post, hsplit, hsub, -⟩ := hst.split
    have hcells : ((us ++ [v]).map (·.cell)).Sublist hs := by
      rw [List.map_append, hsplit]
      exact hsub.append ((List.nil_sublist post).cons_cons v.cell)
    refine ⟨hcells, ?_, ?_, hn.sublist hcells, fun u hu => (hst.visits u hu).1,
      fun u hu => (hst.visits u hu).2⟩
    · intro u hu
      rw [← hst.first, hu]
      rfl
    · have hlen := hcells.length_le
      rwa [List.length_map] at hlen

/-- A loop visits elements that its array had when it began, in their order and from the first one
    on. When it comes to its end, all of those that have stayed have been visited, unless the body
    has left the loop or has taken away the last one visited and the one after it, or the loop has
    been aborted. -/
theorem Trace.visits {φ : Handle → List (Handle × Element)} {link : Option Handle}
    (ht : l.Trace code s vs (c, t)) (hsound : Sound (fun _ => True) m pins (l.begins, s))
    (hl : Layout.Laid s.heap.cells.get? φ) (ha : s.heap.cells.get? l.array = some (.head link))
    (hb : Brief (vs.map (·.before) ++ [t])) :
    l.Visits s ((φ l.array).map (·.1)) vs ∧
      (l.AtTurn c → (Machine.step code c t).1.HandsTo l.after →
        l.LeftEarly c ∨ Finished s ((φ l.array).map (·.1)) vs t ∨
          l.Aborted (Machine.step code c t).1) := by
  have hw : s.heap.cells.WellFormed := hsound.balanced.cells
  have hr : Remains s.heap l.array ((φ l.array).map (·.1)) s.heap := .start hw hl ha
  have hhead : s.heap.cells.get? l.array = some (.head ((φ l.array).map (·.1)).head?) := by
    rw [ha, (hl.chain ha).link_eq rfl]
  have hcourse := ht.course hsound hr hhead hb.front
  refine ⟨hcourse.visits_of (hl.chain ha).nodup, fun hturn hends => ?_⟩
  have hout := hcourse.turn code hturn (ht.sound hsound) hr hhead fun v hv => hb.near hv
  generalize Machine.step code c t = p at hends hout
  cases hout with
  | visit w => rcases hends with ⟨_, h⟩ | ⟨_, h⟩ <;> cases h
  | ends h => exact h.imp_right .inl
  | aborts h => exact .inr (.inr h)

/-- At a turn the loop visits an element, or it ends. -/
theorem step_of_atTurn (hturn : l.AtTurn c) (t : State) :
    (∃ cell next bound, Machine.step code c t = (l.enters cell next, bound)) ∨
      (Machine.step code c t).1.HandsTo l.after := by
  have walk (cell : Option Handle) :
      (∃ cell' next bound, Machine.walkFrom l.key l.value l.body (.array l.array) cell l.after t =
        (l.enters cell' next, bound)) ∨
      (Machine.walkFrom l.key l.value l.body (.array l.array) cell l.after t).1.HandsTo
        l.after := by
    cases cell with
    | none => exact .inr (.inl ⟨_, rfl⟩)
    | some h =>
      simp only [Machine.walkFrom]
      split
      · exact .inr (.inr ⟨_, rfl⟩)
      · exact .inr (.inl ⟨_, rfl⟩)
      · split
        · exact .inr (.inr ⟨_, rfl⟩)
        · split
          · exact .inr (.inr ⟨_, rfl⟩)
          · exact .inl ⟨_, _, _, rfl⟩
  rcases hturn with rfl | ⟨sig, cell, next, rfl⟩
  · simp only [begins, Machine.step, Machine.receive]
    split
    · exact walk _
    · exact .inr (.inr ⟨_, rfl⟩)
  · cases sig with
    | normal | continued => exact walk _
    | broke | returned => exact .inr (.inl ⟨_, rfl⟩)

/-- The trace of a loop goes on until the loop has ended. -/
theorem Trace.goes_on (ht : l.Trace code s vs (c, t)) :
    c.HandsTo l.after ∨ (l.AtTurn c ∧ (Machine.step code c t).1.HandsTo l.after) ∨
      ∃ vs', l.Trace code s vs' (Machine.step code c t) := by
  by_cases hturn : l.AtTurn c
  · rcases step_of_atTurn hturn t with ⟨cell, next, bound, he⟩ | hends
    · exact .inr (.inr ⟨_, he ▸ ht.visit hturn he⟩)
    · exact .inr (.inl ⟨hturn, hends⟩)
  · by_cases hover : c.HandsTo l.after
    · exact .inl hover
    · exact .inr (.inr ⟨vs, ht.inside hturn hover⟩)

/-- The trace of a loop goes on through what is done above it. -/
theorem Trace.inside_after {p : Control × State} (ht : l.Trace code s vs p) (n : Nat)
    (h : ∀ i < n, (Machine.after code i p).1.isAbove (l.after.layers + 1)) :
    l.Trace code s vs (Machine.after code n p) := by
  induction n with
  | zero => exact ht
  | succ n ih =>
    have htn := ih fun i hi => h i (Nat.lt_succ_of_lt hi)
    have habove := h n (Nat.lt_succ_self n)
    rw [Machine.after_succ]
    generalize Machine.after code n p = q at htn habove ⊢
    obtain ⟨c, t⟩ := q
    refine htn.inside ?_ ?_
    · rintro (rfl | ⟨sig, cell, next, rfl⟩) <;>
        exact absurd (of_decide_eq_true habove) (Nat.lt_irrefl _)
    · rintro (⟨sig, rfl⟩ | ⟨f, rfl⟩) <;>
        exact absurd (of_decide_eq_true habove) Nat.not_succ_lt_self

end EachLoop

end PoolScript
