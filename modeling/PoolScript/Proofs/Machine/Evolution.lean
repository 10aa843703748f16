import PoolScript.Machine
import PoolScript.Proofs.Heap.Evolution

/-!
# Machines evolve their heaps

Whatever a machine does, and whether or not its configuration is sound, its heap evolves: the
steps of a machine are made of operations on heaps (`Machine.step_becomes`). Each lemma adds
one operation to what has been done with a heap before, so that none of them needs to know what
that was, and none of them asks whether the operation fails.

A heap *becomes* another one by operations that a script can bring about, and *evolves* into another
one also where everything in it is given up at once. Steps do the former. The host does the latter
too, between runs, so that `reset_evolves` is about evolving only.

* `step_becomes`: one step;
* `run_evolves`: a whole run.
-/

namespace PoolScript

variable {base : Heap} {s : State}

namespace State

/-- What an operation does with a heap it does with the heap of a state. -/
theorem onHeap_becomes {α : Type} {f : Heap → α × Heap} (h : base.Becomes (f s.heap).2) :
    base.Becomes (s.onHeap f).2.heap := h

theorem releaseAll_becomes (h : base.Becomes s.heap) (vs : List Value) :
    base.Becomes (s.releaseAll vs).heap := Heap.Becomes.releaseAll h vs

/-- Loading a variable copies its value, or fails and does nothing. -/
theorem load_becomes (h : base.Becomes s.heap) (name : String) :
    base.Becomes (s.load name).2.heap := by
  simp only [load]
  split
  · split <;> [exact Heap.Becomes.retain h _; exact h]
  · exact h

/-- Binding a variable gives its old value back, or the new one if there is no call. -/
theorem bind_becomes (h : base.Becomes s.heap) (name : String) (v : Value) :
    base.Becomes (s.bind name v).2.heap := by
  simp only [bind]
  split <;> [exact Heap.Becomes.releaseAll h _; exact Heap.Becomes.releaseAll h _]

/-- An element is fetched if there is an array to fetch it from. -/
theorem element_becomes (h : base.Becomes s.heap) (name : String) (key : Value) :
    base.Becomes (s.element name key).2.heap := by
  rw [element]
  split
  · next a _ =>
    have hf : base.Becomes (s.onHeap (Heap.fetch a key)).2.heap :=
      onHeap_becomes (Heap.Becomes.fetch h a key)
    generalize s.onHeap (Heap.fetch a key) = r at hf ⊢
    rcases r with ⟨_ | _ | v, s'⟩
    · exact hf
    · simp only
      split <;> exact hf
    · exact hf
  · exact h
  · exact h
  · exact h

theorem loadElement_becomes (h : base.Becomes s.heap) (name : String) (key : Value) :
    base.Becomes (s.loadElement name key).2.heap :=
  releaseAll_becomes (element_becomes h name key) _

/-- An array is made if there is a variable to bind it to. -/
theorem ensureArray_becomes (h : base.Becomes s.heap) (name : String) :
    base.Becomes (s.ensureArray name).2.heap := by
  simp only [ensureArray]
  split
  · next heap frame frames out journal =>
    have ha := Heap.Becomes.allocArray h
    split
    · exact h
    · split
      · next v heap' he =>
        refine bind_becomes ?_ name v
        rwa [he] at ha
      · next he => rwa [he] at ha
  · exact h

/-- An element is stored, or its key and its value are given back. -/
theorem storeElement_becomes (h : base.Becomes s.heap) (name : String) (key value : Value) :
    base.Becomes (s.storeElement name key value).2.heap := by
  have he := ensureArray_becomes h name
  rw [storeElement]
  generalize s.ensureArray name = r at he ⊢
  obtain ⟨r, s'⟩ := r
  cases r with
  | error f => exact releaseAll_becomes he _
  | ok u =>
    simp only
    split
    · exact onHeap_becomes (Heap.Becomes.set he ..)
    · exact releaseAll_becomes he _
    · exact releaseAll_becomes he _

/-- The arguments of a call are bound one by one, and those that are left are given back. -/
theorem bindParams_becomes {heap : Heap} (h : base.Becomes heap) (frame : Frame) (ps : List String)
    (args : List Value) : base.Becomes (bindParams heap frame ps args).1 := by
  fun_induction bindParams heap frame ps args with
  | case1 heap frame p ps v vs old frame' hset ih => exact ih (h.releaseAll _)
  | case2 => exact h.releaseAll _

theorem enter_becomes (h : base.Becomes s.heap) (depth : Nat) (function : String)
    (params : List String) (args : List Value) :
    base.Becomes (s.enter depth function params args).2.heap := by
  simp only [enter]
  split
  · exact Heap.Becomes.releaseAll h _
  · exact bindParams_becomes h ..

/-- A call is left by pinning its result, giving its variables back in whatever order, and lifting
    the pin. -/
theorem leave_becomes (h : base.Becomes s.heap) (order : TearDown) :
    base.Becomes (s.leave order).2.heap := by
  simp only [leave]
  split
  · exact Heap.Becomes.unpin (Heap.Becomes.releaseAll (Heap.Becomes.pin h _) _) _
  · exact h

/-- A host function does with the heap what its requests do. -/
theorem runHost_becomes (h : base.Becomes s.heap) (p : HostProgram) :
    base.Becomes (s.runHost p).2.heap := by
  simp only [runHost]
  split <;> [exact Heap.Becomes.host h ..; exact h]

/-! ### Giving everything up -/

theorem releaseAll_evolves (h : base.Evolves s.heap) (vs : List Value) :
    base.Evolves (s.releaseAll vs).heap := Heap.Evolves.releaseAll h vs

theorem unwind_evolves (h : base.Evolves s.heap) (order : TearDown) :
    base.Evolves (s.unwind order).heap := by
  obtain ⟨heap, frames, out, journal⟩ := s
  simp only [unwind]
  induction frames generalizing heap with
  | nil => exact h
  | cons frame frames ih => exact ih _ (Heap.Evolves.releaseAll h _)

/-- Clearing is the one thing that no step does. -/
theorem reset_evolves (h : base.Evolves s.heap) (order : TearDown) :
    base.Evolves (s.reset order).heap :=
  Heap.Evolves.clear (unwind_evolves h order)

end State

namespace Machine

open State

theorem settle_becomes {k : Cont .value} {r : Except Fault Value × State}
    (h : base.Becomes r.2.heap) : base.Becomes (settle k r).2.heap := by
  unfold settle; split <;> exact h

theorem complete_becomes {signal : Signal} {k : Cont .signal} {r : Except Fault Unit × State}
    (h : base.Becomes r.2.heap) : base.Becomes (complete signal k r).2.heap := by
  unfold complete; split <;> exact h

/-- A call enters a frame, unless it is one of an intrinsic. That of a host function is left at
    once. -/
theorem call_becomes (h : base.Becomes s.heap) (code : Code) (name callee : String)
    (args : List Value) (k : Cont .value) :
    base.Becomes (call code name callee args k s).2.heap := by
  have enter (f params) : base.Becomes (s.enter code.maxDepth f params args).2.heap :=
    enter_becomes h ..
  rw [call]
  split
  · exact settle_becomes (Heap.Becomes.intrinsic_call h ..)
  · split
    · next f _ =>
      have he := enter f.name f.params
      generalize s.enter code.maxDepth f.name f.params args = r at he ⊢
      obtain ⟨r, s'⟩ := r
      cases r with
      | error e => exact he
      | ok u =>
        -- A host function does to the heap what its requests do.
        have hr := runHost_becomes he f.body
        simp only
        generalize s'.runHost f.body = r at hr ⊢
        obtain ⟨r, s''⟩ := r
        cases r with
        | error e => exact hr
        | ok u => exact settle_becomes (leave_becomes hr _)
    · split
      · next f _ =>
        have he := enter f.name f.params
        generalize s.enter code.maxDepth f.name f.params args = r at he ⊢
        obtain ⟨r, s'⟩ := r
        cases r <;> exact he
      · exact releaseAll_becomes h _

theorem evaluate_becomes (h : base.Becomes s.heap) (code : Code) (e : Expr) (k : Cont .value) :
    base.Becomes (evaluate code e k s).2.heap := by
  cases e with
  | str text => exact settle_becomes (onHeap_becomes (Heap.Becomes.allocString h text))
  | var name => exact settle_becomes (load_becomes h name)
  | call name args =>
    simp only [evaluate]
    split
    · exact h
    · split <;> [exact call_becomes h ..; exact h]
  | _ => exact h

theorem countFrom_becomes (h : base.Becomes s.heap) (var : String) (i last : Int64)
    (body : List Stmt) (k : Cont .signal) :
    base.Becomes (countFrom var i last body k s).2.heap := by
  have hb := bind_becomes h var (.int i)
  rw [countFrom]
  split
  · generalize s.bind var (.int i) = r at hb ⊢
    rcases r with ⟨_ | _, s'⟩ <;> exact hb
  · exact h

/-- A loop over an array copies the next element and binds two variables, as far as it gets. -/
theorem walkFrom_becomes (h : base.Becomes s.heap) (key value : String) (body : List Stmt)
    (subject : Value) (cell : Option Handle) (k : Cont .signal) :
    base.Becomes (walkFrom key value body subject cell k s).2.heap := by
  cases cell with
  | none => exact releaseAll_becomes h _
  | some c =>
    have he : base.Becomes (s.onHeap (Heap.entry c)).2.heap :=
      onHeap_becomes (Heap.Becomes.entry h c)
    simp only [walkFrom]
    generalize s.onHeap (Heap.entry c) = r at he ⊢
    rcases r with ⟨_ | _ | ⟨a, b⟩, s₁⟩
    · exact releaseAll_becomes he _
    · exact releaseAll_becomes he _
    · have h₁ := bind_becomes he key a
      simp only
      generalize s₁.bind key a = r at h₁ ⊢
      obtain ⟨r, s₂⟩ := r
      cases r with
      | error f => exact releaseAll_becomes h₁ _
      | ok u =>
        have h₂ := bind_becomes h₁ value b
        simp only
        generalize s₂.bind value b = r at h₂ ⊢
        obtain ⟨r, s₃⟩ := r
        cases r <;> [exact releaseAll_becomes h₂ _; exact h₂]

/-- What is done with a value is an operator, a call, an assignment or a loop, or else the value is
    given back. -/
theorem receive_becomes (h : base.Becomes s.heap) (code : Code) (v : Value) (k : Cont .value) :
    base.Becomes (receive code v k s).2.heap := by
  cases k with
  | operator => exact settle_becomes (onHeap_becomes (Heap.Becomes.binary h ..))
  | negation => exact settle_becomes (onHeap_becomes (Heap.Becomes.negate h _))
  | subscript => exact settle_becomes (loadElement_becomes h ..)
  | argument name target given rest k =>
    cases rest <;> [exact call_becomes h ..; exact h]
  | test => simp only [receive]; split <;> exact releaseAll_becomes h _
  | discard => exact releaseAll_becomes h _
  | assign => exact complete_becomes (bind_becomes h ..)
  | store => exact complete_becomes (storeElement_becomes h ..)
  | loopTest => simp only [receive]; split <;> exact releaseAll_becomes h _
  | rangeLast => cases v <;> first | exact h | exact releaseAll_becomes h _
  | rangeBegin => cases v <;> first | exact countFrom_becomes h .. | exact releaseAll_becomes h _
  | eachBegin =>
    simp only [receive]
    split
    · split <;> [exact walkFrom_becomes h ..; exact releaseAll_becomes h _]
    · exact releaseAll_becomes h _
  | returnValue => exact complete_becomes (bind_becomes h ..)
  | _ => exact h

/-- A signal ends a call, or goes on with a loop. -/
theorem resume_becomes (h : base.Becomes s.heap) (code : Code) (signal : Signal)
    (k : Cont .signal) : base.Becomes (resume code signal k s).2.heap := by
  cases k with
  | result => exact settle_becomes (leave_becomes h _)
  | sequence => cases signal <;> exact h
  | loopBody => cases signal <;> exact h
  | rangeBody =>
    simp only [resume]
    split <;> first | exact h | (split <;> [exact h; exact countFrom_becomes h ..])
  | eachBody =>
    simp only [resume]
    split <;> first | exact walkFrom_becomes h .. | exact releaseAll_becomes h _

/-- A failure only gives values back. -/
theorem fail_becomes (h : base.Becomes s.heap) (f : Failure) {a : Awaits} (k : Cont a) :
    base.Becomes (fail f k s).2.heap := by
  cases k <;> first | exact h | exact releaseAll_becomes h _

/-- Whatever a step does, it does with the operations of the heap. -/
theorem step_becomes (h : base.Becomes s.heap) (code : Code) (c : Control) :
    base.Becomes (step code c s).2.heap := by
  cases c with
  | eval e k => exact evaluate_becomes h ..
  | value v k => exact receive_becomes h ..
  | block chain stmts k => exact h
  | signal signal k => exact resume_becomes h ..
  | failing f k => exact fail_becomes h ..

theorem step_evolves (h : base.Evolves s.heap) (code : Code) (c : Control) :
    base.Evolves (step code c s).2.heap :=
  h.trans (step_becomes .refl code c).evolves

/-- So a run evolves its heap, by induction on its steps. -/
theorem run_evolves (h : base.Evolves s.heap) {code : Code} {fuel : Nat} {c : Control}
    {r : Except Failure Value × State} (hr : run code fuel c s = some r) :
    base.Evolves r.2.heap := by
  induction fuel generalizing c s with
  | zero =>
    rw [run] at hr
    split at hr
    · cases hr; exact h
    · cases hr
  | succ fuel ih =>
    rw [run] at hr
    split at hr
    · cases hr; exact h
    · exact ih (step_evolves h code c) hr

end Machine

end PoolScript
