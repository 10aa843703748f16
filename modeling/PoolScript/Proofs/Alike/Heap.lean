import PoolScript.Proofs.Alike.Pool
import PoolScript.Proofs.Heap.Operate

/-!
# Heaps that are alike

Two heaps are alike if their pools are, under a *pairing* of the handles of strings and of
cells, and if what is in the cells goes together under the pairing as well (`Heap.Alike`).
Whatever an operation does to values that go together, it does the same on both sides: it
counts and frees alike, and gives results that go together under a pairing with perhaps more
handles in it.

An operation that may fail *agrees* on both sides if it ends with the same fault or with
results that go together (`Agree`). If the second heap may have more room, it also agrees when
it fails on the first one for want of room.
-/

/-- Both are results that `R` relates, or both are the same error. -/
inductive Except.Rel {ε α β : Type} (R : α → β → Prop) : Except ε α → Except ε β → Prop
  | ok {a : α} {b : β} : R a b → Except.Rel R (.ok a) (.ok b)
  | error (e : ε) : Except.Rel R (.error e) (.error e)

/-- What is the same for values that go together is the same for results. -/
theorem Except.Rel.map_eq {ε α β γ : Type} {R : α → β → Prop} {x : Except ε α} {y : Except ε β}
    {f : α → γ} {g : β → γ} (h : Except.Rel R x y) (hfg : ∀ {a b}, R a b → f a = g b) :
    x.map f = y.map g := by
  cases h with
  | ok h => exact congrArg Except.ok (hfg h)
  | error e => rfl

namespace PoolScript

/-! ### Pairings -/

/-- Which strings and which cells of two heaps go together. -/
structure Pairing where
  strings : Handle → Handle → Prop
  cells : Handle → Handle → Prop

/-- A pairing is above another one if it has all of its pairs. -/
instance : Preorder Pairing :=
  Preorder.lift fun ρ => (ρ.strings, ρ.cells)

/-- Handles have no part in what is the same. -/
def Pairing.Same {α : Type} (_ : Pairing) (a b : α) : Prop :=
  a = b

/-- Values that go together. -/
inductive Value.Alike (ρ : Pairing) : Value → Value → Prop
  | int (n : Int64) : Alike ρ (.int n) (.int n)
  | float (x : Double) : Alike ρ (.float x) (.float x)
  | str {h k : Handle} : ρ.strings h k → Alike ρ (.str h) (.str k)
  | array {h k : Handle} : ρ.cells h k → Alike ρ (.array h) (.array k)

/-- Elements that go together. -/
structure Element.Alike (ρ : Pairing) (e e' : Element) : Prop where
  key : e.key.Alike ρ e'.key
  value : e.value.Alike ρ e'.value
  next : Option.Rel ρ.cells e.next e'.next

/-- Cells that go together. -/
inductive Cell.Alike (ρ : Pairing) : Cell → Cell → Prop
  | head {l l' : Option Handle} : Option.Rel ρ.cells l l' → Alike ρ (.head l) (.head l')
  | element {e e' : Element} : e.Alike ρ e' → Alike ρ (.element e) (.element e')

/-- The pools of two heaps hold the same things under handles that go together. -/
structure Heap.Alike (κ : Likeness) (ρ : Pairing) (a b : Heap) : Prop where
  strings : a.strings.Alike κ (· = ·) ρ.strings b.strings
  cells : a.cells.Alike κ (Cell.Alike ρ) ρ.cells b.cells

/-- No generation begins anew where handles are renamed. -/
def Heap.Ready (κ : Likeness) (a b : Heap) : Prop :=
  κ.renames = true → a.Young ∧ b.Young

variable {κ : Likeness} {ρ ρ' : Pairing} {v w : Value} {h k : Handle} {vs ws : List Value}

namespace Value.Alike

/-- Values that go together still do when more handles are paired. -/
theorem mono (hv : v.Alike ρ w) (hle : ρ ≤ ρ') : v.Alike ρ' w := by
  cases hv with
  | int => exact .int _
  | float => exact .float _
  | str hk => exact .str (hle.1 _ _ hk)
  | array hk => exact .array (hle.2 _ _ hk)

/-- Values that go together have one type. -/
theorem type_eq (hv : v.Alike ρ w) : v.type = w.type := by
  cases hv <;> rfl

/-- Values that go together are both true, both false, or neither. -/
theorem truth?_eq (hv : v.Alike ρ w) : v.truth? = w.truth? := by
  cases hv <;> rfl

end Value.Alike

theorem Element.Alike.mono {e e' : Element} (he : e.Alike ρ e') (hle : ρ ≤ ρ') : e.Alike ρ' e' :=
  ⟨he.key.mono hle, he.value.mono hle, he.next.mono (hle.2 _ _)⟩

namespace Cell.Alike

variable {c d : Cell}

/-- Cells that go together still do when more handles are paired. -/
theorem mono (hc : c.Alike ρ d) (hle : ρ ≤ ρ') : c.Alike ρ' d := by
  cases hc with
  | head hl => exact .head (hl.mono (hle.2 _ _))
  | element he => exact .element (he.mono hle)

/-- Cells that go together are linked to cells that go together. -/
theorem withNext (hc : c.Alike ρ d) {l l' : Option Handle} (hl : Option.Rel ρ.cells l l') :
    (c.withNext l).Alike ρ (d.withNext l') := by
  cases hc with
  | head => exact .head hl
  | element he => exact .element ⟨he.key, he.value, hl⟩

end Cell.Alike

/-! ### Agreement -/

namespace Fault

/-- A fault for want of room or of depth. -/
def IsLimit (f : Fault) : Prop :=
  f.kind = .poolExhausted ∨ f.kind = .stackOverflow

end Fault

section
variable {α β σ τ : Type} {V : Pairing → α → β → Prop} {S : Pairing → σ → τ → Prop}
  {r : Except Fault α × σ} {r' : Except Fault β × τ}

/-- An operation fails with the same fault on both sides, or gives results that go together, or
    fails on the first side for want of room that the second one may have. -/
inductive Agree (κ : Likeness) (V : Pairing → α → β → Prop) (S : Pairing → σ → τ → Prop)
    (ρ : Pairing) : Except Fault α × σ → Except Fault β × τ → Prop
  | halted {f : Fault} {s : σ} {r' : Except Fault β × τ} :
      κ.widens = true → f.IsLimit → Agree κ V S ρ (.error f, s) r'
  | error {ρ' : Pairing} (f : Fault) {s : σ} {t : τ} :
      ρ ≤ ρ' → S ρ' s t → Agree κ V S ρ (.error f, s) (.error f, t)
  | ok {ρ' : Pairing} {a : α} {b : β} {s : σ} {t : τ} :
      ρ ≤ ρ' → V ρ' a b → S ρ' s t → Agree κ V S ρ (.ok a, s) (.ok b, t)

namespace Agree

/-- What was agreed on under more pairs than asked for is agreed on. -/
theorem mono (h : Agree κ V S ρ' r r') (hle : ρ ≤ ρ') : Agree κ V S ρ r r' := by
  cases h with
  | halted hκ hf => exact .halted hκ hf
  | error f hle' hs => exact .error f (hle.trans hle') hs
  | ok hle' hv hs => exact .ok (hle.trans hle') hv hs

/-- Agreement goes on when the same is done to the state on both sides. -/
theorem after {σ' τ' : Type} {T : Pairing → σ' → τ' → Prop} {f : σ → σ'} {g : τ → τ'}
    (h : Agree κ V S ρ r r') (hfg : ∀ {ρ' s t}, ρ ≤ ρ' → S ρ' s t → T ρ' (f s) (g t)) :
    Agree κ V T ρ (r.1, f r.2) (r'.1, g r'.2) := by
  cases h with
  | halted hκ hf => exact .halted hκ hf
  | error e hle hs => exact .error e hle (hfg hle hs)
  | ok hle hv hs => exact .ok hle hv (hfg hle hs)

/-- An operation that only reads agrees if its results do. -/
theorem of_rel {x : Except Fault α} {y : Except Fault β} {s : σ} {t : τ}
    (hxy : Except.Rel (V ρ) x y) (hs : S ρ s t) : Agree κ V S ρ (x, s) (y, t) := by
  cases hxy with
  | ok hv => exact .ok le_rfl hv hs
  | error f => exact .error f le_rfl hs

/-- A result without handles is agreed on if it is the same. -/
theorem same {x y : Except Fault α} {s : σ} {t : τ} (hxy : x = y) (hs : S ρ s t) :
    Agree κ Pairing.Same S ρ (x, s) (y, t) := by
  subst hxy
  cases x with
  | ok a => exact .ok le_rfl rfl hs
  | error f => exact .error f le_rfl hs

end Agree

end

/-! ### Allocation -/

namespace Heap

variable {a b : Heap}

namespace Ready

/-- Pools that have room for the same still do when a string was allocated on both sides. -/
theorem allocString (hy : Ready κ a b) (s t : String) :
    Ready κ (a.allocString s).2 (b.allocString t).2 := fun hκ =>
  ⟨⟨(hy hκ).1.strings.alloc s, (hy hκ).1.cells⟩, ⟨(hy hκ).2.strings.alloc t, (hy hκ).2.cells⟩⟩

theorem allocScalar (hy : Ready κ a b) (s : Scalar) :
    Ready κ (a.allocScalar s).2 (b.allocScalar s).2 := by
  cases s with
  | int => exact hy
  | float => exact hy
  | str text => exact hy.allocString text text

theorem allocArray (hy : Ready κ a b) : Ready κ a.allocArray.2 b.allocArray.2 := fun hκ =>
  ⟨⟨(hy hκ).1.strings, (hy hκ).1.cells.alloc _⟩, ⟨(hy hκ).2.strings, (hy hκ).2.cells.alloc _⟩⟩

end Ready

namespace Alike

/-- A string is allocated on both sides, and the new handles go together. -/
theorem allocString (hab : a.Alike κ ρ b) (hy : Ready κ a b) (text : String) :
    Agree κ Value.Alike (Heap.Alike κ) ρ (a.allocString text) (b.allocString text) := by
  have hys : κ.renames = true → a.strings.Young ∧ b.strings.Young := fun hκ =>
    ⟨(hy hκ).1.strings, (hy hκ).2.strings⟩
  rcases hab.strings.alloc hys (rfl : text = text) with ⟨h, k, p, q, hp, hq, hpq⟩ | ⟨f, hp, hf, hq⟩
  · simp only [Heap.allocString, hp, hq]
    -- The pairing grows by the pair of new handles.
    let ρ' : Pairing := ⟨fun i j => ρ.strings i j ∨ i = h ∧ j = k, ρ.cells⟩
    have hle : ρ ≤ ρ' := ⟨fun _ _ => .inl, le_rfl⟩
    exact .ok hle (.str (.inr ⟨rfl, rfl⟩)) ⟨hpq, hab.cells.mono fun hc => hc.mono hle⟩
  · simp only [Heap.allocString, hp]
    rcases hq with hκ | hq
    · exact .halted hκ (.inl hf)
    · rw [hq]
      exact .error f le_rfl hab

/-- An array is allocated on both sides, and the new handles go together. -/
theorem allocArray (hab : a.Alike κ ρ b) (hy : Ready κ a b) :
    Agree κ Value.Alike (Heap.Alike κ) ρ a.allocArray b.allocArray := by
  have hyc : κ.renames = true → a.cells.Young ∧ b.cells.Young := fun hκ =>
    ⟨(hy hκ).1.cells, (hy hκ).2.cells⟩
  rcases hab.cells.alloc hyc (Cell.Alike.head .none) with
    ⟨h, k, p, q, hp, hq, hpq⟩ | ⟨f, hp, hf, hq⟩
  · simp only [Heap.allocArray, hp, hq]
    let ρ' : Pairing := ⟨ρ.strings, fun i j => ρ.cells i j ∨ i = h ∧ j = k⟩
    have hle : ρ ≤ ρ' := ⟨le_rfl, fun _ _ => .inl⟩
    exact .ok hle (.array (.inr ⟨rfl, rfl⟩)) ⟨hab.strings, hpq.mono fun hc => hc.mono hle⟩
  · simp only [Heap.allocArray, hp]
    rcases hq with hκ | hq
    · exact .halted hκ (.inl hf)
    · rw [hq]
      exact .error f le_rfl hab

/-- A scalar is put into both heaps. -/
theorem allocScalar (hab : a.Alike κ ρ b) (hy : Ready κ a b) (s : Scalar) :
    Agree κ Value.Alike (Heap.Alike κ) ρ (a.allocScalar s) (b.allocScalar s) := by
  cases s with
  | int n => exact .ok le_rfl (.int n) hab
  | float x => exact .ok le_rfl (.float x) hab
  | str text => exact hab.allocString hy text

/-! ### Counting and pinning -/

/-- A copy of a live value is counted on both sides, or the count runs over on both. -/
theorem retain (hab : a.Alike κ ρ b) (hv : v.Alike ρ w) (hl : a.isLive v = true) :
    Agree κ Value.Alike (Heap.Alike κ) ρ (a.retain v) (b.retain w) := by
  obtain ⟨strings, cells⟩ := a
  obtain ⟨strings', cells'⟩ := b
  cases hv with
  | int n => exact .ok le_rfl (.int n) hab
  | float x => exact .ok le_rfl (.float x) hab
  | @str h k hk =>
    obtain ⟨hfound, hpq⟩ := Pool.Alike.retain hab.strings hk
    rcases strings.retain_cases h with ⟨e, -, -, hr⟩ | ⟨e, -, -, hr⟩ | ⟨hn, -⟩
    · rw [hr] at hfound hpq
      simp only [Heap.retain, hr, ← hfound]
      exact .ok le_rfl (.str hk) ⟨hpq, hab.cells⟩
    · rw [hr] at hfound hpq
      simp only [Heap.retain, hr, ← hfound]
      exact .error _ le_rfl ⟨hpq, hab.cells⟩
    · simp [Heap.isLive, Pool.isLive, hn] at hl
  | @array h k hk =>
    obtain ⟨hfound, hpq⟩ := Pool.Alike.retain hab.cells hk
    rcases cells.retain_cases h with ⟨e, -, -, hr⟩ | ⟨e, -, -, hr⟩ | ⟨hn, -⟩
    · rw [hr] at hfound hpq
      simp only [Heap.retain, hr, ← hfound]
      exact .ok le_rfl (.array hk) ⟨hab.strings, hpq⟩
    · rw [hr] at hfound hpq
      simp only [Heap.retain, hr, ← hfound]
      exact .error _ le_rfl ⟨hab.strings, hpq⟩
    · simp [Heap.isLive, Pool.isLive, hn] at hl

/-- A pin on both sides. -/
theorem pin (hab : a.Alike κ ρ b) (hv : v.Alike ρ w) : (a.pin v).Alike κ ρ (b.pin w) := by
  cases hv with
  | int => exact hab
  | float => exact hab
  | str hk => exact ⟨hab.strings.pin hk, hab.cells⟩
  | array hk => exact ⟨hab.strings, hab.cells.pin hk⟩

/-- Values that go together are counted alike. -/
theorem refs? (hab : a.Alike κ ρ b) (hv : v.Alike ρ w) : a.refs? v = b.refs? w := by
  cases hv with
  | int => rfl
  | float => rfl
  | str hk => exact hab.strings.refs? hk
  | array hk => exact hab.cells.refs? hk

/-- Values that go together are pinned alike. -/
theorem isPinned? (hab : a.Alike κ ρ b) (hv : v.Alike ρ w) : a.isPinned? v = b.isPinned? w := by
  cases hv with
  | int => rfl
  | float => rfl
  | str hk => exact hab.strings.isPinned? hk
  | array hk => exact hab.cells.isPinned? hk

/-! ### Giving references back -/

/-- Two chains that go together are collected alike. The induction is on the calls of one of them,
    and the other one has the same links. -/
theorem collect {p q : Pool Cell} {l l' : Option Handle} (hpq : p.Alike κ (Cell.Alike ρ) ρ.cells q)
    (hl : Option.Rel ρ.cells l l') (hvs : List.Forall₂ (Value.Alike ρ) vs ws) :
    List.Forall₂ (Value.Alike ρ) (Heap.collect l vs p).1 (Heap.collect l' ws q).1 ∧
      (Heap.collect l vs p).2.Alike κ (Cell.Alike ρ) ρ.cells (Heap.collect l' ws q).2 := by
  -- The second walk is unfolded step by step beside the first one: its cell is alike at every
  -- step, so that it ends where the first one ends.
  fun_induction Heap.collect l vs p generalizing l' ws q with
  | case1 vs p =>
    cases hl
    rw [Heap.collect.eq_def none]
    exact ⟨hvs, hpq⟩
  | case2 vs p h e p' hr ih =>
    cases hl with
    | @some _ k hk =>
      obtain ⟨hc, hpq'⟩ := hpq.reclaim hk
      rw [hr] at hc hpq'
      rw [collect_some]
      generalize q.reclaim k = r at hc hpq' ⊢
      obtain ⟨c, q'⟩ := r
      cases hc with
      | some hc =>
        cases hc with
        | element he => exact ih hpq' he.next (.cons he.value (.cons he.key hvs))
  | case3 vs p h c p' hne hr =>
    cases hl with
    | @some _ k hk =>
      obtain ⟨hc, hpq'⟩ := hpq.reclaim hk
      rw [hr] at hc hpq'
      rw [collect_some]
      generalize q.reclaim k = r at hc hpq' ⊢
      obtain ⟨d, q'⟩ := r
      cases hc with
      | none => exact ⟨hvs, hpq'⟩
      | some hc =>
        cases hc with
        | head => exact ⟨hvs, hpq'⟩
        | element => exact (hne _ rfl).elim

theorem elementsOf {c d : Cell} (hc : c.Alike ρ d) :
    Option.Rel ρ.cells (Heap.elementsOf c) (Heap.elementsOf d) := by
  cases hc with
  | head hl => exact hl
  | element => exact .none

/-- What remains to be given back goes together as well. -/
theorem giveBack (hab : a.Alike κ ρ b) (hv : v.Alike ρ w) :
    List.Forall₂ (Value.Alike ρ) (a.giveBack v).1 (b.giveBack w).1 ∧
      (a.giveBack v).2.Alike κ ρ (b.giveBack w).2 := by
  obtain ⟨strings, cells⟩ := a
  obtain ⟨strings', cells'⟩ := b
  cases hv with
  | int | float => exact ⟨.nil, hab⟩
  | str hk => exact ⟨.nil, (hab.strings.release hk).2, hab.cells⟩
  | @array h k hk =>
    obtain ⟨hc, hq⟩ := Pool.Alike.release hab.cells hk
    simp only [Heap.giveBack]
    change Option.Rel _ (cells.release h).1 (cells'.release k).1 at hc
    change Pool.Alike _ _ _ (cells.release h).2 (cells'.release k).2 at hq
    generalize cells.release h = r at hc hq ⊢
    generalize cells'.release k = r' at hc hq ⊢
    obtain ⟨c, p⟩ := r
    obtain ⟨d, q⟩ := r'
    cases hc with
    | none => exact ⟨.nil, hab.strings, hq⟩
    | some hc =>
      obtain ⟨hvs, hcells⟩ := collect hq (elementsOf hc) .nil
      exact ⟨hvs, hab.strings, hcells⟩

/-- Lists that go together are given back alike: each pop frees on both sides or on neither. -/
theorem drain (hab : a.Alike κ ρ b) (hvs : List.Forall₂ (Value.Alike ρ) vs ws) :
    (a.drain vs).Alike κ ρ (b.drain ws) := by
  induction vs, a using drain_induction generalizing ws b with
  | nil a =>
    cases hvs
    rw [drain_nil, drain_nil]
    exact hab
  | cons v vs a ih =>
    cases hvs with
    | cons hv hvs =>
      obtain ⟨hmore, hab'⟩ := hab.giveBack hv
      rw [drain_cons, drain_cons]
      exact ih hab' (List.rel_append hmore hvs)

theorem release (hab : a.Alike κ ρ b) (hv : v.Alike ρ w) : (a.release v).Alike κ ρ (b.release w) :=
  hab.drain (.cons hv .nil)

theorem releaseAll (hab : a.Alike κ ρ b) (hvs : List.Forall₂ (Value.Alike ρ) vs ws) :
    (a.releaseAll vs).Alike κ ρ (b.releaseAll ws) :=
  hab.drain hvs

theorem unpin (hab : a.Alike κ ρ b) (hv : v.Alike ρ w) : (a.unpin v).Alike κ ρ (b.unpin w) := by
  cases hv with
  | int => exact hab
  | float => exact hab
  | str hk => exact ⟨(hab.strings.unpin hk).2, hab.cells⟩
  | @array h k hk =>
    obtain ⟨hc, hq⟩ := hab.cells.unpin hk
    simp only [Heap.unpin]
    generalize a.cells.unpin h = r at hc hq ⊢
    generalize b.cells.unpin k = r' at hc hq ⊢
    obtain ⟨c, p⟩ := r
    obtain ⟨d, q⟩ := r'
    cases hc with
    | none => exact ⟨hab.strings, hq⟩
    | some hc =>
      obtain ⟨hvs, hcells⟩ := collect hq (elementsOf hc) .nil
      exact drain ⟨hab.strings, hcells⟩ (List.rel_reverse hvs)

end Alike

end Heap

end PoolScript
