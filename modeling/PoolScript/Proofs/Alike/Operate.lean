import PoolScript.Proofs.Alike.Elements
import PoolScript.Proofs.Output.Delivery

/-!
# Operators and intrinsics on heaps that are alike

Operators and intrinsics give results that go together for operands that go together, and fail
alike. What intrinsics print is the same, so that the lines printed on both sides differ only
in those that were there before (`LineWriter.Alike`).
-/

namespace PoolScript

variable {κ : Likeness} {ρ : Pairing} {v w v' w' : Value} {h k : Handle} {old old' : Array String}

/-! ### Printed lines -/

/-- The same was written to both, after lines that may differ. -/
structure LineWriter.Alike (old old' : Array String) (out out' : LineWriter) : Prop where
  pending : out.pending = out'.pending
  lines : ∃ new, out.lines = old ++ new ∧ out'.lines = old' ++ new

namespace LineWriter.Alike

variable {out out' : LineWriter}

/-- The same lines are handed over on both sides. -/
theorem hand_over (h : Alike old old' out out') (pending : String) (lines : Array String) :
    Alike old old' ⟨pending, out.lines ++ lines, out.earlier⟩
      ⟨pending, out'.lines ++ lines, out'.earlier⟩ := by
  obtain ⟨new, hn, hn'⟩ := h.lines
  exact ⟨rfl, new ++ lines, by rw [hn, Array.append_assoc], by rw [hn', Array.append_assoc]⟩

/-- What is written completes the same lines, for the same rest was pending. -/
theorem write (h : Alike old old' out out') (text : String) :
    Alike old old' (out.write text) (out'.write text) := by
  rw [write_eq, write_eq, h.pending]
  exact h.hand_over _ _

/-- What is pending is handed over on both sides or on neither. -/
theorem flush (h : Alike old old' out out') : Alike old old' out.flush out'.flush := by
  rw [flush_eq, flush_eq, h.pending]
  exact h.hand_over _ _

end LineWriter.Alike

/-! ### Numbers -/

/-- A number goes together with itself, and a fault is the same on both sides. -/
theorem Numeric.rel {r : Except Fault Value} (hr : Numeric r) :
    Except.Rel (Value.Alike ρ) r r := by
  cases r with
  | error f => exact .error f
  | ok v =>
    have hv := hr.2 v rfl
    cases v with
    | int n => exact .ok (.int n)
    | float x => exact .ok (.float x)
    | str => cases hv
    | array => cases hv

/-- Numbers that go together are equal, and what is no number is none on either side. -/
theorem BinOp.onNumbers_alike (sign : NaNSign) (op : BinOp) (hv : v.Alike ρ w)
    (hv' : v'.Alike ρ w') : op.onNumbers sign v v' = op.onNumbers sign w w' := by
  cases hv <;> cases hv' <;> rfl

namespace Heap.Alike

variable {a b : Heap}

/-! ### Operators -/

/-- Strings that go together have the same text. -/
theorem sameText (hab : a.Alike κ ρ b) {i j : Handle} (hh : ρ.strings h k) (hij : ρ.strings i j) :
    a.sameText h i = b.sameText k j := by
  rw [Heap.sameText, Heap.sameText, hab.str hh, hab.str hij]

/-- The texts that are put together are the same, so one string is made on each side. -/
theorem concat (hab : a.Alike κ ρ b) (hy : Ready κ a b) (hc : a.Chained) (hh : ρ.strings h k)
    (hv : v.Alike ρ w) :
    Agree κ Value.Alike (Heap.Alike κ) ρ (a.concat h v) (b.concat k w) := by
  rw [Heap.concat, Heap.concat, hab.str hh, hab.display hc hv]
  split
  · exact hab.allocString hy _
  · exact .error _ le_rfl hab
  · exact .error _ le_rfl hab

theorem of_number {α : Type} (hab : a.Alike κ ρ b) (r : Except Fault α) {g : α → Value}
    (hg : ∀ x, (g x).Alike ρ (g x)) :
    Agree κ Value.Alike (Heap.Alike κ) ρ (r.map g, a) (r.map g, b) := by
  cases r with
  | ok x => exact .ok le_rfl (hg x) hab
  | error f => exact .error f le_rfl hab

/-- An operator has the same meaning on both sides. -/
theorem operate (hab : a.Alike κ ρ b) (hy : Ready κ a b) (hc : a.Chained) (sign : NaNSign)
    (op : BinOp) (hv : v.Alike ρ w) (hv' : v'.Alike ρ w') :
    Agree κ Value.Alike (Heap.Alike κ) ρ (a.operate sign op v v') (b.operate sign op w w') := by
  -- Numbers are no handles, so that what only looks at them does the same on both sides.
  have numbers : Agree κ Value.Alike (Heap.Alike κ) ρ (op.onNumbers sign v v', a)
      (op.onNumbers sign w w', b) :=
    op.onNumbers_alike sign hv hv' ▸ .of_rel (op.onNumbers_numeric sign v v').rel hab
  cases hv with
  | int n =>
    cases hv' with
    | str hh =>
      cases op with
      | plus =>
        rw [Heap.operate, Heap.operate, hab.str hh]
        exact hab.of_number _ fun _ => .int _
      | _ => exact numbers
    | _ => cases op <;> exact numbers
  | float x =>
    cases hv' with
    | str hh =>
      cases op with
      | plus =>
        rw [Heap.operate, Heap.operate, hab.str hh]
        exact hab.of_number _ fun _ => .float _
      | _ => exact numbers
    | _ => cases op <;> exact numbers
  | str hh =>
    cases hv' with
    | array => cases op <;> exact numbers
    | str hij =>
      cases op with
      | plus => exact hab.concat hy hc hh (.str hij)
      | eq =>
        rw [Heap.operate, Heap.operate, hab.sameText hh hij]
        exact hab.of_number _ fun _ => .int _
      | neq =>
        rw [Heap.operate, Heap.operate, hab.sameText hh hij]
        exact hab.of_number _ fun _ => .int _
      | _ => exact numbers
    | int n =>
      cases op with
      | plus => exact hab.concat hy hc hh (.int n)
      | _ => exact numbers
    | float x =>
      cases op with
      | plus => exact hab.concat hy hc hh (.float x)
      | _ => exact numbers
  | array => cases hv' <;> cases op <;> exact numbers

/-- The operands are given back on both sides, whatever came of them. -/
theorem binary (hab : a.Alike κ ρ b) (hy : Ready κ a b) (hc : a.Chained) (sign : NaNSign)
    (op : BinOp) (hv : v.Alike ρ w) (hv' : v'.Alike ρ w') :
    Agree κ Value.Alike (Heap.Alike κ) ρ (a.binary sign op v v') (b.binary sign op w w') := by
  refine (hab.operate hy hc sign op hv hv').after fun hle hs => ?_
  exact hs.releaseAll (.cons (hv.mono hle) (.cons (hv'.mono hle) .nil))

theorem negate (hab : a.Alike κ ρ b) (hv : v.Alike ρ w) :
    Agree κ Value.Alike (Heap.Alike κ) ρ (a.negate v) (b.negate w) := by
  cases hv with
  | int n => exact .ok le_rfl (.int _) hab
  | float x => exact .ok le_rfl (.float _) hab
  | str hh => exact .error _ le_rfl (hab.release (.str hh))
  | array hh => exact .error _ le_rfl (hab.release (.array hh))

end Heap.Alike

/-! ### Intrinsics -/

namespace Intrinsic

variable {a b : Heap} {out out' : LineWriter} {args args' : List Value}

/-- Heaps and printed lines are alike. -/
def Alike (κ : Likeness) (old old' : Array String) (ρ : Pairing) (s t : Heap × LineWriter) : Prop :=
  s.1.Alike κ ρ t.1 ∧ s.2.Alike old old' t.2

/-- Intrinsics read what goes together, and print the same. -/
theorem apply_agrees (hab : a.Alike κ ρ b) (hc : a.Chained) (hout : out.Alike old old' out')
    (i : Intrinsic) (hargs : List.Forall₂ (Value.Alike ρ) args args') :
    Agree κ Value.Alike (Alike κ old old') ρ (i.apply args a out) (i.apply args' b out') := by
  have hs : Alike κ old old' ρ (a, out) (b, out') := ⟨hab, hout⟩
  cases hargs with
  | nil => cases i <;> exact .error _ le_rfl hs
  | cons hv hargs =>
    cases i with
    | print =>
      simp only [apply, hab.display hc hv]
      split
      · exact .ok le_rfl (.int 0) ⟨hab, hout.write _⟩
      · exact .error _ le_rfl hs
    | remove =>
      cases hargs with
      | nil => cases hv <;> exact .error _ le_rfl hs
      | cons hv' hargs =>
        cases hv with
        | array hh =>
          have hr := hab.removeValue hc hh hv'
          simp only [apply]
          generalize a.removeValue _ _ = r at hr ⊢
          generalize b.removeValue _ _ = r' at hr ⊢
          cases hr with
          | halted hκ hf => exact .halted hκ hf
          | error f hle hab' => exact .error f hle ⟨hab', hout⟩
          | ok hle hr hab' =>
            cases hr
            exact .ok hle (.int _) ⟨hab', hout⟩
        | _ => exact .error _ le_rfl hs
    | size =>
      cases hv with
      | array hh =>
        simp only [apply, hab.size hc hh]
        generalize b.size _ = r
        cases r with
        | ok n => exact .ok le_rfl (.int _) hs
        | error f => exact .error f le_rfl hs
      | _ => exact .error _ le_rfl hs
    | isInt => exact .ok le_rfl (hv.type_eq ▸ .int _) hs
    | isFloat => exact .ok le_rfl (hv.type_eq ▸ .int _) hs
    | isStr => exact .ok le_rfl (hv.type_eq ▸ .int _) hs
    | isArray => exact .ok le_rfl (hv.type_eq ▸ .int _) hs

/-- The arguments are given back on both sides afterwards. -/
theorem call_agrees (hab : a.Alike κ ρ b) (hc : a.Chained) (hout : out.Alike old old' out')
    (i : Intrinsic) (hargs : List.Forall₂ (Value.Alike ρ) args args') :
    Agree κ Value.Alike (Alike κ old old') ρ (i.call args a out) (i.call args' b out') := by
  refine (apply_agrees hab hc hout i hargs).after (f := fun s => (s.1.releaseAll args, s.2))
    (g := fun t => (t.1.releaseAll args', t.2)) fun hle hs => ?_
  exact ⟨hs.1.releaseAll (hargs.imp fun _ _ hv => hv.mono hle), hs.2⟩

end Intrinsic

end PoolScript
