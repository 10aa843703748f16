import Mathlib.Algebra.Order.Group.Multiset
import Mathlib.Tactic.Abel
import PoolScript.Frame

/-!
# The values of a frame

A frame owns the values of its variables. Binding a variable takes a value in and gives the
one out that it had; taking a variable away gives its value out.
-/

namespace PoolScript

namespace Table

variable {α : Type} {t : Table α} {name : String} {a : α}

/-- Binding a name puts its value among the values in place of the one that it had, if it had one.
    -/
theorem values_bind (name : String) (a : α) (es : List (String × α)) :
    ((bind name a es).map (·.2) : Multiset α) + ((es.lookup name).toList : Multiset α) =
      {a} + (es.map (·.2) : Multiset α) := by
  induction es with
  | nil => simp [bind]
  | cons e es ih =>
    obtain ⟨k, b⟩ := e
    by_cases h : k = name
    · subst h
      simp only [bind, if_pos, List.lookup_cons_self, List.map_cons, ← Multiset.cons_coe,
        ← Multiset.singleton_add, Option.toList_some]
      abel
    · have hl : ((k, b) :: es).lookup name = es.lookup name := by
        rw [List.lookup_cons, beq_false_of_ne (Ne.symm h)]
      rw [bind, if_neg h, hl]
      simp only [List.map_cons, ← Multiset.cons_coe, ← Multiset.singleton_add]
      rw [add_assoc, ih, add_left_comm]

/-- Taking a name away takes its value away, if it had one. -/
theorem values_unbind (name : String) (es : List (String × α)) :
    ((unbind name es).map (·.2) : Multiset α) + ((es.lookup name).toList : Multiset α) =
      (es.map (·.2) : Multiset α) := by
  induction es with
  | nil => simp [unbind]
  | cons e es ih =>
    obtain ⟨k, b⟩ := e
    by_cases h : k = name
    · subst h
      simp only [unbind, if_pos, List.lookup_cons_self, List.map_cons, ← Multiset.cons_coe,
        ← Multiset.singleton_add, Option.toList_some]
      abel
    · have hl : ((k, b) :: es).lookup name = es.lookup name := by
        rw [List.lookup_cons, beq_false_of_ne (Ne.symm h)]
      rw [unbind, if_neg h, hl]
      simp only [List.map_cons, ← Multiset.cons_coe, ← Multiset.singleton_add]
      rw [add_assoc, ih]

/-- What a name leads to is among the values. -/
theorem mem_values (h : t.get? name = some a) : a ∈ t.values := by
  obtain ⟨l, r, hlr, -⟩ := List.lookup_eq_some_iff.1 h
  rw [values, hlr]
  simp

end Table

namespace Frame

variable {f : Frame} {name : String} {v : Value}

/-- What comes out of a frame and what stays in it are what was in it and what is put in. -/
theorem values_set (f : Frame) (name : String) (v : Value) :
    ((f.set name v).1.toList : Multiset Value) + ((f.set name v).2.values : Multiset Value) =
      {v} + (f.values : Multiset Value) :=
  (add_comm ..).trans (Table.values_bind name v f.locals.entries)

/-- What is taken out of a frame and what stays in it are what was in it. -/
theorem values_take (f : Frame) (name : String) :
    ((f.take name).1.toList : Multiset Value) + ((f.take name).2.values : Multiset Value) =
      (f.values : Multiset Value) :=
  (add_comm ..).trans (Table.values_unbind name f.locals.entries)

theorem mem_values (h : f.get? name = some v) : v ∈ f.values :=
  Table.mem_values h

end Frame

end PoolScript
